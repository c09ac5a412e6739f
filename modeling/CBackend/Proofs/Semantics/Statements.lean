import CBackend.Proofs.Semantics.Values

/-!
The rules of lowering for declarations and statements. A loop is followed round by round, each round
being one step of an induction on the fuel of the loop.
-/

namespace CBackend

open LinearFunction

def Flow.answer (old : Option Word) : Flow → Option Word
  | .returned value => value
  | _ => old

def LinearFunction.Placed (f : LinearFunction) (l : Symbol) : Prop :=
  ∃ p : Nat, f.codes[p]? = some (.label l)

/-- Where a statement goes on: to the code that follows, to a label of the innermost loop, or to the
exit. -/
def LinearFunction.Exits (f : LinearFunction) (loops : List LoopLabels) (fall p : Nat) : Flow → Prop
  | .normal => p = fall
  | .broke => ∃ l ∈ loops.head?, f.codes[p]? = some (.label l.done)
  | .continued => ∃ l ∈ loops.head?, f.codes[p]? = some (.label l.next)
  | .returned _ => f.codes[p]? = some (.label f.exit)

def LinearFunction.Leaves {M : Type} (f : LinearFunction) (loops : List LoopLabels) (d : Draft)
    (fall : Nat) (s : State (Activation M)) (r : Flow × World M) (s' : State (Activation M)) : Prop :=
  ∃ p, f.Exits loops fall p r.1 ∧ Arrives d s p r.2 (r.1.answer s.world.result) s'

theorem SymbolTable.Grows.not_temp {t t' : SymbolTable} (grows : t.Grows t') {sym : Symbol}
    (named : t.names sym = true) : t'.kind sym ≠ .temp := by
  unfold SymbolTable.names at named
  intro temp
  split at named <;> first | cases named | skip
  all_goals
    rw [grows.kind_eq (of_decide_eq_true named)] at temp
    simp_all

section Rules

variable {M : Type} (σ : Setting M) (t t' : SymbolTable) (f : LinearFunction)

/-- Runs through the code between two drafts do what a part means. -/
def Simulates (d d' : Draft) : Task → Prop
  | .decls ds => (∀ x ∈ ds, x.typed t = true) → ∀ fuel s, s.pos = d.codes.length →
    f.Leads σ t' fuel s (ds.forM (Decl.exec σ t) s.world.world) fun r s' =>
      Arrives d s d'.codes.length r.2 s.world.result s'
  | .stmt loops _ st => st.typed t = true → ∀ fuel s, s.pos = d.codes.length →
    (∀ l ∈ loops, f.Placed l.next ∧ f.Placed l.done) →
    f.Leads σ t' fuel s (st.exec σ t fuel s.world.world) fun r s' =>
      f.Leaves loops d d'.codes.length s r s'
  | .stmts loops _ ss => Stmt.typedAll t ss = true → ∀ fuel s, s.pos = d.codes.length →
    (∀ l ∈ loops, f.Placed l.next ∧ f.Placed l.done) →
    f.Leads σ t' fuel s (Stmt.execAll σ t fuel ss s.world.world) fun r s' =>
      f.Leaves loops d d'.codes.length s r s'
  | _ => True

variable {σ t t' f} {d d₁ d₂ d₃ : Draft} {s s₁ s₂ : State (Activation M)}
  {loops : List LoopLabels} {level fuel : Nat} {v : LinId} {sym : Symbol} {zeroFill : Bool}
  {e c : Expr} {body : Stmt}

theorem LinearFunction.runs_addr (inside : (d.addr sym).Within t' f)
    (here : s.pos = d.codes.length) (named : t'.kind sym ≠ .temp) :
    ∃ s', f.Runs σ.workings t' s s' ∧
      Arrives d s (d.addr sym).codes.length s.world.world s.world.result s' ∧
      Conditions.Has d.next (.int (σ.address sym)) s'.held := by
  have moves : Conditions.Moves σ.workings t' f d d.codes.length (fun _ => True) _ _ :=
    Conditions.moves_emit (i := .value (.int (σ.address sym))) inside fun h w _ => by
      simp only [compute, named, Option.bind_eq_bind, Option.bind_some, if_false]
      rfl
  obtain ⟨h, run, kept, has⟩ := moves s.held s.world trivial
  rw [← here] at run
  exact ⟨_, run, ⟨kept, rfl, rfl, rfl, rfl⟩, has⟩

theorem LinearFunction.leads_fill {a : Word} {bytes : Nat}
    (inside : (d.code (.zeroFill v bytes)).Within t' f) (here : s.pos = d.codes.length)
    (value : Conditions.Has v (.int a) s.held) :
    f.Leads σ t' fuel s (σ.fill a bytes s.world.world) fun r s' =>
      Arrives d s (d.code (.zeroFill v bytes)).codes.length r.2 s.world.result s' := by
  have at_ : f.codes[s.pos]? = some (.zeroFill v bytes) := here ▸ inside.code_at
  have stepped : f.step σ.workings t' s = (Prod.snd <$> s.world.perform (σ.fill a bytes)).map
      fun w => { s.next with world := w } := by
    rw [step, at_, Option.map_eq_bind]
    simp only [Option.bind_eq_bind, Option.bind_some, value.value?_eq]
    rfl
  rw [Activation.perform] at stepped
  cases outcome : σ.fill a bytes s.world.world with
  | ok r =>
    rw [outcome] at stepped
    refine ⟨_, .single stepped, .refl d _, ?_, rfl, rfl, rfl⟩
    simp [State.next, Draft.code, here]
  | error halt =>
    cases halt with
    | stuck =>
      rw [outcome] at stepped
      exact ⟨s, .refl, stepped, by simp [Ended, at_]⟩
    | timeout => exact absurd outcome (Action.Calm.onMemory _ _)

theorem SymbolTable.lt_of_names (named : t.names sym = true) : sym.index < t.size := by
  unfold SymbolTable.names at named
  split at named
  all_goals first | exact of_decide_eq_true named | cases named

theorem LinearFunction.leads_declare (base : t.Grows d.symbols) (named : t.names sym = true)
    (inside : (if zeroFill then (d.code (.declare sym)).clear sym else d.code (.declare
      sym)).Within t' f) (here : s.pos = d.codes.length) :
    f.Leads σ t' fuel s
      ((if zeroFill then σ.fill (σ.address sym) (roundToSlot (t.ty sym).size) else pure () :
        Action M Unit) s.world.world) fun r s' =>
      Arrives d s (if zeroFill then (d.code (.declare sym)).clear sym
        else d.code (.declare sym)).codes.length r.2 s.world.result s' := by
  cases zeroFill with
  | false =>
    exact Leads.of_runs (runs_mark inside here rfl) (Leads.done ((Arrives.refl d s).move _))
  | true =>
    have cleared : ((d.code (.declare sym)).clear sym).Within t' f := inside
    have addressed : ((d.code (.declare sym)).addr sym).Within t' f :=
      cleared.of_grows ((Draft.Grows.refl _).code _)
    have declared : (d.code (.declare sym)).Within t' f :=
      addressed.of_grows ((Draft.Grows.refl _).addr _)
    have whole : t.Grows t' := base.trans (declared.of_grows ((Draft.Grows.refl _).code _)).symbols
    have first := runs_mark (σ := σ.workings) declared here rfl
    obtain ⟨s₂, second, at₂, value⟩ := runs_addr (σ := σ)
      (s := { s with pos := (d.code (.declare sym)).codes.length }) addressed rfl
      (whole.not_temp named)
    have size : d.symbols.ty sym = t.ty sym := base.ty_eq (SymbolTable.lt_of_names named)
    have fills : f.Leads σ t' fuel s₂ _ _ := leads_fill cleared at₂.pos value
    rw [at₂.world] at fills
    rw [← size]
    refine Leads.of_runs (first.trans second) (fills.imp fun r s₃ at₃ => ?_)
    have grows := (Draft.Grows.refl d).code (.declare sym)
    have both := ((Arrives.refl d s).move _).seq at₂ grows
    exact both.seq at₃ (grows.addr _)

theorem LinearFunction.leads_init {ty : CType} {x : Word} (base : t.Grows t')
    (named : t.names sym = true) (inside : (d.store sym ty v).Within t' f)
    (here : s.pos = d.codes.length) (old : v.index < d.nodes.length)
    (value : Conditions.Has v (.int x) s.held) :
    f.Leads σ t' fuel s (σ.write ty (σ.address sym) x s.world.world) fun r s' =>
      Arrives d s (d.store sym ty v).codes.length r.2 s.world.result s' := by
  have addressed : (d.addr sym).Within t' f := inside.of_grows ((Draft.Grows.refl _).emit _)
  obtain ⟨s₁, first, at₁, address⟩ := runs_addr (σ := σ) addressed here (base.not_temp named)
  have takes := Conditions.takes_perform (σ := σ.workings) rfl inside
    (P := fun h => Conditions.Has v (.int x) h ∧ Conditions.Has d.next (.int (σ.address sym)) h)
    fun h has => Conditions.values?_two rfl rfl has.2 has.1
  rw [Setting.perform_assign] at takes
  have stored := Leads.of_takes fuel takes (.onMemory _) at₁.pos
    ⟨(at₁.kept.items v old).trans value, address⟩
  rw [at₁.world] at stored
  exact Leads.of_runs first (stored.imp fun _ _ there =>
    at₁.seq there.1 ((Draft.Grows.refl d).addr sym))

theorem Simulates.declsNil : Simulates σ t t' f d d (.decls []) := by
  intro _ fuel s here
  exact Leads.done (here ▸ Arrives.refl d s)

theorem Decl.typed_iff {x : Decl} : x.typed t = true ↔ t.names x.sym = true ∧
    (t.ty x.sym).isInteger = true ∧ ∀ e ∈ x.init, e.ty.isInteger = true ∧ e.typed t = true := by
  simp only [Decl.typed, Bool.and_eq_true, Option.all_eq_true, and_assoc]
  rfl

theorem Simulates.declsPlain {ds : List Decl} (base : t.Grows d.symbols)
    (declared : d₁ = d.code (.declare sym))
    (rest : Simulates σ t t' f (if zeroFill then d₁.clear sym else d₁) d₂ (.decls ds))
    (inside : (if zeroFill then d₁.clear sym else d₁).Within t' f) :
    Simulates σ t t' f d d₂ (.decls (⟨sym, none, zeroFill⟩ :: ds)) := by
  intro typed fuel s here
  subst declared
  obtain ⟨named, -⟩ := Decl.typed_iff.mp (typed _ List.mem_cons_self)
  have split : (⟨sym, none, zeroFill⟩ :: ds).forM (Decl.exec σ t) = (do
      (if zeroFill then σ.fill (σ.address sym) (roundToSlot (t.ty sym).size) else pure () :
        Action M Unit)
      ds.forM (Decl.exec σ t) : Action M PUnit) := by
    cases zeroFill <;> simp [Decl.exec]
  rw [split]
  refine (leads_declare base named inside here).bind ?_
  rintro ⟨_, w⟩ s₁ at₁
  obtain rfl := at₁.world
  refine (rest (fun x inside => typed x (List.mem_cons_of_mem _ inside)) fuel s₁ at₁.pos).imp
    fun r s₂ at₂ => ?_
  exact at₁.seq at₂ ((Draft.Grows.refl d).declare _ _)

theorem Simulates.declsInit {ds : List Decl} (base : t.Grows d.symbols)
    (declared : d₁ = d.code (.declare sym))
    (init : Expresses σ t t' f (if zeroFill then d₁.clear sym else d₁) d₂ (.value e v))
    (grows : (if zeroFill then d₁.clear sym else d₁).Grows d₂)
    (rest : Simulates σ t t' f (d₂.store sym (d.symbols.ty sym) v) d₃ (.decls ds))
    (inside : (d₂.store sym (d.symbols.ty sym) v).Within t' f) :
    Simulates σ t t' f d d₃ (.decls (⟨sym, some e, zeroFill⟩ :: ds)) := by
  intro typed fuel s here
  subst declared
  obtain ⟨named, -, checked⟩ := Decl.typed_iff.mp (typed _ List.mem_cons_self)
  obtain ⟨integer, typedE⟩ := checked e rfl
  obtain ⟨old, evaluates⟩ := init integer typedE
  have started := (inside.of_grows ((Draft.Grows.refl _).store _ _ _)).of_grows grows
  have begins := (Draft.Grows.refl d).declare sym zeroFill
  have whole : t.Grows t' := (base.trans (begins.trans (grows.store _ _ _)).symbols).trans
    inside.symbols
  have size : d.symbols.ty sym = t.ty sym := base.ty_eq (SymbolTable.lt_of_names named)
  have split : (⟨sym, some e, zeroFill⟩ :: ds).forM (Decl.exec σ t) = (do
      (if zeroFill then σ.fill (σ.address sym) (roundToSlot (t.ty sym).size) else pure () :
        Action M Unit)
      let x ← e.eval σ t
      σ.write (t.ty sym) (σ.address sym) x
      ds.forM (Decl.exec σ t) : Action M PUnit) := by
    cases zeroFill <;> simp [Decl.exec]
  rw [split]
  refine (leads_declare base named started here).bind ?_
  rintro ⟨_, w⟩ s₁ at₁
  obtain rfl := at₁.world
  refine (evaluates fuel s₁ at₁.pos).bind ?_
  rintro ⟨x, w⟩ s₂ ⟨at₂, value⟩
  obtain rfl := at₂.world
  have before := at₁.seq at₂ begins
  rw [size] at inside rest
  refine (leads_init whole named inside at₂.pos old value).bind ?_
  rintro ⟨_, w⟩ s₃ at₃
  obtain rfl := at₃.world
  refine (rest (fun x inside => typed x (List.mem_cons_of_mem _ inside)) fuel s₃ at₃.pos).imp
    fun r s₄ at₄ => ?_
  exact (before.seq at₃ (begins.trans grows)).seq at₄ ((begins.trans grows).store _ _ _)

theorem LinearFunction.Leaves.mark {r : Flow × World M} {c : Code}
    (leaves : f.Leaves loops d d₁.codes.length s r s₁) (inside : (d₁.code c).Within t' f)
    (marked : marks c = true) :
    ∃ s', f.Runs σ.workings t' s₁ s' ∧ f.Leaves loops d (d₁.code c).codes.length s r s' := by
  obtain ⟨p, exits, arrives⟩ := leaves
  obtain ⟨flow, w⟩ := r
  cases flow with
  | normal =>
    obtain rfl := exits
    exact ⟨_, runs_mark inside arrives.pos marked, _, rfl, arrives.move _⟩
  | broke | continued | returned => exact ⟨s₁, .refl, p, exits, arrives⟩

theorem LinearFunction.Leaves.of_arrives {fall p : Nat} {r : Flow × World M} {w : World M}
    (before : Arrives d s p w s.world.result s₁) (leaves : f.Leaves loops d₁ fall s₁ r s₂)
    (grows : d.Grows d₁) : f.Leaves loops d fall s r s₂ := by
  obtain ⟨p', exits, arrives⟩ := leaves
  exact ⟨p', exits, before.result ▸ before.trans arrives grows⟩

theorem Simulates.expr (run : Expresses σ t t' f d d₁ (.effect e)) :
    Simulates σ t t' f d d₁ (.stmt loops level (.expr e)) := by
  intro typed fuel s here _
  exact (run typed fuel s here).bind fun r s₁ at₁ => Leads.done ⟨_, rfl, at₁⟩

theorem Simulates.when (test : Expresses σ t t' f d.label d₁ (.branch c none (some d.fresh)))
    (run : Simulates σ t t' f d₁ d₂ (.stmt loops level body)) (grows : d.label.Grows d₁)
    (inside : (d₂.place d.fresh).Within t' f) :
    Simulates σ t t' f d (d₂.place d.fresh) (.stmt loops level (.when c body)) := by
  intro typed fuel s here placed
  simp only [Stmt.typed, Bool.and_eq_true] at typed
  have begins := (Draft.Grows.refl d).label
  refine (test typed.1.1 typed.1.2 _ _ rfl inside.code_at fuel s here).bind ?_
  rintro ⟨x, w⟩ s₁ at₁
  obtain rfl := at₁.world
  by_cases null : x = 0
  · simp only [null, ne_eq, not_true_eq_false, if_false]
    refine Leads.of_runs (runs_mark inside (at₁.pos.trans (if_pos null)) rfl) (Leads.done ?_)
    exact ⟨_, rfl, (at₁.weaken begins).move _⟩
  · simp only [null, ne_eq, not_false_eq_true, if_true]
    refine (run typed.2 fuel s₁ (at₁.pos.trans (if_neg null)) placed).then_runs
      fun r s₂ leaves => ?_
    exact (Leaves.of_arrives (at₁.weaken begins) leaves (begins.trans grows)).mark inside rfl

theorem Simulates.ifElse {a b : Stmt} (unique : f.LabelsUnique)
    (test : Expresses σ t t' f d.label.label d₁ (.branch c none (some d.fresh)))
    (arm : Simulates σ t t' f d₁ d₂ (.stmt loops level a))
    (other : Simulates σ t t' f ((d₂.code (.jump d.label.fresh)).place d.fresh) d₃ (.stmt loops
      level b)) (grows₁ : d.label.label.Grows d₁) (grows₂ : d₁.Grows d₂)
    (grows₃ : ((d₂.code (.jump d.label.fresh)).place d.fresh).Grows d₃)
    (inside : (d₃.place d.label.fresh).Within t' f) :
    Simulates σ t t' f d (d₃.place d.label.fresh) (.stmt loops level (.ifElse c a b)) := by
  intro typed fuel s here placed
  simp only [Stmt.typed, Bool.and_eq_true] at typed
  obtain ⟨⟨⟨integer, typedTest⟩, typedArm⟩, typedOther⟩ := typed
  have begins := (Draft.Grows.refl d).label.label
  have grow₁ : d.Grows d₁ := begins.trans grows₁
  have middle : ((d₂.code (.jump d.label.fresh)).place d.fresh).Within t' f :=
    inside.of_grows (grows₃.place _)
  have jumps : (d₂.code (.jump d.label.fresh)).Within t' f :=
    middle.of_grows ((Draft.Grows.refl _).place _)
  refine (test integer typedTest _ _ rfl middle.code_at fuel s here).bind ?_
  rintro ⟨x, w⟩ s₁ at₁
  obtain rfl := at₁.world
  have before := at₁.weaken begins
  by_cases null : x = 0
  · simp only [null, ne_eq, not_true_eq_false, if_false]
    have passed := runs_mark (σ := σ.workings) middle (at₁.pos.trans (if_pos null)) rfl
    refine Leads.of_runs passed ((other typedOther fuel _ rfl placed).then_runs
      fun r s₂ leaves => ?_)
    exact (Leaves.of_arrives (before.move _) leaves
      (((grow₁.trans grows₂).code _).place _)).mark inside rfl
  · simp only [null, ne_eq, not_false_eq_true, if_true]
    refine (arm typedArm fuel s₁ (at₁.pos.trans (if_neg null)) placed).then_runs ?_
    rintro ⟨flow, w⟩ s₂ leaves
    obtain ⟨p, exits, at₂⟩ := Leaves.of_arrives before leaves grow₁
    cases flow with
    | normal =>
      obtain rfl := exits
      have met := runs_jump (σ := σ.workings) unique jumps at₂.pos inside.code_at
      exact ⟨_, met.trans (runs_mark inside rfl rfl), _, rfl, at₂.move _⟩
    | broke | continued | returned => exact ⟨s₂, .refl, p, exits, at₂⟩

theorem Simulates.block {decls : List Decl} {body : List Stmt}
    (heads : Simulates σ t t' f (d.code (.blockEnter (level + 1))) d₁ (.decls decls))
    (run : Simulates σ t t' f d₁ d₂ (.stmts loops (level + 1) body))
    (grows₁ : (d.code (.blockEnter (level + 1))).Grows d₁) (grows₂ : d₁.Grows d₂)
    (inside : (d₂.code (.blockLeave (level + 1))).Within t' f) :
    Simulates σ t t' f d (d₂.code (.blockLeave (level + 1)))
      (.stmt loops level (.block decls body)) := by
  intro typed fuel s here placed
  simp only [Stmt.typed, Bool.and_eq_true, List.all_eq_true] at typed
  have begins := (Draft.Grows.refl d).code (.blockEnter (level + 1))
  have entered := inside.of_grows ((grows₁.trans grows₂).code _)
  refine Leads.of_runs (runs_mark entered here rfl)
    ((heads typed.1 fuel { s with pos := (d.code _).codes.length } rfl).bind ?_)
  rintro ⟨_, w⟩ s₁ at₁
  obtain rfl := at₁.world
  have before := ((Arrives.refl d s).move _).seq at₁ begins
  refine (run typed.2 fuel s₁ at₁.pos placed).then_runs fun r s₂ leaves => ?_
  exact (Leaves.of_arrives before leaves (begins.trans grows₁)).mark inside rfl

theorem LinearFunction.runs_ret {lin : Option LinId} {x : Option Word} {fall : Nat}
    (unique : f.LabelsUnique) (exit_ : f.Placed f.exit) (inside : (d.code (.ret lin)).Within t' f)
    (here : s.pos = d.codes.length) (value : lin.mapM s.value? = some (Value.int <$> x)) :
    ∃ s', f.Runs σ.workings t' s s' ∧ f.Leaves loops d fall s (.returned x, s.world.world) s' := by
  obtain ⟨p, placed⟩ := exit_
  have answered : σ.workings.answer (Value.int <$> x) s.world =
      some { s.world with result := x } := by
    cases x with
    | none => rfl
    | some x => rfl
  refine ⟨⟨p, s.held, { s.world with result := x }⟩, .single ?_, p, placed, .refl d _, rfl, rfl,
    rfl, rfl⟩
  rw [step, here, inside.code_at]
  simp only [Option.bind_eq_bind, Option.bind_some, value, answered]
  exact goto_eq unique placed _

theorem Simulates.retNone (unique : f.LabelsUnique) (exit_ : f.Placed f.exit)
    (inside : (d.code (.ret none)).Within t' f) :
    Simulates σ t t' f d (d.code (.ret none)) (.stmt loops level (.ret none)) :=
  fun _ _ _ here _ => runs_ret unique exit_ inside here rfl

theorem Simulates.ret (unique : f.LabelsUnique) (exit_ : f.Placed f.exit)
    (run : Expresses σ t t' f d d₁ (.value e v)) (grows : d.Grows d₁)
    (inside : (d₁.code (.ret (some v))).Within t' f) :
    Simulates σ t t' f d (d₁.code (.ret (some v))) (.stmt loops level (.ret (some e))) := by
  intro typed fuel s here _
  simp only [Stmt.typed, Bool.and_eq_true] at typed
  refine ((run typed.1 typed.2).2 fuel s here).bind ?_
  rintro ⟨x, w⟩ s₁ ⟨at₁, value⟩
  obtain rfl := at₁.world
  have held : (some v).mapM s₁.value? = some (Value.int <$> some x) := by
    simp [value.value?_eq]
  obtain ⟨s₂, returned, leaves⟩ := runs_ret (σ := σ) unique exit_ inside at₁.pos held
  exact ⟨s₂, returned, Leaves.of_arrives at₁ leaves grows⟩

theorem Simulates.break {labels : LoopLabels} (unique : f.LabelsUnique)
    (inside : (d.code (.jump labels.done)).Within t' f) :
    Simulates σ t t' f d (d.code (.jump labels.done)) (.stmt (labels :: loops) level .break) := by
  intro _ fuel s here placed
  obtain ⟨p, found⟩ := (placed labels List.mem_cons_self).2
  exact Leads.of_runs (runs_jump unique inside here found)
    (Leads.done ⟨p, ⟨labels, rfl, found⟩, (Arrives.refl d s).move p⟩)

theorem Simulates.continue {labels : LoopLabels} (unique : f.LabelsUnique)
    (inside : (d.code (.jump labels.next)).Within t' f) :
    Simulates σ t t' f d (d.code (.jump labels.next)) (.stmt (labels :: loops) level .continue) := by
  intro _ fuel s here placed
  obtain ⟨p, found⟩ := (placed labels List.mem_cons_self).1
  exact Leads.of_runs (runs_jump unique inside here found)
    (Leads.done ⟨p, ⟨labels, rfl, found⟩, (Arrives.refl d s).move p⟩)

theorem Simulates.stmtsNil : Simulates σ t t' f d d (.stmts loops level []) := by
  intro _ fuel s here _
  exact Leads.done ⟨_, rfl, here ▸ Arrives.refl d s⟩

theorem Simulates.stmtsCons {x : Stmt} {xs : List Stmt}
    (head : Simulates σ t t' f d d₁ (.stmt loops level x))
    (rest : Simulates σ t t' f d₁ d₂ (.stmts loops level xs)) (grows : d.Grows d₁) :
    Simulates σ t t' f d d₂ (.stmts loops level (x :: xs)) := by
  intro typed fuel s here placed
  simp only [Stmt.typedAll, Bool.and_eq_true] at typed
  refine (head typed.1 fuel s here placed).bind ?_
  rintro ⟨flow, w⟩ s₁ ⟨p, exits, at₁⟩
  cases flow with
  | normal =>
    obtain rfl := exits
    obtain rfl := at₁.world
    exact (rest typed.2 fuel s₁ at₁.pos placed).imp fun r s₂ leaves =>
      Leaves.of_arrives at₁ leaves grows
  | broke | continued | returned => exact Leads.done ⟨p, exits, at₁⟩

/-- Rounds of a loop, from the label before its test on. What a round leaves is the start of the
next, and the label alone makes each round a step longer than its fuel. -/
theorem LinearFunction.leads_loop {top next done : Symbol} (unique : f.LabelsUnique)
    (run : Simulates σ t t' f (d₁.place top) d₂ (.stmt (⟨next, done⟩ :: loops) level body))
    (test : Expresses σ t t' f (d₂.place next) d₃ (.branch c (some top) none))
    (integer : c.ty.isInteger = true) (typedTest : c.typed t = true)
    (typedBody : body.typed t = true) (grows₁ : d.Grows d₁) (grows₂ : (d₁.place top).Grows d₂)
    (grows₃ : (d₂.place next).Grows d₃) (inside : (d₃.place done).Within t' f)
    (placed : ∀ l ∈ loops, f.Placed l.next ∧ f.Placed l.done) {n : Nat} (less : n ≤ fuel)
    (here : s.pos = d₂.codes.length) :
    f.Leads σ t' n s (loop (c.eval σ t) (body.exec σ t fuel) n s.world.world) fun r s' =>
      f.Leaves loops d (d₃.place done).codes.length s r s' := by
  have tested : (d₂.place next).Within t' f := inside.of_grows (grows₃.place _)
  have started : (d₁.place top).Within t' f :=
    tested.of_grows ((Draft.Grows.refl _).trans (grows₂.place _))
  have grow₂ : d.Grows (d₂.place next) := ((grows₁.place _).trans grows₂).place _
  have known : ∀ l ∈ (⟨next, done⟩ :: loops : List LoopLabels), f.Placed l.next ∧ f.Placed l.done := by
    intro l member
    rcases List.mem_cons.mp member with rfl | outer
    · exact ⟨⟨_, tested.code_at⟩, ⟨_, inside.code_at⟩⟩
    · exact placed l outer
  induction n generalizing s with
  | zero => exact ⟨s, rfl⟩
  | succ n ih =>
    have first := step_mark (σ := σ.workings) (s := s) tested here rfl
    refine Leads.head first ((test integer typedTest _ _ started.code_at rfl n
      { s with pos := (d₂.place next).codes.length } rfl).bind ?_)
    rintro ⟨x, w⟩ s₁ at₁
    obtain rfl := at₁.world
    have before := ((Arrives.refl d s).move _).seq at₁ grow₂
    by_cases null : x = 0
    · simp only [null, if_true]
      refine Leads.of_runs (runs_mark inside (at₁.pos.trans (if_pos null)) rfl) (Leads.done ?_)
      exact ⟨_, rfl, before.move _⟩
    · simp only [null, if_false]
      have entered := runs_mark (σ := σ.workings) started (at₁.pos.trans (if_neg null)) rfl
      refine Leads.of_runs entered (((run typedBody fuel
        { s₁ with pos := (d₁.place top).codes.length } rfl known).mono (Nat.le_of_succ_le less)).bind
        ?_)
      rintro ⟨flow, w⟩ s₂ leaves
      obtain ⟨p, exits, at₂⟩ := Leaves.of_arrives (before.move _) leaves (grows₁.place _)
      have again (reached : Arrives d s d₂.codes.length w s.world.result s₂) : f.Leads σ t' n s₂
          (loop (c.eval σ t) (body.exec σ t fuel) n w) fun r s' =>
            f.Leaves loops d (d₃.place done).codes.length s r s' := by
        obtain rfl := reached.world
        refine (ih (Nat.le_of_succ_le less) reached.pos).imp fun r s₃ leaves => ?_
        exact Leaves.of_arrives reached leaves (.refl d)
      cases flow with
      | normal =>
        obtain rfl := exits
        exact again at₂
      | continued =>
        obtain ⟨l, head, found⟩ := exits
        obtain rfl := Option.some.inj head
        obtain rfl := unique _ _ _ found tested.code_at
        exact again at₂
      | broke =>
        obtain ⟨l, head, found⟩ := exits
        obtain rfl := Option.some.inj head
        obtain rfl := unique _ _ _ found inside.code_at
        refine Leads.of_runs (runs_mark inside at₂.pos rfl) (Leads.done ?_)
        exact ⟨_, rfl, at₂.move _⟩
      | returned value => exact Leads.done ⟨p, exits, at₂⟩

theorem Simulates.while (unique : f.LabelsUnique) (labels : d₁ = d.label.label.label)
    (run : Simulates σ t t' f ((d₁.code (.jump d.label.fresh)).place d.fresh) d₂ (.stmt
      (⟨d.label.fresh, d.label.label.fresh⟩ :: loops) level body))
    (test : Expresses σ t t' f (d₂.place d.label.fresh) d₃ (.branch c (some d.fresh) none))
    (grows₂ : ((d₁.code (.jump d.label.fresh)).place d.fresh).Grows d₂)
    (grows₃ : (d₂.place d.label.fresh).Grows d₃)
    (inside : (d₃.place d.label.label.fresh).Within t' f) :
    Simulates σ t t' f d (d₃.place d.label.label.fresh) (.stmt loops level (.while c body)) := by
  intro typed fuel s here placed
  simp only [Stmt.typed, Bool.and_eq_true] at typed
  have grows₁ : d.Grows (d₁.code (.jump d.label.fresh)) :=
    labels ▸ (Draft.Grows.refl d).label.label.label.code _
  have tested : (d₂.place d.label.fresh).Within t' f := inside.of_grows (grows₃.place _)
  have jumps : (d₁.code (.jump d.label.fresh)).Within t' f :=
    tested.of_grows ((((Draft.Grows.refl _).place _).trans grows₂).place _)
  have entered : f.Runs σ.workings t' s { s with pos := d₂.codes.length } := by
    subst labels
    exact runs_jump unique jumps here tested.code_at
  refine Leads.of_runs entered ((leads_loop (d := d) unique run test typed.1.1 typed.1.2 typed.2
    grows₁ grows₂ grows₃ inside placed (Nat.le_refl fuel) rfl).imp fun r s₁ leaves => ?_)
  exact Leaves.of_arrives ((Arrives.refl d s).move _) leaves (.refl d)

end Rules

end CBackend
