import CBackend.Proofs.Lowering.Rules
import CBackend.Proofs.StateError

/-!
Every lowering that succeeds follows the rules. The state of a pass is its draft together with what
is open (loops, blocks, expressions); a part that is lowered successfully only changes the draft.
-/

namespace CBackend

variable {jump : (t f : Option Symbol) → Lower Unit} {Q : Unit → Draft → Prop} {inner : Lower LinId}
  {s : Lowering} {e : Expr}

def Lowering.withDraft (s : Lowering) (d : Draft) : Lowering :=
  { s with symbols := d.symbols, codes := d.codes.toArray, nodes := d.nodes.toArray, done := d.done }

@[simp] theorem Lowering.draft_withDraft (s : Lowering) (d : Draft) :
    (s.withDraft d).draft = d := rfl

@[simp] theorem Lowering.withDraft_withDraft (s : Lowering) (d d' : Draft) :
    (s.withDraft d).withDraft d' = s.withDraft d' := rfl

@[simp] theorem Lowering.withDraft_draft (s : Lowering) : s.withDraft s.draft = s := rfl

@[simp] theorem Lowering.output_withDraft (s : Lowering) (d : Draft) :
    (s.withDraft d).output = s.output := rfl

@[simp] theorem Lowering.loops_withDraft (s : Lowering) (d : Draft) :
    (s.withDraft d).loops = s.loops := rfl

@[simp] theorem Lowering.level_withDraft (s : Lowering) (d : Draft) :
    (s.withDraft d).level = s.level := rfl

private theorem append_singleton_toArray {α : Type} (xs : Array α) (x : α) :
    (xs.toList ++ [x]).toArray = xs.push x := by
  rw [← Array.toList_push]

namespace Lower

variable {t f : Option Symbol}

/-! What the primitive steps do to a draft. -/

theorem code_run (c : Code) (s : Lowering) :
    code c s = .ok () (s.withDraft (s.draft.code c)) := by
  change EStateM.Result.ok _ _ = _
  simp [Lowering.withDraft, Lowering.draft, Draft.code, append_singleton_toArray]

theorem place_run (label : Symbol) (s : Lowering) :
    place label s = .ok () (s.withDraft (s.draft.place label)) := code_run _ _

theorem emit_run (n : LinNode) (s : Lowering) :
    emit n s = .ok s.draft.next (s.withDraft (s.draft.emit n)) := by
  change EStateM.Result.ok _ _ = _
  simp [Lowering.withDraft, Lowering.draft, Draft.emit, Draft.next, append_singleton_toArray]

theorem onSymbols_run {α : Type} (step : SymbolTable → α × SymbolTable) (s : Lowering) :
    onSymbols step s =
      .ok (step s.draft.symbols).1
        (s.withDraft { s.draft with symbols := (step s.draft.symbols).2 }) :=
  rfl

theorem freshLabel_run (s : Lowering) :
    freshLabel s = .ok s.draft.fresh (s.withDraft s.draft.label) := rfl

theorem emitAddr_run (sym : Symbol) (s : Lowering) :
    emitAddr sym s = .ok s.draft.next (s.withDraft (s.draft.addr sym)) := emit_run _ _

theorem constant_run (intern : SymbolTable → Symbol × SymbolTable) (ty : CType) (s : Lowering) :
    (onSymbols intern >>= fun sym => emitConst sym ty) s =
      .ok s.draft.next (s.withDraft (s.draft.constant intern ty)) := by
  change emitConst _ ty _ = _
  rw [emitConst, emit_run]
  rfl

theorem zero_run (ty : CType) (s : Lowering) :
    zero ty s = .ok s.draft.next (s.withDraft (s.draft.zero ty)) := constant_run _ _ _

theorem freshTemp_run (ty : CType) (s : Lowering) :
    freshTemp ty s = .ok s.draft.fresh (s.withDraft (s.draft.temp ty)) := by
  rw [freshTemp, bind_run (onSymbols_run _ _), bind_run (code_run _ _)]
  rfl

theorem storeTo_run (sym : Symbol) (ty : CType) (v : LinId) (s : Lowering) :
    storeTo sym ty v s = .ok () (s.withDraft (s.draft.store sym ty v)) := by
  rw [storeTo, bind_run (emitAddr_run _ _), bind_run (emit_run _ _)]
  rfl

theorem loadFrom_run (sym : Symbol) (ty : CType) (s : Lowering) :
    loadFrom sym ty s =
      .ok (s.draft.addr sym).next (s.withDraft (s.draft.load sym ty)) := by
  rw [loadFrom, bind_run (emitAddr_run _ _), emit_run]
  rfl

theorem compare_run (labelled : t.isSome ∨ f.isSome) (cond : Cond) (l r : LinId) (s : Lowering) :
    compare cond l r t f s = .ok () (s.withDraft (s.draft.compare cond l r t f)) := by
  match t, f with
  | some t, some f =>
    change (emit _ >>= fun c => code (.branch c t) >>= fun _ => code (.jump f)) s = _
    rw [bind_run (emit_run _ _), bind_run (code_run _ _)]
    exact code_run _ _
  | some t, none =>
    change (emit _ >>= fun c => code (.branch c t) >>= fun _ => pure ()) s = _
    rw [bind_run (emit_run _ _), bind_run (code_run _ _)]
    rfl
  | none, some f =>
    change (emit _ >>= fun c => code (.branch c f)) s = _
    rw [bind_run (emit_run _ _)]
    exact code_run _ _
  | none, none => simp at labelled

theorem labelled_of_compare {cond : Cond} {l r : LinId} {s' : Lowering} {u : Unit}
    (ok : compare cond l r t f s = .ok u s') : t.isSome ∨ f.isSome := by
  cases t with
  | some t => exact .inl rfl
  | none =>
    cases f with
    | some f => exact .inr rfl
    | none => exact absurd ok throw_ne_ok

theorem testValue_run (labelled : t.isSome ∨ f.isSome) (ty : CType) (v : LinId) (s : Lowering) :
    testValue ty v t f s = .ok () (s.withDraft (s.draft.test ty v t f)) := by
  rw [testValue, bind_run (zero_run _ _), compare_run labelled]
  rfl

theorem labelled_of_testValue {ty : CType} {v : LinId} {s' : Lowering} {u : Unit}
    (ok : testValue ty v t f s = .ok u s') : t.isSome ∨ f.isSome := by
  rw [testValue, bind_run (zero_run _ _)] at ok
  exact labelled_of_compare ok

end Lower

/-- A step that succeeds leaves alone what is open, and its result and draft are as `Q` says. -/
def Writes {α : Type} (s : Lowering) (x : Lower α) (Q : α → Draft → Prop) : Prop :=
  ∀ ⦃a : α⦄ ⦃s' : Lowering⦄, x s = .ok a s' → ∃ d, s' = s.withDraft d ∧ Q a d

namespace Writes

variable {α β : Type} {d : Draft} {x : Lower α} {f : α → Lower β} {a : α} {Q : β → Draft → Prop}

theorem bind {R : α → Draft → Prop} (first : Writes s x R)
    (second : ∀ a d, R a d → Writes (s.withDraft d) (f a) Q) : Writes s (x >>= f) Q := by
  intro b s' ok
  obtain ⟨a, s₁, ran, rest⟩ := bind_eq_ok.mp ok
  obtain ⟨d₁, rfl, related⟩ := first ran
  exact second a d₁ related rest

theorem imp {R Q : α → Draft → Prop} (writes : Writes s x R) (weaker : ∀ a d, R a d → Q a d) :
    Writes s x Q := by
  intro a s' ok
  obtain ⟨d, same, related⟩ := writes ok
  exact ⟨d, same, weaker a d related⟩

theorem of_run {Q : α → Draft → Prop} (run : x s = .ok a (s.withDraft d)) (holds : Q a d) :
    Writes s x Q := by
  intro b s' ok
  obtain ⟨rfl, rfl⟩ := EStateM.Result.ok.inj (run.symm.trans ok)
  exact ⟨d, rfl, holds⟩

theorem step (run : x s = .ok a (s.withDraft d)) (rest : Writes (s.withDraft d) (f a) Q) :
    Writes s (x >>= f) Q := by
  intro b s' ok
  rw [bind_run run] at ok
  exact rest ok

theorem pure {Q : α → Draft → Prop} (holds : Q a s.draft) : Writes s (pure a) Q :=
  of_run rfl holds

theorem throw {e : CompileError} : Writes s (throw e >>= f) Q := by
  intro b s' ok
  obtain ⟨_, _, thrown, -⟩ := bind_eq_ok.mp ok
  exact absurd thrown throw_ne_ok

theorem compare {cond : Cond} {l r : LinId} {t f : Option Symbol} {Q : Unit → Draft → Prop}
    (holds : t.isSome ∨ f.isSome → Q () (s.draft.compare cond l r t f)) :
    Writes s (Lower.compare cond l r t f) Q := by
  intro u s' ok
  have labelled := Lower.labelled_of_compare ok
  exact of_run (Lower.compare_run labelled cond l r s) (holds labelled) ok

theorem testValue {ty : CType} {v : LinId} {t f : Option Symbol} {Q : Unit → Draft → Prop}
    (holds : t.isSome ∨ f.isSome → Q () (s.draft.test ty v t f)) :
    Writes s (Lower.testValue ty v t f) Q := by
  intro u s' ok
  have labelled := Lower.labelled_of_testValue ok
  exact of_run (Lower.testValue_run labelled ty v s) (holds labelled) ok

theorem nested {Q : α → Draft → Prop} (writes : ∀ depth, Writes { s with depth } x Q) :
    Writes s (Lower.nested x) Q := by
  intro a s' ok
  rw [Lower.nested, bind_eq_ok] at ok
  obtain ⟨_, s₀, entered, ran⟩ := ok
  have opened : s₀ = { s with depth := s.depth + 1 } := by
    rw [Lower.enter, bind_eq_ok] at entered
    obtain ⟨_, s₁, deeper, checked⟩ := entered
    rw [modify_eq_ok] at deeper
    obtain ⟨_, _, got, checked⟩ := bind_eq_ok.mp checked
    obtain ⟨rfl, rfl⟩ := get_eq_ok.mp got
    split at checked
    · exact absurd checked throw_ne_ok
    · rw [← (pure_eq_ok.mp checked).2, deeper]
  subst opened
  obtain ⟨_, s₁, inner, left⟩ := tryFinally_eq_ok.mp ran
  obtain ⟨d', rfl, related⟩ := writes _ inner
  rw [Lower.exit, modify_eq_ok] at left
  exact ⟨d', left.symm, related⟩

end Writes

/-- The expression is lowered by the rules whatever it is lowered for. -/
structure Expr.Follows (e : Expr) : Prop where
  value : ∀ s, Writes s e.value fun id d => Lowers s.output true (.value e id) s.draft d
  effect : ∀ s, Writes s e.effect fun _ d => Lowers s.output true (.effect e) s.draft d
  branch : ∀ t f s, Writes s (e.branch t f) fun _ d => Lowers s.output true
    (.branch e t f) s.draft d

def Computes (e : Expr) (inner : Lower LinId) : Prop :=
  ∀ s, s.done.lookup e.number = none →
    Writes s inner fun id d => Lowers s.output true (.compute e id) s.draft d

def Jumps (e : Expr) (jump : (t f : Option Symbol) → Lower Unit) : Prop :=
  ∀ t f s, s.done.lookup e.number = none →
    Writes s (jump t f) fun _ d => Lowers s.output true (.jump e t f) s.draft d

open NodeLowering

theorem Computes.once (computes : Computes e inner) (s : Lowering) :
    Writes s (Lower.once e.number inner) fun id d => Lowers s.output true
      (.value e id) s.draft d := by
  refine Writes.step (a := s.done.lookup e.number) (d := s.draft) rfl ?_
  cases known : s.done.lookup e.number with
  | some id => exact Writes.pure (.reuse rfl known)
  | none =>
    refine Writes.bind (R := fun id d => Lowers s.output true (.compute e id) s.draft d)
      (Writes.nested fun depth => computes { s with depth } known) fun id d run => ?_
    exact Writes.step (d := d.settle e.number id) rfl (Writes.pure (.first known run))

theorem Writes.branchWith {tag : NodeTag} {t f : Option Symbol}
    (known : ∀ v, tag.ty.isStruct = false → s.done.lookup tag.number = some v → Writes s
      (Lower.testValue tag.ty v t f) Q)
    (unknown : tag.ty.isStruct = false → s.done.lookup tag.number = none → Writes s (jump t f) Q) :
    Writes s (branchWith tag jump t f) Q := by
  unfold NodeLowering.branchWith
  split
  · exact Writes.throw
  · rename_i scalar
    rw [Bool.not_eq_true] at scalar
    refine Writes.step (a := s.done.lookup tag.number) (d := s.draft) rfl ?_
    cases found : s.done.lookup tag.number with
    | some v => exact known v scalar found
    | none => exact unknown scalar found

theorem Jumps.branch (jumps : Jumps e jump) (t f : Option Symbol) (s : Lowering) :
    Writes s (Lower.nested (NodeLowering.branchWith e.tag jump t f)) fun _ d =>
      Lowers s.output true (.branch e t f) s.draft d :=
  Writes.nested fun depth => Writes.branchWith
    (fun _ scalar known => Writes.testValue fun labelled => .branchKnown rfl scalar labelled known)
    fun scalar unknown => (jumps t f { s with depth } unknown).imp fun _ _ run =>
      .branch scalar unknown run

theorem Writes.effectWith {tag : NodeTag} {special : Lower Unit}
    (known : ∀ v, s.done.lookup tag.number = some v → Q () s.draft)
    (unknown : s.done.lookup tag.number = none → Writes s special Q) :
    Writes s (effectWith tag special) Q := by
  refine Writes.step (a := s.done.lookup tag.number) (d := s.draft) rfl ?_
  cases found : s.done.lookup tag.number with
  | some v => exact Writes.pure (known v found)
  | none => exact unknown found

theorem Expr.follows_ofJump (lower : e.lower = ofJump e.tag inner jump)
    (plain : e.effectByValue = true) (computes : Computes e inner) (jumps : Jumps e jump) :
    e.Follows where
  value s := by
    rw [Expr.value, lower]
    exact computes.once s
  effect s := by
    rw [Expr.effect, lower]
    exact Writes.bind (computes.once s) fun _ _ run => Writes.pure (.effectValue plain run)
  branch t f s := by
    rw [Expr.branch, lower]
    exact jumps.branch t f s

theorem Computes.jumps (computes : Computes e inner) (plain : e.truthByValue = true) :
    Jumps e fun t f => Lower.once e.number inner >>= fun v => Lower.testValue e.ty v t f :=
  fun _ _ s _ => Writes.bind (computes.once s) fun _ _ run =>
    Writes.testValue fun labelled => .jumpValue plain labelled run

theorem Expr.follows_ofValue (lower : e.lower = ofValue e.tag inner)
    (plain : e.effectByValue = true) (direct : e.truthByValue = true) (computes : Computes e inner) :
    e.Follows :=
  Expr.follows_ofJump lower plain computes (computes.jumps direct)

namespace Expr

variable {tag : NodeTag} {c a b : Expr}

theorem writes_jumpTo {task : Task} (target : Option Symbol)
    (jump : Lowers s.output true task s.draft (s.draft.jumpTo target)) :
    Writes s (match target with
      | some target => Lower.code (.jump target)
      | none => pure ()) fun _ => Lowers s.output true task s.draft := by
  cases target with
  | some target => exact Writes.of_run (Lower.code_run _ _) jump
  | none => exact Writes.pure jump

theorem follows_const (tag : NodeTag) (sym : Symbol) : (Expr.const tag sym).Follows := by
  refine follows_ofJump rfl rfl ?_ ?_
  · exact fun s _ => Writes.of_run (Lower.emit_run _ s) .const
  · intro t f s _
    refine Writes.step (a := s) (d := s.draft) rfl ?_
    exact writes_jumpTo (if s.symbols.isTrue sym then t else f) .jumpConst

theorem follows_addr (tag : NodeTag) (sym : Symbol) : (Expr.addr tag sym).Follows :=
  follows_ofValue rfl rfl rfl fun s _ => Writes.of_run (Lower.emit_run _ s) .addr

theorem Follows.deref (address : a.Follows) (tag : NodeTag) : (Expr.deref tag a).Follows :=
  follows_ofValue rfl rfl rfl fun s _ => Writes.bind (address.value s) fun _ _ run =>
    Writes.of_run (Lower.emit_run _ _) (.deref run)

theorem Follows.unary {x : Expr} (operand : x.Follows) (tag : NodeTag) (op : UnaryOp) :
    (Expr.unary tag op x).Follows := by
  have arith {o : Op} (known : op.arith? = some o) :
      Computes (.unary tag op x) (x.value >>= fun v =>
        Lower.emit { op := o, ty := tag.ty, left := some v }) := fun s _ =>
    Writes.bind (operand.value s) fun _ _ run =>
      Writes.of_run (Lower.emit_run _ _) (.unary known run)
  cases op with
  | neg => exact follows_ofValue rfl rfl rfl (arith rfl)
  | compl => exact follows_ofValue rfl rfl rfl (arith rfl)
  | not =>
    refine follows_ofJump rfl rfl (fun s _ => ?_) fun t f s _ => ?_
    · exact Writes.bind (operand.value s) fun _ _ run =>
        Writes.step (Lower.zero_run _ _) (Writes.of_run (Lower.emit_run _ _) (.not run))
    · exact (operand.branch f t s).imp fun _ _ run => .jumpNot run

theorem computes_truth {op : BinaryOp} (logical : op.isLogical = true)
    (jumps : Jumps (.binary tag op a b) jump) :
    Computes (.binary tag op a b) (truthValue (branchWith tag jump)) := by
  intro s unknown
  refine Writes.step (Lower.freshTemp_run _ _) ?_
  refine Writes.step (Lower.freshLabel_run _) (Writes.step (Lower.freshLabel_run _) ?_)
  refine Writes.bind (R := fun _ d => Lowers s.output true (.jump (.binary tag op a b) none
    (some (s.draft.temp .int).fresh)) (s.draft.temp .int).label.label d) ?_ fun _ d run => ?_
  · refine Writes.branchWith (fun v _ known => ?_) fun _ unknown => jumps _ _ _ unknown
    exact absurd (unknown.symm.trans known) (by simp)
  refine Writes.step (Lower.onSymbols_run _ _) (Writes.step (Lower.emit_run _ _) ?_)
  refine Writes.step (Lower.storeTo_run _ _ _ _) (Writes.step (Lower.code_run _ _) ?_)
  refine Writes.step (Lower.place_run _ _) (Writes.step (Lower.zero_run _ _) ?_)
  refine Writes.step (Lower.storeTo_run _ _ _ _) (Writes.step (Lower.place_run _ _) ?_)
  exact Writes.of_run (Lower.loadFrom_run _ _ _) (.truth logical rfl run rfl rfl)

theorem follows_logical {op : BinaryOp} {l r : Expr} {special : Lower Unit}
    (logical : op.isLogical = true)
    (lower : (Expr.binary tag op l r).lower = NodeLowering.logical tag jump special)
    (jumps : Jumps (.binary tag op l r) jump)
    (effect : ∀ s, s.done.lookup tag.number = none → Writes s special fun _ d => Lowers s.output
      true (.effect (.binary tag op l r)) s.draft d) : (Expr.binary tag op l r).Follows where
  value s := by
    rw [Expr.value, lower]
    exact (computes_truth logical jumps).once s
  effect s := by
    rw [Expr.effect, lower]
    exact Writes.effectWith (fun v known => .effectKnown rfl known) fun unknown => effect s unknown
  branch t f s := by
    rw [Expr.branch, lower]
    exact jumps.branch t f s

section Binary

variable {l r : Expr} (left : l.Follows) (right : r.Follows) (tag : NodeTag) {op : BinaryOp}
include left right

theorem follows_arith {o : Op} (known : op.arith? = some o)
    (lower : (Expr.binary tag op l r).lower =
      NodeLowering.arith tag o ⟨l.ty, l.lower⟩ ⟨r.ty, r.lower⟩)
    (plain : op.isLogical = false) : (Expr.binary tag op l r).Follows := by
  refine follows_ofValue lower (by simp [effectByValue, plain]) (by simp [truthByValue, known])
    fun s _ => ?_
  exact Writes.bind (left.value s) fun _ _ first => Writes.bind (right.value _) fun _ _ second =>
    Writes.of_run (Lower.emit_run _ _) (.binary known first second)

theorem follows_relation {cond : Cond} (known : op.cond? = some cond)
    (lower : (Expr.binary tag op l r).lower =
      NodeLowering.relation tag cond ⟨l.ty, l.lower⟩ ⟨r.ty, r.lower⟩)
    (plain : op.isLogical = false) : (Expr.binary tag op l r).Follows := by
  refine follows_ofJump lower (by simp [effectByValue, plain]) (fun s _ => ?_) fun t f s _ => ?_
  · exact Writes.bind (left.value s) fun _ _ first => Writes.bind (right.value _) fun _ _ second =>
      Writes.of_run (Lower.emit_run _ _) (.relation known first second)
  · exact Writes.bind (left.value s) fun _ _ first => Writes.bind (right.value _) fun _ _ second =>
      Writes.compare fun labelled => .jumpRelation known labelled first second

theorem follows_logAnd : (Expr.binary tag .logAnd l r).Follows := by
  refine follows_logical rfl rfl (fun t f s _ => ?_) fun s unknown => ?_
  · cases f with
    | some f =>
      exact Writes.bind (left.branch none (some f) s) fun _ _ first =>
        (right.branch t (some f) _).imp fun _ _ second => .jumpAnd first second
    | none =>
      exact Writes.step (Lower.freshLabel_run s) <|
        Writes.bind (left.branch _ _ _) fun _ _ first =>
        Writes.bind (right.branch _ _ _) fun _ _ second =>
          Writes.of_run (Lower.place_run _ _) (.jumpAndOpen first second)
  · exact Writes.step (Lower.freshLabel_run s) <|
      Writes.bind (left.branch _ _ _) fun _ _ first =>
      Writes.bind (right.effect _) fun _ _ second =>
        Writes.of_run (Lower.place_run _ _) (.effectAnd unknown first second)

theorem follows_logOr : (Expr.binary tag .logOr l r).Follows := by
  refine follows_logical rfl rfl (fun t f s _ => ?_) fun s unknown => ?_
  · cases t with
    | some t =>
      exact Writes.bind (left.branch (some t) none s) fun _ _ first =>
        (right.branch (some t) f _).imp fun _ _ second => .jumpOr first second
    | none =>
      exact Writes.step (Lower.freshLabel_run s) <|
        Writes.bind (left.branch _ _ _) fun _ _ first =>
        Writes.bind (right.branch _ _ _) fun _ _ second =>
          Writes.of_run (Lower.place_run _ _) (.jumpOrOpen first second)
  · exact Writes.step (Lower.freshLabel_run s) <|
      Writes.bind (left.branch _ _ _) fun _ _ first =>
      Writes.bind (right.effect _) fun _ _ second =>
        Writes.of_run (Lower.place_run _ _) (.effectOr unknown first second)

theorem follows_binary : (op : BinaryOp) → (Expr.binary tag op l r).Follows
  | .add | .sub | .mul | .div | .mod | .and | .or | .xor | .shl | .shr =>
    follows_arith left right tag rfl rfl rfl
  | .eq | .ne | .lt | .le | .gt | .ge => follows_relation left right tag rfl rfl rfl
  | .logAnd => follows_logAnd left right tag
  | .logOr => follows_logOr left right tag

theorem follows_assign : (Expr.assign tag l r).Follows := by
  refine follows_ofValue rfl rfl rfl fun s _ => ?_
  refine Writes.bind (left.value s) fun _ _ first => Writes.bind (right.value _) fun _ _ second =>
    ?_
  refine Writes.step (Lower.emit_run _ _) ?_
  split
  · rename_i narrow
    exact Writes.of_run (Lower.emit_run _ _) (.assignNarrow narrow first second rfl)
  · rename_i wide
    exact Writes.pure (.assign (Bool.eq_false_iff.mpr wide) first second)

theorem follows_comma : (Expr.comma tag l r).Follows where
  value := Computes.once fun s _ => Writes.bind (left.effect s) fun _ _ first =>
    (right.value _).imp fun _ _ second => .comma first second
  effect s := Writes.bind (left.effect s) fun _ _ first =>
    (right.effect _).imp fun _ _ second => .effectComma first second
  branch := Jumps.branch fun t f s _ => Writes.bind (left.effect s) fun _ _ first =>
    (right.branch t f _).imp fun _ _ second => .jumpComma first second

end Binary

theorem Follows.choose (test : c.Follows) (arm : a.Follows) (other : b.Follows) (s : Lowering) :
    Writes s (NodeLowering.choose ⟨c.ty, c.lower⟩ ⟨a.ty, a.lower⟩ ⟨b.ty, b.lower⟩) fun _ d =>
      Lowers s.output true (.choose c a b) s.draft d := by
  refine Writes.step (Lower.freshLabel_run s) (Writes.step (Lower.freshLabel_run _) ?_)
  refine Writes.bind (test.branch _ _ _) fun _ _ branch => Writes.bind
    (arm.effect _) fun _ _ first => ?_
  refine Writes.step (Lower.code_run _ _) (Writes.step (Lower.place_run _ _) ?_)
  exact Writes.bind (other.effect _) fun _ _ second =>
    Writes.of_run (Lower.place_run _ _) (.choose branch first second)

theorem Follows.chooseValue (test : c.Follows) (arm : a.Follows) (other : b.Follows)
    (valued : tag.ty ≠ .void) :
    Computes (.cond tag c a b)
      (NodeLowering.chooseValue tag.ty ⟨c.ty, c.lower⟩ ⟨a.ty, a.lower⟩ ⟨b.ty, b.lower⟩) := by
  intro s _
  refine Writes.step (Lower.freshTemp_run _ s) ?_
  refine Writes.step (Lower.freshLabel_run _) (Writes.step (Lower.freshLabel_run _) ?_)
  refine Writes.bind (test.branch _ _ _) fun _ _ branch => Writes.bind
    (arm.value _) fun _ _ first => ?_
  refine Writes.step (Lower.storeTo_run _ _ _ _) ?_
  refine Writes.step (Lower.code_run _ _) (Writes.step (Lower.place_run _ _) ?_)
  refine Writes.bind (other.value _) fun _ _ second => ?_
  refine Writes.step (Lower.storeTo_run _ _ _ _) (Writes.step (Lower.place_run _ _) ?_)
  exact Writes.of_run (Lower.loadFrom_run _ _ _) (.cond valued rfl branch first rfl second rfl)

theorem Follows.cond (test : c.Follows) (arm : a.Follows) (other : b.Follows) (tag : NodeTag) :
    (Expr.cond tag c a b).Follows := by
  have computes : Computes (.cond tag c a b)
      (if tag.ty = .void then (NodeLowering.choose ⟨c.ty, c.lower⟩ ⟨a.ty, a.lower⟩ ⟨b.ty, b.lower⟩ >>=
          fun _ => Lower.zero .int)
        else NodeLowering.chooseValue tag.ty ⟨c.ty, c.lower⟩ ⟨a.ty, a.lower⟩ ⟨b.ty, b.lower⟩) := by
    intro s unknown
    split
    · rename_i void
      exact Writes.bind (test.choose arm other s) fun _ _ run =>
        Writes.of_run (Lower.zero_run _ _) (.condVoid void run)
    · rename_i valued
      exact test.chooseValue arm other valued s unknown
  refine ⟨computes.once, fun s => ?_, (computes.jumps rfl).branch⟩
  exact Writes.effectWith (fun v known => .effectKnown rfl known) fun unknown =>
    (test.choose arm other s).imp fun _ _ run => .effectCond unknown run

theorem Follows.cast {x : Expr} (operand : x.Follows) (tag : NodeTag) :
    (Expr.cast tag x).Follows := by
  refine follows_ofValue rfl rfl rfl fun s _ => Writes.bind (operand.value s) fun _ _ run => ?_
  dsimp only
  split
  · rename_i same
    exact Writes.pure (.castKeep same run)
  · rename_i differs
    exact Writes.of_run (Lower.emit_run _ _) (.cast differs run)

theorem Writes.countBytes {β : Type} {bytes size : Nat} {f : Nat → Lower β} {Q : β → Draft → Prop}
    (rest : Writes s (f (bytes + roundToSlot size)) Q) :
    Writes s (NodeLowering.countBytes bytes size >>= f) Q := by
  rw [countBytes_bind]
  split
  · exact rest
  · exact fun _ _ thrown => absurd thrown throw_ne_ok

theorem pushArgs_follows : (es : List Expr) → (∀ e ∈ es, e.Follows) → ∀ before s,
    Writes s (NodeLowering.pushArgs before (Expr.parts es)) fun bytes d =>
      ∃ own, bytes = before + own ∧ Lowers s.output true (.args es own) s.draft d
  | [], _, _, _ => Writes.pure ⟨0, rfl, .argsNil⟩
  | e :: es, follow, before, s => by
    refine Writes.bind ((follow e (by simp)).value s) fun _ _ head => ?_
    refine Writes.step (Lower.code_run _ _) (Writes.countBytes ?_)
    refine (pushArgs_follows es (fun e h => follow e (by simp [h])) _ _).imp fun bytes d rest => ?_
    obtain ⟨own, rfl, rest⟩ := rest
    exact ⟨_, Nat.add_assoc .., .argsCons head rest⟩

theorem parts_eq_map : (es : List Expr) → Expr.parts es = es.map fun e => ⟨e.ty, e.lower⟩
  | [] => rfl
  | e :: es => by rw [Expr.parts, parts_eq_map es, List.map_cons]

theorem parts_reverse (es : List Expr) : (Expr.parts es).reverse = Expr.parts es.reverse := by
  rw [parts_eq_map, parts_eq_map, List.map_reverse]

theorem Follows.call {callee : Expr} {args : List Expr} (target : callee.Follows)
    (arguments : ∀ e ∈ args, e.Follows) (tag : NodeTag) : (Expr.call tag callee args).Follows := by
  have pushed (s : Lowering) : Writes s (pushArgs 0 (Expr.parts args.reverse)) fun bytes d =>
      Lowers s.output true (.args args.reverse bytes) s.draft d := by
    refine (pushArgs_follows args.reverse
      (fun e inside => arguments e (List.mem_reverse.mp inside)) 0 s).imp fun bytes d run => ?_
    obtain ⟨own, rfl, run⟩ := run
    rwa [Nat.zero_add]
  refine follows_ofValue rfl rfl rfl fun s _ => ?_
  rw [parts_reverse]
  split
  · rename_i struct
    refine Writes.step (Lower.freshTemp_run _ s) (Writes.bind (pushed _) fun _ _ args => ?_)
    refine Writes.step (Lower.emitAddr_run _ _) (Writes.step (Lower.code_run _ _) ?_)
    refine Writes.countBytes (Writes.bind (target.value _) fun _ _ run => ?_)
    refine Writes.step (Lower.emit_run _ _) ?_
    exact Writes.of_run (Lower.loadFrom_run _ _ _) (.callStruct struct rfl args run rfl)
  · rename_i scalar
    exact Writes.bind (pushed s) fun _ _ args => Writes.bind (target.value _) fun _ _ run =>
      Writes.of_run (Lower.emit_run _ _) (.call (Bool.eq_false_iff.mpr scalar) args run)

mutual

theorem follows : (e : Expr) → e.Follows
  | .const tag sym => follows_const tag sym
  | .addr tag sym => follows_addr tag sym
  | .deref tag a => (follows a).deref tag
  | .unary tag op x => (follows x).unary tag op
  | .binary tag op l r => follows_binary (follows l) (follows r) tag op
  | .assign tag a v => follows_assign (follows a) (follows v) tag
  | .cond tag c a b => (follows c).cond (follows a) (follows b) tag
  | .call tag callee args => (follows callee).call (follow_all args) tag
  | .cast tag x => (follows x).cast tag
  | .comma tag a b => follows_comma (follows a) (follows b) tag

theorem follow_all : (es : List Expr) → ∀ e ∈ es, e.Follows
  | [], _, inside => absurd inside List.not_mem_nil
  | e :: es, x, inside =>
    (List.mem_cons.mp inside).elim (fun same => same ▸ follows e) (follow_all es x)

end

end Expr

theorem Lower.init_follows (s : Lowering) (sym : Symbol) (init : Option Expr) (zeroFill : Bool)
    (rest : List Decl) :
    Writes
      (s.withDraft (if zeroFill then (s.draft.code (.declare sym)).clear sym
        else s.draft.code (.declare sym)))
      (match init with
        | some e => e.value >>= fun v => Lower.storeTo sym (s.symbols.ty sym) v
        | none => pure ())
      fun _ d₁ => ∀ d', Lowers s.output true (.decls rest) d₁ d' →
        Lowers s.output true (.decls (⟨sym, init, zeroFill⟩ :: rest)) s.draft d' := by
  cases init with
  | none => exact Writes.pure fun d' run => .declsPlain rfl run
  | some e =>
    exact Writes.bind (e.follows.value _) fun v d value =>
      Writes.of_run (Lower.storeTo_run _ _ _ _) fun d' run => .declsInit rfl value run

theorem Lower.declareAll_follows (ds : List Decl) (s : Lowering) :
    Writes s (Lower.declareAll ds) fun _ d => Lowers s.output true (.decls ds) s.draft d := by
  induction ds generalizing s with
  | nil => exact Writes.pure .declsNil
  | cons head rest ih =>
    obtain ⟨sym, init, zeroFill⟩ := head
    refine Writes.bind (R := fun _ d => ∀ d', Lowers s.output true (.decls rest) d d' →
      Lowers s.output true (.decls (⟨sym, init, zeroFill⟩ :: rest)) s.draft d') ?_ fun _ _ whole =>
        (ih _).imp fun _ d run => whole d run
    refine Writes.step (Lower.code_run _ s) (Writes.step (a := s.withDraft _) (d := _) rfl ?_)
    cases zeroFill with
    | false => exact Lower.init_follows s sym init false rest
    | true =>
      exact Writes.step (Lower.emitAddr_run _ _) <| Writes.step (Lower.code_run _ _) <|
        Lower.init_follows s sym init true rest

theorem Lower.ret_follows (value : Option Expr) (s : Lowering) :
    Writes s (Lower.ret value) fun _ d =>
      Lowers s.output true (.stmt s.loops s.level (.ret value)) s.draft d := by
  cases value with
  | none => exact Writes.of_run (Lower.code_run _ _) .retNone
  | some e =>
    refine Writes.step (a := s) (d := s.draft) rfl ?_
    have direct (plain : s.output = none ∨ e.ty.isStruct = false) :
        Writes s (e.value >>= fun v => Lower.code (.ret (some v))) fun _ d =>
          Lowers s.output true (.stmt s.loops s.level (.ret (some e))) s.draft d :=
      Writes.bind (e.follows.value s) fun v d run => Writes.of_run (Lower.code_run _ _)
        (.ret plain run)
    split
    · rename_i out hidden struct
      refine Writes.bind (e.follows.value s) fun v d run => ?_
      refine Writes.step (Lower.loadFrom_run _ _ _) (Writes.step (Lower.emit_run _ _) ?_)
      exact Writes.of_run (Lower.code_run _ _) (.retStruct hidden struct run rfl)
    · rename_i other
      refine direct ?_
      cases hidden : s.output with
      | none => exact .inl rfl
      | some out => exact .inr (Bool.eq_false_iff.mpr fun struct => other out hidden struct)

theorem Writes.inLoop {labels : LoopLabels} {body : Lower Unit}
    (writes : Writes { s with loops := labels :: s.loops } body Q) :
    Writes s (Lower.inLoop labels body) Q := by
  intro u s' ok
  obtain ⟨_, s₀, entered, ran⟩ := bind_eq_ok.mp ok
  rw [modify_eq_ok] at entered
  subst entered
  obtain ⟨_, s₁, inner, left⟩ := tryFinally_eq_ok.mp ran
  obtain ⟨d, rfl, related⟩ := writes inner
  rw [modify_eq_ok] at left
  exact ⟨d, left.symm, related⟩

theorem Writes.leaveLoop {pick : LoopLabels → Symbol} {outside : Unsupported}
    (inside : ∀ l ls, s.loops = l :: ls → Q () (s.draft.code (.jump (pick l)))) :
    Writes s (Lower.leaveLoop pick outside) Q := by
  refine Writes.step (a := s) (d := s.draft) rfl ?_
  cases loops : s.loops with
  | nil => exact fun _ _ ok => absurd ok throw_ne_ok
  | cons l ls => exact Writes.of_run (Lower.code_run _ _) (inside l ls loops)

def Stmt.Follows (t : Stmt) : Prop :=
  ∀ s, Writes s t.lower fun _ d => Lowers s.output true (.stmt s.loops s.level t) s.draft d

namespace Stmt

theorem Follows.while {body : Stmt} (inner : body.Follows) (c : Expr) :
    (Stmt.while c body).Follows := by
  intro s
  refine Writes.step (Lower.freshLabel_run s) (Writes.step (Lower.freshLabel_run _) ?_)
  refine Writes.step (Lower.freshLabel_run _) (Writes.step (Lower.code_run _ _) ?_)
  refine Writes.step (Lower.place_run _ _) (Writes.bind (Writes.inLoop (inner _)) fun _ _ run => ?_)
  refine Writes.step (Lower.place_run _ _) (Writes.bind (c.follows.branch _ _ _) fun _ _ test => ?_)
  exact Writes.of_run (Lower.place_run _ _) (.while rfl run test)

theorem follows_block (decls : List Decl) {body : List Stmt}
    (inner : ∀ s, Writes s (Stmt.lowerAll body) fun _ d =>
      Lowers s.output true
        (.stmts s.loops s.level body) s.draft d) : (Stmt.block decls body).Follows := by
  intro s u s' ok
  obtain ⟨_, s₁, opened, ok⟩ := bind_eq_ok.mp ok
  rw [modify_eq_ok] at opened
  subst opened
  obtain ⟨_, _, got, ok⟩ := bind_eq_ok.mp ok
  obtain ⟨rfl, rfl⟩ := get_eq_ok.mp got
  rw [bind_run (Lower.code_run _ _)] at ok
  obtain ⟨_, _, declared, ok⟩ := bind_eq_ok.mp ok
  obtain ⟨d₁, rfl, heads⟩ := Lower.declareAll_follows _ _ declared
  obtain ⟨_, _, ran, ok⟩ := bind_eq_ok.mp ok
  obtain ⟨d₂, rfl, run⟩ := inner _ ran
  rw [bind_run (Lower.code_run _ _), modify_eq_ok] at ok
  exact ⟨_, ok.symm, .block heads run⟩

mutual

theorem follows : (t : Stmt) → t.Follows
  | .expr e => fun s => (e.follows.effect s).imp fun _ _ run => .expr run
  | .when c body => fun s =>
    Writes.step (Lower.freshLabel_run s) <| Writes.bind (c.follows.branch _ _ _) fun _ _ test =>
    Writes.bind (follows body _) fun _ _ run => Writes.of_run (Lower.place_run _ _) (.when test run)
  | .ifElse c a b => fun s =>
    Writes.step (Lower.freshLabel_run s) <| Writes.step (Lower.freshLabel_run _) <|
    Writes.bind (c.follows.branch _ _ _) fun _ _ test => Writes.bind (follows a _) fun _ _ arm =>
    Writes.step (Lower.code_run _ _) <| Writes.step (Lower.place_run _ _) <|
    Writes.bind (follows b _) fun _ _ other =>
      Writes.of_run (Lower.place_run _ _) (.ifElse test arm other)
  | .while c body => (follows body).while c
  | .block decls body => follows_block decls (follow_all body)
  | .ret value => Lower.ret_follows value
  | .break => fun _ => Writes.leaveLoop fun _ _ inside => inside ▸ .break
  | .continue => fun _ => Writes.leaveLoop fun _ _ inside => inside ▸ .continue

theorem follow_all : (ts : List Stmt) → ∀ s, Writes s (Stmt.lowerAll ts) fun _ d =>
    Lowers s.output true (.stmts s.loops s.level ts) s.draft d
  | [], _ => Writes.pure .stmtsNil
  | t :: ts, s => Writes.bind (follows t s) fun _ _ head =>
    (follow_all ts _).imp fun _ _ rest => .stmtsCons head rest

end

end Stmt

/-- The draft at the start of a body: the exit label is the first symbol of the pass. -/
def Draft.opening (t : SymbolTable) : Draft :=
  ({ symbols := t.nextPass.2 } : Draft).label.code .frameEnter

theorem FunctionDef.lower_follows {d : FunctionDef} {t t' : SymbolTable} {f : LinearFunction}
    (ok : d.lower t = .ok f t') :
    ∃ body : Draft, Lowers d.output true (.stmt [] 0 d.body) (Draft.opening t) body ∧
      f = ⟨d.name, d.ret, d.output.toList ++ d.params,
        (body.codes ++ [Code.label ⟨t.size⟩] ++ [Code.frameExit]).toArray, body.nodes.toArray,
        ⟨t.size⟩⟩ ∧
      t' = body.symbols := by
  have lowered : ∃ exit s, d.lowerBody (Lowering.start t) = .ok exit s ∧
      f = ⟨d.name, d.ret, d.output.toList ++ d.params, s.codes, s.nodes, exit⟩ ∧ t' = s.symbols := by
    unfold FunctionDef.lower at ok
    split at ok
    · obtain ⟨rfl, rfl⟩ := EStateM.Result.ok.inj ok
      exact ⟨_, _, ‹_›, rfl, rfl⟩
    · cases ok
  obtain ⟨exit, s, ran, rfl, rfl⟩ := lowered
  rw [FunctionDef.lowerBody, bind_run (Lower.freshLabel_run _)] at ran
  obtain ⟨_, s₁, named, ran⟩ := bind_eq_ok.mp ran
  rw [modify_eq_ok] at named
  subst named
  rw [bind_run (Lower.code_run _ _)] at ran
  obtain ⟨_, _, inner, ran⟩ := bind_eq_ok.mp ran
  obtain ⟨body, rfl, run⟩ := d.body.follows _ inner
  rw [bind_run (Lower.place_run _ _), bind_run (Lower.code_run _ _)] at ran
  obtain ⟨rfl, rfl⟩ := pure_eq_ok.mp ran
  exact ⟨body, run, rfl, rfl⟩

end CBackend
