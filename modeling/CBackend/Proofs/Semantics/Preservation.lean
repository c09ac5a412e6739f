import CBackend.Proofs.Lowering.Assembly
import CBackend.Proofs.Semantics.Statements

/-!
Lowering preserves meaning: a function that is lowered ends with a value and leaves a memory and a
trace of calls behind exactly if a run of its linear code comes to the end with the same.
-/

namespace CBackend

open LinearFunction

theorem Lowers.simulates {M : Type} {σ : Setting M} {t t' : SymbolTable} {f : LinearFunction}
    {output : Option Symbol} {task : Task} {d d' : Draft} (run : Lowers output false task d d')
    (unique : f.LabelsUnique) (exit_ : f.Placed f.exit) (base : t.Grows d.symbols)
    (inside : d'.Within t' f) : Simulates σ t t' f d d' task := by
  have refl := Draft.Grows.refl
  induction run with
  | declsNil => exact .declsNil
  | declsPlain declared rest ih =>
    subst declared
    exact .declsPlain base rfl (ih (base.trans ((refl _).declare _ _).symbols) inside)
      (inside.of_grows rest.grows)
  | @declsInit sym e v zeroFill ds d d₁ d₂ d₃ declared init rest ih₁ ih₂ =>
    subst declared
    have begins := (refl d).declare sym zeroFill
    have before := inside.of_grows rest.grows
    exact .declsInit base rfl
      (init.expresses unique (base.trans begins.symbols) (before.of_grows ((refl _).store _ _ _)))
      init.grows (ih₂ (base.trans ((begins.trans init.grows).store _ _ _).symbols) inside) before
  | expr run => exact .expr (run.expresses unique base inside)
  | @«when» loops level c body d d₁ d₂ test run ih₁ ih₂ =>
    have before := inside.of_grows ((refl _).place _)
    have begins := (refl d).label
    exact .when (test.expresses unique (base.trans begins.symbols) (before.of_grows run.grows))
      (ih₂ (base.trans (begins.trans test.grows).symbols) before) test.grows inside
  | @ifElse loops level c a b d d₁ d₂ d₃ test arm other ih₁ ih₂ ih₃ =>
    have last := inside.of_grows ((refl _).place _)
    have middle := last.of_grows (((refl _).code _).place _ |>.trans other.grows)
    have begins := (refl d).label.label
    have grows := (begins.trans test.grows).trans arm.grows
    exact .ifElse unique
      (test.expresses unique (base.trans begins.symbols) (middle.of_grows arm.grows))
      (ih₂ (base.trans (begins.trans test.grows).symbols) middle)
      (ih₃ (base.trans ((grows.code _).place _).symbols) last) test.grows arm.grows other.grows inside
  | @«while» loops level c body d d₁ d₂ d₃ labels run test ih₁ ih₂ =>
    subst labels
    have begins := ((refl d).label.label.label.code (.jump d.label.fresh)).place d.fresh
    have last := inside.of_grows ((refl _).place _)
    have before := last.of_grows ((refl _).place _ |>.trans test.grows)
    exact .while unique rfl (ih₁ (base.trans begins.symbols) before)
      (test.expresses unique (base.trans ((begins.trans run.grows).place _).symbols) last)
      run.grows test.grows inside
  | block heads run ih₁ ih₂ =>
    have before := inside.of_grows ((refl _).code _)
    exact .block (ih₁ base (before.of_grows run.grows))
      (ih₂ (base.trans heads.grows.symbols) before) heads.grows run.grows inside
  | retNone => exact .retNone unique exit_ inside
  | ret direct run =>
    exact .ret unique exit_ (run.expresses unique base (inside.of_grows ((refl _).code _)))
      run.grows inside
  | retStruct hidden struct =>
    intro typed
    simp only [Stmt.typed, Bool.and_eq_true] at typed
    have plain := CType.isPlain_of_isInteger typed.1
    exact absurd (struct.symm.trans (CType.isStruct_of_isPlain plain)) (by decide)
  | «break» => exact .break unique inside
  | «continue» => exact .continue unique inside
  | stmtsNil => exact .stmtsNil
  | stmtsCons head rest ih₁ ih₂ =>
    exact .stmtsCons (ih₁ base (inside.of_grows rest.grows))
      (ih₂ (base.trans head.grows.symbols) inside) head.grows
  | _ => trivial

theorem FunctionDef.lower_leads {M : Type} {σ : Setting M} {d : FunctionDef} {t t' : SymbolTable}
    {f : LinearFunction} (lowered : d.lower t = .ok f t') (unshared : d.Unshared)
    (typed : d.Typed t) {start : State (Activation M)} (first : start.pos = 0) (fuel : Nat) :
    f.Leads σ t' fuel start (d.body.exec σ t fuel start.world.world) fun r s =>
      f.Ended s ∧ s.world.world = r.2 ∧ s.world.result = r.1.answer start.world.result := by
  have fills : d.body.fills = true → true = true := fun _ => rfl
  obtain ⟨g, sound, codes, -⟩ := d.lower_sound lowered unshared fills
  obtain ⟨body, run, made, rfl⟩ := d.lower_follows lowered
  have unique : f.LabelsUnique := fun i j l left right =>
    sound.labelled.unique (by rw [codes]; simpa using left) (by rw [codes]; simpa using right)
  have exits : f.codes[body.codes.length]? = some (.label f.exit) := by simp [made]
  have inside : body.Within body.symbols f := ⟨by simp [made], by simp [made], .refl _⟩
  have base : t.Grows (Draft.opening t).symbols := by
    simp [SymbolTable.Grows, Draft.opening, Draft.code, Draft.label, SymbolTable.label,
      SymbolTable.push, SymbolTable.nextPass]
  have lowers := (run.unshared ⟨unshared, fun _ _ => rfl⟩).1
  have opened : (Draft.opening t).Within body.symbols f := inside.of_grows lowers.grows
  refine Leads.of_runs (runs_mark opened first rfl) ((lowers.simulates unique ⟨_, exits⟩ base inside
    typed fuel { start with pos := 1 } rfl (by simp)).then_runs ?_)
  rintro ⟨flow, w⟩ s leaves
  obtain ⟨p, leaves, arrives⟩ := leaves
  have same : p = body.codes.length := by
    cases flow with
    | normal => exact leaves
    | returned value => exact unique _ _ _ leaves exits
    | broke | continued =>
      obtain ⟨l, absent, -⟩ := leaves
      cases absent
  have last : f.step σ.workings body.symbols s = some s.next := by
    rw [step, arrives.pos, same, exits]
    rfl
  refine ⟨s.next, .single last, ?_, arrives.world, arrives.result⟩
  simp [Ended, State.next, arrives.pos, same, made]

/-- Lowering preserves meaning. In every setting, a function without shared nodes ends with a value
in a world exactly if a run of its linear code from the first code on comes to the code that leaves
the frame, in that world and with that value as its result. -/
theorem FunctionDef.lower_preserves_meaning {M : Type} (σ : Setting M) {d : FunctionDef}
    {t t' : SymbolTable} {f : LinearFunction} (lowered : d.lower t = .ok f t')
    (unshared : d.Unshared) (typed : d.Typed t) {start : State (Activation M)}
    (first : start.pos = 0) (empty : start.world.result = none) (value : Option Word)
    (world : World M) :
    d.Ends σ t start.world.world value world ↔
      ∃ s, f.Runs σ.workings t' start s ∧ f.Ended s ∧ s.world.world = world ∧
        s.world.result = value := by
  have follows := lower_leads (σ := σ) lowered unshared typed first
  have answer (flow : Flow) : flow.answer start.world.result = flow.value := by
    rw [empty]
    cases flow <;> rfl
  constructor
  · rintro ⟨fuel, flow, ended, rfl⟩
    have leads := follows fuel
    rw [ended] at leads
    obtain ⟨s, run, there, left, result⟩ := leads
    exact ⟨s, run, there, left, result.trans (answer flow)⟩
  · rintro ⟨s, run, there, rfl, rfl⟩
    obtain ⟨fuel, short⟩ := run.not_lasts (step_ended there)
    have leads := follows fuel
    match outcome : d.body.exec σ t fuel start.world.world with
    | .ok (flow, w) =>
      rw [outcome] at leads
      obtain ⟨s', run', there', rfl, result⟩ := leads
      obtain rfl := run.last_unique (step_ended there) run' (step_ended there')
      exact ⟨fuel, flow, outcome, (result.trans (answer flow)).symm⟩
    | .error .stuck =>
      rw [outcome] at leads
      obtain ⟨s', run', none', other⟩ := leads
      obtain rfl := run.last_unique (step_ended there) run' none'
      exact absurd there other
    | .error .timeout =>
      rw [outcome] at leads
      exact absurd leads short

/-- Adds up numbers from `n` down, the larger ones as they are and the others as a function maps
them. -/
def FunctionDef.sumDown : FunctionDef where
  name := ⟨0⟩
  ret := .int
  params := [⟨1⟩]
  output := none
  body :=
    let n (i : Nat) : Expr := .deref ⟨i, .int⟩ (.addr ⟨i + 1, .pointer⟩ ⟨1⟩)
    let s (i : Nat) : Expr := .deref ⟨i, .int⟩ (.addr ⟨i + 1, .pointer⟩ ⟨2⟩)
    .block [⟨⟨2⟩, some (.const ⟨0, .int⟩ ⟨3⟩), true⟩] [
      .while (.binary ⟨1, .int⟩ .logAnd (n 2) (.binary ⟨4, .int⟩ .lt (s 5) (.const ⟨7, .int⟩ ⟨4⟩)))
        (.block [] [
          .expr (.assign ⟨8, .int⟩ (.addr ⟨9, .pointer⟩ ⟨2⟩) (.binary ⟨10, .int⟩ .add (s 11)
            (.cond ⟨13, .int⟩ (.binary ⟨14, .int⟩ .gt (n 15) (.const ⟨17, .int⟩ ⟨5⟩)) (n 18)
              (.call ⟨20, .int⟩ (.addr ⟨21, .pointer⟩ ⟨7⟩) [n 22])))),
          .expr (.assign ⟨24, .int⟩ (.addr ⟨25, .pointer⟩ ⟨1⟩)
            (.binary ⟨26, .int⟩ .sub (n 27) (.const ⟨29, .int⟩ ⟨6⟩)))]),
      .ret (some (s 30))]

def SymbolTable.sumDown : SymbolTable where
  entries := #[⟨"f", .function, .int, none⟩, ⟨"n", .param, .int, none⟩, ⟨"s", .local, .int, none⟩,
    ⟨"0", .intConst 0, .int, none⟩, ⟨"100", .intConst 100, .int, none⟩,
    ⟨"2", .intConst 2, .int, none⟩, ⟨"1", .intConst 1, .int, none⟩, ⟨"g", .function, .int, none⟩]

/-- A memory that holds two variables, and a function that multiplies by ten. -/
def Setting.tenfold : Setting (Word × Word) where
  place sym := .ofNat 32 sym.index
  load _ a m := if a = 1 then some m.1 else if a = 2 then some m.2 else none
  store _ a x m := if a = 1 then some (x, m.2) else if a = 2 then some (m.1, x) else none
  clear a _ m := if a = 1 then some (0, m.2) else if a = 2 then some (m.1, 0) else none
  call c w := some (c.args.headD 0 * 10, w.memory)

def State.sumDown : State (Activation (Word × Word)) where
  pos := 0
  held := ⟨fun _ => .value .void, fun _ => .void⟩
  world := ⟨⟨(4, 0), []⟩, [], none⟩

theorem FunctionDef.sumDown_exec :
    (sumDown.body.exec .tenfold .sumDown 5 State.sumDown.world.world).map
      (fun r => (r.1.value, r.2.calls)) = .ok (some 37, [⟨7, [2]⟩, ⟨7, [1]⟩]) := by
  cbv

theorem FunctionDef.sumDown_accepted :
    (match sumDown.lower .sumDown with
      | .ok .. => true
      | .error .. => false) = true := by
  decide +kernel

/-- From four down: `4 + 3 + 20 + 10`, with two calls. -/
theorem FunctionDef.sumDown_runs : ∃ f t' s, sumDown.lower .sumDown = .ok f t' ∧
    sumDown.Unshared ∧ sumDown.Typed .sumDown ∧ f.Runs Setting.tenfold.workings t' .sumDown s ∧
    f.Ended s ∧ s.world.world.calls = [⟨7, [2]⟩, ⟨7, [1]⟩] ∧ s.world.result = some 37 := by
  have unshared : sumDown.Unshared := by decide
  have typed : sumDown.Typed .sumDown := by decide
  have run := sumDown_exec
  have accepted := sumDown_accepted
  generalize lowered : sumDown.lower .sumDown = result at accepted
  match result, accepted with
  | .ok f t', _ =>
    generalize ended : sumDown.body.exec .tenfold .sumDown 5 State.sumDown.world.world = outcome at run
    match outcome, run with
    | .ok (flow, w), run =>
      injection run with same
      injection same with value calls
      obtain ⟨s, path, there, left, result⟩ := (lower_preserves_meaning .tenfold lowered unshared
        typed (rfl : State.sumDown.pos = 0) rfl (some 37) w).mp ⟨5, flow, ended, value⟩
      exact ⟨f, t', s, rfl, unshared, typed, path, there, left ▸ calls, result⟩

end CBackend
