import CBackend.Proofs.Selection.Thrift

/-!
What limits the size of an expression. A register is pinned once for each operand that waits at an
address in it, and the count of its pins is limited. Registers themselves run out only where operands
wait in memory at addresses that are in registers, which are not moved.
-/

namespace CBackend

open Gen Generator

namespace LinearFunction

theorem compile_excused (f : LinearFunction) {g : Generator} (used : g.Used) {narrow : Prop}
    (shallow : narrow → f.Shallow (mostPins - 2)) :
    Ends f.compile g (fun _ _ => True) fun e g' => g'.Excuses narrow e := by
  refine compile_of_selected used (fun _ _ refused => ?_) (fun _ => excuses_of rfl) ?_
  · exact excuses_of (CompileError.exceeds_of_malformed refused)
  intro graph g' prepared positions copies
  have start : g'.Accounted .none ∧ g'.Tidy g'.pool.keys g'.numbers := by
    refine ⟨accounted_none_iff.mpr (prepared.atRest g'.regs.pinLimit), ?_⟩
    refine ⟨prepared.limit, fun r allocatable state => ?_, List.prefix_rfl, rfl, ?_,
      fun id op place => ?_⟩
    · exact (prepared.regs.reserved r).mp state allocatable
    · rw [prepared.held]
      exact List.forall_mem_nil _
    · rw [prepared.pool.loc] at place
      cases place
  have waits {pos : Nat} (inside : pos < f.codes.size) (given : narrow) :
      ∀ l ∈ (f.codes.getD pos default).operand?, ∀ id,
        g'.numbers[l.index]? = some (some id) → ValueKey.Waits g'.pool.keys id (mostPins - 2) := by
    intro l operand id number
    refine (copies l id number).waits ?_
    rw [Array.getD_eq_getD_getElem?, Array.getElem?_eq_getElem inside] at operand
    exact shallow given _ (Array.getElem_mem inside) l operand
  have bound (sym : Symbol) : Gen.Sparing narrow g'.numbers g'.pool.keys 0 .none .none (bindParam sym)
      fun _ => True := sparing_bindParam sym
  have params := Keeps.forM fun sym (_ : sym ∈ f.params) => (bound sym).keeps fun _ => Nat.zero_le _
  refine (params.ends g' start).bind fun _ g₁ ⟨start, _⟩ => ?_
  have inside {step : Bool × Nat} (there : step ∈ graph.steps) : step.2 < f.codes.size := by
    rw [← List.mem_range, ← positions, ← FlowGraph.positions_eq_steps]
    exact List.mem_map_of_mem there
  have steps := Keeps.forM fun step (there : step ∈ graph.steps) =>
    (sparing_stepCode f step.1 step.2 (waits (inside there))).keeps fun _ => Nat.le_refl mostPins
  refine (steps.ends g₁ start).bind fun _ _ _ => ?_
  trivial

end LinearFunction

namespace FunctionDef

theorem compile_excused (d : FunctionDef) {g : Generator} (used : g.Used) {f : LinearFunction}
    {t : SymbolTable} (accepted : d.lower g.symbols = .ok f t) {narrow : Prop}
    (shallow : narrow → f.Shallow (mostPins - 2)) {e : CompileError} {g' : Generator}
    (failed : d.compile g = .error e g') : g'.Excuses narrow e := by
  have lowers : onTable d.lower g = .ok f { g with symbols := t } := by
    rw [onTable, accepted]
  exact (f.compile_excused (used.named t) shallow).error ((bind_run lowers).symm.trans failed)

/-- If no more than 253 operands of the code of a function wait for others at once, no register is
pinned more often than can be counted while it is compiled. -/
theorem pins_within_limit (d : FunctionDef) {g : Generator} (used : g.Used) {f : LinearFunction}
    {t : SymbolTable} (accepted : d.lower g.symbols = .ok f t) (shallow : f.Shallow (mostPins - 2))
    (r : Reg) (g' : Generator) :
    d.compile g ≠ .error (.invariant (.register (.pinOverflow r))) g' := fun failed =>
  (d.compile_excused used accepted (fun _ => shallow) failed).pins trivial r rfl

/-- Adds up a parameter and so many terms, from left to right. -/
def adding (term : Nat → Expr) (count : Nat) (params : List Symbol) : FunctionDef where
  name := ⟨0⟩
  ret := .int
  params
  output := none
  body := .ret (some (total count))
where
  total : Nat → Expr
    | 0 => .deref ⟨1, .int⟩ (.addr ⟨0, .pointer⟩ ⟨1⟩)
    | n + 1 => .binary ⟨4 * n + 2, .int⟩ .add (total n) (term n)

def sums (count : Nat) : FunctionDef :=
  adding (fun n => .deref ⟨4 * n + 4, .int⟩ (.addr ⟨4 * n + 3, .pointer⟩ ⟨1⟩)) count [⟨1⟩]

/-- Adds up what six more parameters point to. -/
def gathers : FunctionDef :=
  let term (n : Nat) : Expr := .deref ⟨4 * n + 5, .int⟩
    (.deref ⟨4 * n + 4, .pointer⟩ (.addr ⟨4 * n + 3, .pointer⟩ ⟨n + 2⟩))
  adding term 6 (List.ofFn fun k : Fin 7 => ⟨k.val + 1⟩)

def summands : SymbolTable where
  entries := #[⟨"f", .function, .int, none⟩, ⟨"a", .param, .int, none⟩] ++
    Array.ofFn fun k : Fin 6 => ⟨s!"p{k.val}", .param, .pointer, none⟩

theorem sums_within_limit : ∃ f t,
    (sums 8).lower (Generator.init {} summands).symbols = .ok f t ∧ f.Shallow (mostPins - 2) ∧
    ∀ r g', (sums 8).compile (.init {} summands) ≠ .error (.invariant (.register (.pinOverflow r))) g' := by
  have lowers : ((sums 8).lower.run' summands).map (fun f => f.codes.all fun code =>
      code.operand?.all (f.waitsWithin 10 · (mostPins - 2))) = some true := by decide +kernel
  obtain ⟨f, ran, all⟩ := Option.map_eq_some_iff.mp lowers
  obtain ⟨t, accepted⟩ := exists_of_run' ran
  have shallow : f.Shallow (mostPins - 2) := by
    intro code inside l operand
    have checked := Array.all_eq_true_iff_forall_mem.mp all code inside
    rw [Option.mem_def.mp operand] at checked
    exact LinearFunction.waits_of_waitsWithin checked
  exact ⟨f, t, accepted, shallow, (sums 8).pins_within_limit (.init {} summands) accepted shallow⟩

/-- Compiling a function fails for want of a register only while an operand waits in memory, at an
address in a register that is handed out else. -/
theorem shortage_crowded (d : FunctionDef) {g : Generator} (used : g.Used) {f : LinearFunction}
    {t : SymbolTable} (accepted : d.lower g.symbols = .ok f t) {mask : RegMask} {g' : Generator}
    (failed : d.compile g = .error (.invariant (.register (.noneAvailable mask))) g') :
    g'.Crowded mask :=
  (d.compile_excused used accepted False.elim failed).registers mask rfl

theorem gathers_fails : ∃ f t g', gathers.lower (Generator.init {} summands).symbols = .ok f t ∧
    gathers.compile (.init {} summands) = .error (.invariant (.register (.noneAvailable .general))) g' := by
  have outcome : (gathers.lower.run' summands).isSome = true ∧ (match gathers.compile (.init {} summands) with
      | .error e _ => decide (e = .invariant (.register (.noneAvailable .general)))
      | .ok .. => false) = true := by decide +kernel
  obtain ⟨f, ran⟩ := Option.isSome_iff_exists.mp outcome.1
  obtain ⟨t, accepted⟩ := exists_of_run' ran
  cases run : gathers.compile (.init {} summands) with
  | ok => simp [run] at outcome
  | error e g' =>
    rw [run] at outcome
    cases of_decide_eq_true outcome.2
    exact ⟨f, t, g', accepted, rfl⟩

theorem gathers_crowded : ∃ f t g', gathers.lower (Generator.init {} summands).symbols = .ok f t ∧
    gathers.compile (.init {} summands) = .error (.invariant (.register (.noneAvailable .general))) g' ∧
    g'.Crowded .general := by
  obtain ⟨f, t, g', accepted, failed⟩ := gathers_fails
  exact ⟨f, t, g', accepted, failed, gathers.shortage_crowded (.init {} summands) accepted failed⟩

theorem expression_limited_by_registers : ¬∀ (d : FunctionDef) (g : Generator) f t mask g', g.Used →
    d.lower g.symbols = .ok f t →
    d.compile g ≠ .error (.invariant (.register (.noneAvailable mask))) g' := by
  intro always
  obtain ⟨f, t, g', accepted, failed⟩ := gathers_fails
  exact always gathers (.init {} summands) f t _ g' (.init {} summands) accepted failed

end FunctionDef

end CBackend
