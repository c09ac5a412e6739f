import CBackend.Proofs.Conditions.Rules
import CBackend.Proofs.Lowering.Derivation
import CBackend.Proofs.Lowering.Unshared

/-!
The two lowerings of a condition agree. Lowered for its value a condition gives a number, lowered
for a branch it goes to one of two places, and it goes to the first exactly if the number is not
zero. This holds whatever the condition is made of and whichever labels there are, as long as no
branch asks for the order of operands without one: a branch without a true label tests the negated
condition, which fails as well.
-/

namespace CBackend.Conditions

open LinearFunction

/-- A function that begins with what a pass has written and places each label once. -/
structure Begins (s : Lowering) (t : SymbolTable) (f : LinearFunction) : Prop where
  inside : s.draft.Within t f
  once : (f.codes.toList.filterMap Code.label?).Nodup

theorem Begins.unique {s : Lowering} {t : SymbolTable} {f : LinearFunction}
    (begins : Begins s t f) : f.LabelsUnique := by
  intro i j l here there
  refine Ledger.index_unique (x := .label l) (y := .label l) begins.once ?_ ?_ rfl rfl
  · simpa using here
  · simpa using there

theorem value_of_linearize {e : Expr} {s s' : Lowering} {v : LinId}
    (ok : Lower.linearize e none none s = .ok (some v) s') : e.value s = .ok v s' := by
  obtain ⟨_, run, same⟩ := map_eq_ok.mp ok
  rw [run, Option.some.inj same]

theorem branch_of_linearize {e : Expr} {yes no : Option Symbol} {s s' : Lowering}
    (ok : Lower.linearize e yes no s = .ok none s') : e.branch yes no s = .ok () s' := by
  unfold Lower.linearize at ok
  split at ok
  · obtain ⟨_, -, same⟩ := map_eq_ok.mp ok
    cases same
  · obtain ⟨_, _, run, last⟩ := bind_eq_ok.mp ok
    obtain ⟨-, rfl⟩ := pure_eq_ok.mp last
    exact run

section

variable {W : Type} {σ : Workings W} {e : Expr} {yes no : Option Symbol} {s s' : Lowering}
  {t : SymbolTable} {f : LinearFunction}

theorem value_gives {v : LinId} (scalar : e.scalar s.symbols = true)
    (fresh : Fresh e.numbers s.done) (lowered : e.value s = .ok v s') (begins : Begins s' t f) :
    Gives σ t f s.draft s'.draft v e.linearType (e.reading σ s.symbols).value := by
  obtain ⟨d, rfl, run⟩ := e.follows.value s lowered
  exact simulates (run.unshared fresh).1 begins.unique (.refl _) begins.inside scalar

theorem branch_decides (scalar : e.scalar s.symbols = true) (fresh : Fresh e.numbers s.done)
    (lowered : e.branch yes no s = .ok () s') (begins : Begins s' t f) {py pn : Nat}
    (toYes : f.Lands yes s'.codes.size py) (toNo : f.Lands no s'.codes.size pn) :
    Decides σ t f s.draft py pn (e.reading σ s.symbols).truth := by
  obtain ⟨d, rfl, run⟩ := e.follows.branch yes no s lowered
  exact simulates (run.unshared fresh).1 begins.unique (.refl _) begins.inside scalar py pn
    toYes toNo

end

/-- The value of a condition and its branch agree. Run in one world, the code for the value and the
code for the branch both come to the end, the branch at the first place exactly if the value is not
zero, and leave the same world behind; or both come to an operator that fails; or the code for the
branch comes to a branch that asks for the order of operands without one. -/
theorem branch_follows_value {W : Type} (σ : Workings W) {e : Expr} {yes no : Option Symbol}
    {s sv sb : Lowering} {v : LinId} {tv tb : SymbolTable} {fv fb : LinearFunction} {py pn : Nat}
    (scalar : e.scalar s.symbols = true) (fresh : Fresh e.numbers s.done)
    (value : Lower.linearize e none none s = .ok (some v) sv) (inValue : Begins sv tv fv)
    (branch : Lower.linearize e yes no s = .ok none sb) (inBranch : Begins sb tb fb)
    (toYes : fb.Lands yes sb.codes.size py) (toNo : fb.Lands no sb.codes.size pn)
    (hv hb : Held) (w : W) :
    (∃ x hv' hb' w', Has v x hv' ∧
        Runs σ tv fv ⟨s.codes.size, hv, w⟩ ⟨sv.codes.size, hv', w'⟩ ∧
        Runs σ tb fb ⟨s.codes.size, hb, w⟩
          ⟨if x.isTrue (fv.node v).ty.valueClass then py else pn, hb', w'⟩) ∨
      (Fails σ tv fv ⟨s.codes.size, hv, w⟩ ∧ Fails σ tb fb ⟨s.codes.size, hb, w⟩) ∨
      Disordered σ tb fb ⟨s.codes.size, hb, w⟩ := by
  have gives := value_gives (σ := σ) scalar fresh (value_of_linearize value) inValue
  have decides := branch_decides (σ := σ) scalar fresh (branch_of_linearize branch) inBranch
    toYes toNo
  have first := gives.takes hv w trivial
  have second := decides hb w trivial
  rcases e.truth_agrees w with unordered | truth
  · rw [unordered] at second
    exact .inr (.inr second)
  have tested : (e.reading σ s.symbols).truth w = (e.reading σ s.symbols).value w >>= fun r =>
    .ok (r.1.isTrue e.linearType.valueClass, r.2) := truth
  rw [tested] at second
  cases outcome : (e.reading σ s.symbols).value w with
  | ok r =>
    rw [outcome] at first second
    obtain ⟨hv', run, -, has⟩ := first
    obtain ⟨hb', run', -, -⟩ := second
    rw [← gives.node] at run'
    exact .inl ⟨r.1, hv', hb', r.2, has, run, run'⟩
  | error mishap =>
    rw [outcome] at first second
    cases mishap with
    | failed => exact .inr (.inl ⟨first, second⟩)
    | unordered => exact .inr (.inr second)

section Measures

def SymbolTable.measures : SymbolTable where
  entries := #[⟨"a", .global, .double, none⟩, ⟨"b", .global, .double, none⟩,
    ⟨".no", .label, .void, none⟩]

def one : Double := ⟨0x3ff0000000000000⟩

/-- Surroundings in which the variables can be read. -/
def readings (a b : Double) : Workings Unit where
  apply n xs _ :=
    match n.op, n.sym, xs with
    | .addr, some sym, [] => some (.ofNat sym.index, ())
    | .load, none, [.int address] => some (.float (if address = 0 then a else b), ())
    | _, _, _ => none
  pass _ _ _ := none
  fill _ _ _ := none
  answer _ w := some w

/-- The comparison of the variables, with numbers from `n` on. -/
def lessThan (n : Nat) : Expr :=
  .binary ⟨n + 4, .int⟩ .lt (read n ⟨0⟩) (read (n + 2) ⟨1⟩)
where
  read (n : Nat) (sym : Symbol) : Expr := .deref ⟨n + 1, .double⟩ (.addr ⟨n, .pointer⟩ sym)

/-- Either the first variable is not less than the second one, or it is not zero. -/
def guarded : Expr :=
  .binary ⟨8, .int⟩ .logOr (.unary ⟨5, .int⟩ .not (lessThan 0)) (lessThan.read 6 ⟨0⟩)

/-- What a pass has written when a condition is lowered, for its value or with a false label. -/
def written (e : Expr) (no : Option Symbol) : Lowering :=
  match Lower.linearize e none no { symbols := SymbolTable.measures } with
  | .ok _ s | .error _ s => s

/-- A function whose false label comes behind a return. -/
def function (e : Expr) (no : Option Symbol) : LinearFunction where
  name := ⟨0⟩
  ret := .int
  params := []
  codes := (written e no).codes ++ #[.ret none, .label ⟨2⟩]
  nodes := (written e no).nodes
  exit := ⟨2⟩

theorem linearize_written {e : Expr} {no : Option Symbol} {v : Option LinId}
    (run : (Lower.linearize e none no).run' { symbols := SymbolTable.measures } = some v) :
    Lower.linearize e none no { symbols := SymbolTable.measures } = .ok v (written e no) := by
  obtain ⟨s, ran⟩ := exists_of_run' run
  rw [written, ran]

theorem begins_written {e : Expr} {no : Option Symbol}
    (once : ((function e no).codes.toList.filterMap Code.label?).Nodup) :
    Begins (written e no) (written e no).symbols (function e no) :=
  ⟨⟨by simp [function, Lowering.draft], List.prefix_rfl, .refl _⟩, once⟩

def start : State Unit := ⟨0, ⟨fun _ => .value .void, fun _ => .void⟩, ()⟩

/-- The code of a disjunction with a negation in it, in both forms. -/
theorem guarded_branch_follows_value :
    (guarded.scalar SymbolTable.measures = true ∧ guarded.numbers.Nodup) ∧
    ((∃ x hv hb w, Has ⟨16⟩ x hv ∧
        Runs (readings one .zero) (written guarded none).symbols (function guarded none)
          start ⟨(written guarded none).codes.size, hv, w⟩ ∧
        Runs (readings one .zero) (written guarded (some ⟨2⟩)).symbols (function guarded (some ⟨2⟩))
          start ⟨if x.isTrue ((function guarded none).node ⟨16⟩).ty.valueClass
            then (written guarded (some ⟨2⟩)).codes.size else 13, hb, w⟩) ∨
      (Fails (readings one .zero) (written guarded none).symbols (function guarded none) start ∧
        Fails (readings one .zero) (written guarded (some ⟨2⟩)).symbols
          (function guarded (some ⟨2⟩)) start) ∨
      Disordered (readings one .zero) (written guarded (some ⟨2⟩)).symbols
        (function guarded (some ⟨2⟩)) start) := by
  have scalar : guarded.scalar SymbolTable.measures = true := by decide +kernel
  have distinct : guarded.numbers.Nodup := by decide +kernel
  have value : Lower.linearize guarded none none { symbols := SymbolTable.measures } =
      .ok (some ⟨16⟩) (written guarded none) := linearize_written (by decide +kernel)
  have branch : Lower.linearize guarded none (some ⟨2⟩) { symbols := SymbolTable.measures } =
      .ok none (written guarded (some ⟨2⟩)) := linearize_written (by decide +kernel)
  have placed : (function guarded (some ⟨2⟩)).codes[13]? = some (.label ⟨2⟩) := by decide +kernel
  exact ⟨⟨scalar, distinct⟩, branch_follows_value (readings one .zero) scalar
    ⟨distinct, fun _ _ => rfl⟩ value (begins_written (by decide +kernel)) branch
    (begins_written (by decide +kernel)) rfl placed start.held start.held ()⟩

/-- Operands without an order: the value of the comparison is zero, and the branch does not go to
the false label. -/
theorem unordered_branch_passes : ∃ hv hb,
    Runs (readings .invalid one) (written (lessThan 0) none).symbols (function (lessThan 0) none)
      start ⟨(written (lessThan 0) none).codes.size, hv, ()⟩ ∧ Has ⟨4⟩ (.ofBool false) hv ∧
    Runs (readings .invalid one) (written (lessThan 0) (some ⟨2⟩)).symbols
      (function (lessThan 0) (some ⟨2⟩)) start
      ⟨(written (lessThan 0) (some ⟨2⟩)).codes.size, hb, ()⟩ ∧
    ¬(function (lessThan 0) (some ⟨2⟩)).Lands (some ⟨2⟩)
      (written (lessThan 0) (some ⟨2⟩)).codes.size
      (written (lessThan 0) (some ⟨2⟩)).codes.size := by
  have valued : (after (readings .invalid one) (written (lessThan 0) none).symbols
      (function (lessThan 0) none) 5 start).map (fun s => (s.pos, (s.held.items ⟨4⟩).value?)) =
      some ((written (lessThan 0) none).codes.size, some (.ofBool false)) := by decide +kernel
  have branched : (after (readings .invalid one) (written (lessThan 0) (some ⟨2⟩)).symbols
      (function (lessThan 0) (some ⟨2⟩)) 6 start).map State.pos =
      some (written (lessThan 0) (some ⟨2⟩)).codes.size := by decide +kernel
  obtain ⟨sv, first, value⟩ := Option.map_eq_some_iff.mp valued
  obtain ⟨sb, second, place⟩ := Option.map_eq_some_iff.mp branched
  obtain ⟨here, has⟩ := Prod.mk.inj value
  refine ⟨sv.held, sb.held, here ▸ runs_of_after first, ?_, place ▸ runs_of_after second, ?_⟩
  · unfold Has
    cases item : sv.held.items ⟨4⟩ with
    | value x => rw [item] at has; exact congrArg _ (Option.some.inj has)
    | temp sym => rw [item] at has; cases has
  · have other : (function (lessThan 0) (some ⟨2⟩)).codes[
        (written (lessThan 0) (some ⟨2⟩)).codes.size]? ≠ some (.label ⟨2⟩) := by decide +kernel
    exact other

end Measures

end CBackend.Conditions
