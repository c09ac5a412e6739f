import Mathlib.Data.List.Chain
import Mathlib.Data.List.Induction
import CBackend.Proofs.Lowering.Assembly

/-!
Where values are evaluated on the way to their uses. In the code of a function without shared nodes
no path leads to the use of a value around its evaluation. A node with two parents is evaluated
where it is met first, and a path to the other parent may miss that place.
-/

namespace CBackend

/-- A way that control may take from the first code to the code at a position, with the positions
passed before it. -/
inductive LinearFunction.Path (f : LinearFunction) : List Nat → Nat → Prop
  | start : Path f [] 0
  | step {passed : List Nat} {i j : Nat} (before : Path f passed i) (follows : f.Follows i j) :
      Path f (passed ++ [i]) j

namespace LinearFunction

variable {f : LinearFunction} {start stop : Nat}

theorem Path.passes (closed : Ledger.Closed f.exit f.codes.toList start stop)
    {passed : List Nat} {pos : Nat} (path : f.Path passed pos) (after : start < pos)
    (upTo : pos ≤ stop) : start ∈ passed := by
  induction path with
  | start => exact absurd after (Nat.not_lt_zero start)
  | @step passed i j before follows ih =>
    rw [List.mem_append, List.mem_singleton]
    cases follows with
    | next here stays inside =>
      rcases Nat.lt_or_eq_of_le (Nat.le_of_lt_succ after) with below | same
      · exact .inl (ih below (Nat.le_of_succ_le upTo))
      · exact .inr same
    | jump here target there =>
      -- The jump comes from inside the range, and so the path was inside before.
      rw [← Array.getElem?_toList] at here there
      obtain ⟨after, upTo⟩ := closed _ _ i after upTo there ⟨_, here, target⟩
      exact .inl (ih after upTo)

theorem follows_iff {i j : Nat} : f.Follows i j ↔ ∃ c, f.codes[i]? = some c ∧
    ((c.leaves = false ∧ i + 1 < f.codes.size ∧ j = i + 1) ∨
      ∃ l, c.target? f.exit = some l ∧ f.codes[j]? = some (.label l)) := by
  constructor
  · rintro (⟨here, stays, inside⟩ | ⟨here, target, there⟩)
    · exact ⟨_, here, .inl ⟨stays, inside, rfl⟩⟩
    · exact ⟨_, here, .inr ⟨_, target, there⟩⟩
  · rintro ⟨c, here, ⟨stays, inside, rfl⟩ | ⟨l, target, there⟩⟩
    · exact .next here stays inside
    · exact .jump here target there

instance (f : LinearFunction) : DecidableRel f.Follows := fun i j =>
  decidable_of_iff (∃ c ∈ f.codes[i]?, (c.leaves = false ∧ i + 1 < f.codes.size ∧ j = i + 1) ∨
    ∃ l ∈ c.target? f.exit, f.codes[j]? = some (.label l)) follows_iff.symm

theorem path_of_isChain {passed : List Nat} {pos : Nat} (first : (passed ++ [pos]).head? = some 0)
    (chain : (passed ++ [pos]).IsChain f.Follows) : f.Path passed pos := by
  induction passed using List.reverseRecOn generalizing pos with
  | nil =>
    simp only [List.nil_append, List.head?_cons, Option.some.injEq] at first
    subst first
    exact .start
  | append_singleton passed i ih =>
    rw [List.append_assoc, List.singleton_append] at first chain
    have step : f.Follows i pos := by simpa using chain.right_of_append
    have before : f.Path passed i := by
      apply ih
      · simpa [List.head?_append] using first
      · rw [← List.singleton_append, ← List.append_assoc] at chain
        exact chain.left_of_append
    exact .step before step

end LinearFunction

/-- On every path to the use of a value the value is evaluated first, if no node has two parents. -/
theorem FunctionDef.use_after_evaluation {d : FunctionDef} {t t' : SymbolTable} {f : LinearFunction}
    (lowered : d.lower t = .ok f t') (unshared : d.Unshared) {passed : List Nat} {pos : Nat}
    (path : f.Path passed pos) {c : Code} (here : f.codes[pos]? = some c) {l : LinId}
    (used : l ∈ c.reads f.nodes.toList) : ∃ i ∈ passed, f.codes[i]? = some (.eval l) := by
  obtain ⟨g, sound, codes, nodes, -, -⟩ := FunctionDef.lower_sound lowered unshared fun filled => filled
  rw [← nodes] at used
  rw [← Array.getElem?_toList, ← codes] at here
  obtain ⟨i, span, evaluated⟩ := sound.numbered.reads pos c here l used
  have after := (sound.numbered.spans _ span).1
  have closed := sound.enclosed.spans _ span
  rw [codes] at closed evaluated
  refine ⟨i, path.passes closed after (Nat.le_refl pos), ?_⟩
  rw [← Array.getElem?_toList]
  exact evaluated

/-- One of two squares of a parameter, as another parameter says; the two are one node if `shared`. -/
def FunctionDef.choosesSquare (shared : Bool) : FunctionDef where
  name := ⟨0⟩
  ret := .int
  params := [⟨1⟩, ⟨2⟩]
  output := none
  body := .ret (some (.cond ⟨20, .int⟩ (read 0 ⟨1⟩) (square 2) (square (if shared then 2 else 7))))
where
  read (n : Nat) (sym : Symbol) : Expr := .deref ⟨n + 1, .int⟩ (.addr ⟨n, .pointer⟩ sym)
  square (n : Nat) : Expr := .binary ⟨n + 4, .int⟩ .mul (read n ⟨2⟩) (read (n + 2) ⟨2⟩)

def SymbolTable.choosesSquare : SymbolTable where
  entries := #[⟨"f", .function, .int, none⟩, ⟨"c", .param, .int, none⟩, ⟨"a", .param, .int, none⟩]

def LinearFunction.choosesSquare (shared : Bool) : LinearFunction :=
  ((FunctionDef.choosesSquare shared).lower.run' .choosesSquare).getD default

theorem FunctionDef.choosesSquare_lowered (shared : Bool) : ∃ t',
    (choosesSquare shared).lower .choosesSquare = .ok (LinearFunction.choosesSquare shared) t' := by
  have accepted : ((choosesSquare shared).lower.run' .choosesSquare).isSome = true := by
    cases shared <;> decide +kernel
  obtain ⟨f, ran⟩ := Option.isSome_iff_exists.mp accepted
  rw [LinearFunction.choosesSquare, ran]
  exact exists_of_run' ran

/-- Where the second arm stores its square, the square has been computed. -/
theorem FunctionDef.square_evaluated_in_arm :
    ∃ i ∈ [0, 1, 2, 3, 4, 5, 6, 15, 16, 17, 18, 19, 20, 21],
      (LinearFunction.choosesSquare false).codes[i]? = some (.eval ⟨15⟩) := by
  obtain ⟨t', lowered⟩ := choosesSquare_lowered false
  have path : (LinearFunction.choosesSquare false).Path
      [0, 1, 2, 3, 4, 5, 6, 15, 16, 17, 18, 19, 20, 21] 22 :=
    LinearFunction.path_of_isChain rfl (by decide +kernel)
  refine use_after_evaluation lowered (by decide) path (c := .eval ⟨17⟩) ?_ ?_
  · decide +kernel
  · decide +kernel

/-- The second arm stores the square that only the first arm computes. -/
theorem FunctionDef.shared_square_missed : ∃ t' passed,
    (choosesSquare true).lower .choosesSquare = .ok (LinearFunction.choosesSquare true) t' ∧
    (LinearFunction.choosesSquare true).Path passed 17 ∧
    (LinearFunction.choosesSquare true).codes[17]? = some (.eval ⟨12⟩) ∧
    ⟨8⟩ ∈ (Code.eval ⟨12⟩).reads (LinearFunction.choosesSquare true).nodes.toList ∧
    ∀ i ∈ passed, (LinearFunction.choosesSquare true).codes[i]? ≠ some (.eval ⟨8⟩) := by
  obtain ⟨t', lowered⟩ := choosesSquare_lowered true
  refine ⟨t', [0, 1, 2, 3, 4, 5, 6, 15, 16], lowered, ?_, ?_, ?_, ?_⟩
  · exact LinearFunction.path_of_isChain rfl (by decide +kernel)
  · decide +kernel
  · decide +kernel
  · decide +kernel

end CBackend
