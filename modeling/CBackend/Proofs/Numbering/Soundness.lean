import Mathlib
import CBackend.Proofs.Numbering.Paths

/-!
Value numbering of lowered functions. Codes that numbering gives one number compute one value on
every path, whatever operators compute and whatever the capacity of the table.
-/

namespace CBackend

open CBackend.Numbering Ledger

theorem Ledger.Sound.numbers {f : LinearFunction} {g g₁ g₂ : Generator} {graph : FlowGraph}
    {k : Ledger} (sound : k.Sound f.exit false) (codes : k.draft.codes = f.codes.toList)
    (nodes : k.draft.nodes = f.nodes.toList) (some_ : 0 < f.codes.size)
    (built : Gen.flowGraph f g.reset = .ok graph g₁)
    (ok : Gen.numberValues f graph g₁ = .ok () g₂) :
    ∃ v, Numbering.Numbered f graph.visited v g₂.numbering := by
  have read {pos : Nat} {c : Code} (here : f.codes[pos]? = some c) :
      k.draft.codes[pos]? = some c := by
    rw [codes]
    simpa using here
  have unique : f.LabelsUnique := fun i j l first second =>
    sound.labelled.unique (read first) (read second)
  obtain ⟨models, same⟩ := Gen.flowGraph_models built unique some_
  have node {pos : Nat} {l : LinId} (here : f.codes[pos]? = some (.eval l)) :
      k.draft.nodes[l.index]? = some (f.node l) := by
    have bound := sound.numbered.known (read here)
    rw [nodes] at bound ⊢
    rw [LinearFunction.node, Array.getD_eq_getD_getElem?, Array.getElem?_toList,
      Array.getElem?_eq_getElem (by simpa using bound)]
    rfl
  have proper (pos : Nat) (l : LinId) (here : f.codes[pos]? = some (.eval l)) :
      (f.node l).Proper := sound.numbered.proper _ (List.mem_of_getElem? (node here))
  have distinct : (k.draft.codes.filterMap Code.lin?).Nodup := by
    rw [sound.numbered.evals]
    exact List.Nodup.map (fun i j same => LinId.mk.inj same) List.nodup_range
  obtain ⟨v, empty, none, consistent, all⟩ := Gen.numberValues_eq_ok ok
    (by rw [same]; rfl) (by rw [same]; rfl) (fun pos visits => models.inside visits) proper
  refine ⟨v, models.sorted, models.begins, models.closed, all, empty, none, consistent, proper,
    ?_, ?_, ?_⟩
  · intro i j l first second
    exact index_unique distinct (read first) (read second) rfl rfl
  · intro pos c here
    cases fill : c.isFill with
    | false => rfl
    | true => cases sound.numbered.fill c (List.mem_of_getElem? (read here)) fill
  · intro pos l here i operand
    have uses : i ∈ (Code.eval l).reads k.draft.nodes := by
      simpa [Code.reads, node here] using operand
    obtain ⟨a, span, evaluated⟩ := sound.numbered.reads pos _ (read here) i uses
    have closed := sound.enclosed.spans _ span
    rw [codes] at evaluated closed
    exact ⟨a, (sound.numbered.spans _ span).1, by simpa using evaluated, closed⟩

variable {V O : Type}

/-- In a function in which no node is shared and no declaration clears its variable, let two
operators have one number; neither has a side effect then. Whenever a path through the code comes to
the later one, what it computes there is what the earlier one has computed last on that path. -/
theorem FunctionDef.same_number_same_value {d : FunctionDef} {t t' : SymbolTable}
    {f : LinearFunction} (lowered : d.lower t = .ok f t') (unshared : d.Unshared)
    (unfilled : d.body.fills = false) {g g₁ g₂ : Generator} {graph : FlowGraph}
    (built : Gen.flowGraph f g.reset = .ok graph g₁)
    (numbered : Gen.numberValues f graph g₁ = .ok () g₂) {M : Meaning V O} {values : LinId → V}
    {memory : Symbol → O} {m : Moment V O}
    (path : Relation.ReflTransGen (Moment.Step M f) (.start values memory) m) {p : Nat}
    {l l' : LinId} {n : NodeId} (earlier : p < m.pos) (first : f.codes[p]? = some (.eval l))
    (second : f.codes[m.pos]? = some (.eval l')) (left : g₂.numbers[l.index]? = some (some n))
    (right : g₂.numbers[l'.index]? = some (some n)) :
    m.last p = some (m.compute M f l') := by
  obtain ⟨k, sound, codes, nodes, -, -⟩ := d.lower_sound lowered unshared (by simp [unfilled])
  have some_ : 0 < f.codes.size := by
    obtain ⟨body, -, same, -⟩ := d.lower_follows lowered
    simp [same]
  obtain ⟨v, numbered⟩ := sound.numbers codes nodes some_ built numbered
  refine numbered.last_eq (n := n) path first second earlier ?_ ?_
  · simp [number, Generator.numbering, left]
  · simp [number, Generator.numbering, right]

/-- Values that are numbers or addresses, with a number in every variable. -/
def Meaning.cells : Meaning (Option Symbol × Int) Int where
  apply _ _ sym operands := (none, (sym.map fun s => (s.index : Int)).getD 0 +
    (operands.map fun x => x.2.2).sum)
  address sym := (some sym, 0)
  read _ a m := (none, (a.1.map m).getD 0)
  write _ a v m sym := if a.1 = some sym then v.2 else m sym
  read_address ty sym m m' same := by simp [same]
  write_address ty sym v m other differs := by simp [Ne.symm differs]

/-- A variable is read, another one is assigned, and the first is read again. -/
def FunctionDef.storeBetween : FunctionDef where
  name := ⟨0⟩
  ret := .int
  params := [⟨1⟩, ⟨2⟩]
  output := none
  body := .ret (some (.binary ⟨0, .int⟩ .add (.deref ⟨1, .int⟩ (.addr ⟨2, .pointer⟩ ⟨1⟩))
    (.comma ⟨3, .int⟩
      (.assign ⟨4, .int⟩ (.addr ⟨5, .pointer⟩ ⟨2⟩) (.const ⟨6, .int⟩ ⟨3⟩))
      (.deref ⟨7, .int⟩ (.addr ⟨8, .pointer⟩ ⟨1⟩)))))

def SymbolTable.twoParams : SymbolTable where
  entries := #[⟨"f", .function, .int, none⟩, ⟨"a", .param, .int, none⟩, ⟨"b", .param, .int, none⟩,
    ⟨"1", .intConst 1, .int, none⟩]

def LinearFunction.storeBetween : LinearFunction where
  name := ⟨0⟩
  ret := .int
  params := [⟨1⟩, ⟨2⟩]
  codes := #[.frameEnter, .eval ⟨0⟩, .eval ⟨1⟩, .eval ⟨2⟩, .eval ⟨3⟩, .eval ⟨4⟩, .eval ⟨5⟩, .eval ⟨6⟩,
    .eval ⟨7⟩, .ret (some ⟨7⟩), .label ⟨4⟩, .frameExit]
  nodes := #[
    { op := .addr, ty := .pointer, sym := some ⟨1⟩ },
    { op := .load, ty := .int, left := some ⟨0⟩ },
    { op := .addr, ty := .pointer, sym := some ⟨2⟩ },
    { op := .const, ty := .int, sym := some ⟨3⟩ },
    { op := .assign, ty := .int, left := some ⟨2⟩, right := some ⟨3⟩ },
    { op := .addr, ty := .pointer, sym := some ⟨1⟩ },
    { op := .load, ty := .int, left := some ⟨5⟩ },
    { op := .add, ty := .int, left := some ⟨1⟩, right := some ⟨6⟩ }]
  exit := ⟨4⟩

/-- The second read of the variable sees what the first one has read. -/
theorem FunctionDef.same_value_across_store :
    ∃ m : Moment (Option Symbol × Int) Int,
      Relation.ReflTransGen (Moment.Step .cells .storeBetween)
        (.start (fun _ => (none, 0)) fun _ => 7) m ∧ m.pos = 7 ∧
      m.last 2 = some (m.compute .cells .storeBetween ⟨6⟩) := by
  have run : (match storeBetween.lower .twoParams with
      | .ok f t' =>
        match Gen.flowGraph f (Generator.init {} t').reset with
        | .ok graph g₁ =>
          match Gen.numberValues f graph g₁ with
          | .ok () g₂ => decide (f = .storeBetween ∧ g₂.numbers[1]? = some (some ⟨1⟩) ∧
              g₂.numbers[6]? = some (some ⟨1⟩))
          | .error .. => false
        | .error .. => false
      | .error .. => false) = true := by decide +kernel
  split at run
  · rename_i f t' lowered
    split at run
    · rename_i graph g₁ built
      split at run
      · rename_i g₂ numbered
        obtain ⟨rfl, first, second⟩ := of_decide_eq_true run
        have next (i : Nat) {c : Code} (here : LinearFunction.storeBetween.codes[i]? = some c)
            (stays : c.leaves = false) (inside : i + 1 < 12) :
            LinearFunction.storeBetween.Follows i (i + 1) := .next here stays inside
        obtain ⟨m, path, place⟩ : ∃ m : Moment (Option Symbol × Int) Int,
            Relation.ReflTransGen (Moment.Step .cells .storeBetween)
              (.start (fun _ => (none, 0)) fun _ => 7) m ∧ m.pos = 7 :=
          ⟨_, .head (.other rfl rfl rfl (next 0 rfl rfl (by decide))) <|
            .head (.value rfl rfl (next 1 rfl rfl (by decide))) <|
            .head (.value rfl rfl (next 2 rfl rfl (by decide))) <|
            .head (.value rfl rfl (next 3 rfl rfl (by decide))) <|
            .head (.value rfl rfl (next 4 rfl rfl (by decide))) <|
            .head (.store (v := (none, 3)) rfl rfl rfl rfl (next 5 rfl rfl (by decide))) <|
            .head (.value rfl rfl (next 6 rfl rfl (by decide))) .refl, rfl⟩
        refine ⟨m, path, place, same_number_same_value lowered (by decide) (by decide) built
          numbered path (n := ⟨1⟩) ?_ ?_ ?_ first second⟩
        · rw [place]; decide
        · rfl
        · rw [place]; rfl
      · cases run
    · cases run
  · cases run

end CBackend
