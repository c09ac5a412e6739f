import CBackend.Proofs.Numbering.Table
import CBackend.Proofs.Selection.Agreement

/-!
Numbering leaves values without a location and registers without values, whatever the linear code
is: operands get smaller numbers than their values, and every number in use has been issued.
-/

namespace CBackend

namespace ValuePool

structure Unplaced (p : ValuePool) : Prop where
  loc : ∀ id, (p.node id).loc = none
  spill : ∀ id, (p.node id).spill = none
  kids : ∀ id, ∀ k ∈ (p.node id).key.kids, k.index < id.index
  table : ∀ e ∈ p.table, e.2.index < p.size

variable {p : ValuePool}

theorem Unplaced.modify (start : p.Unplaced) (id : NodeId) {change : ValueNode → ValueNode}
    (place : ∀ v, (change v).loc = v.loc) (copy : ∀ v, (change v).spill = v.spill)
    (key : ∀ v, (change v).key = v.key) : (p.modify id change).Unplaced where
  loc k := by
    rw [node_modify]
    split
    · rw [place]
      exact start.loc k
    · exact start.loc k
  spill k := by
    rw [node_modify]
    split
    · rw [copy]
      exact start.spill k
    · exact start.spill k
  kids k := by
    rw [node_modify]
    split
    · rw [key]
      exact start.kids k
    · exact start.kids k
  table e inside := by
    rw [size_modify]
    exact start.table e inside

theorem Unplaced.fresh (start : p.Unplaced) {key : ValueKey}
    (kids : ∀ k ∈ key.kids, k.index < p.size) (aux : Int) : (p.fresh key aux).2.Unplaced where
  loc id := by
    rw [node_fresh]
    split
    · rfl
    · exact start.loc id
  spill id := by
    rw [node_fresh]
    split
    · rfl
    · exact start.spill id
  kids id k inside := by
    rw [node_fresh] at inside
    split at inside
    · rename_i new
      rw [new]
      exact kids k inside
    · exact start.kids id k inside
  table e inside := by
    rw [size_fresh]
    exact Nat.lt_succ_of_lt (start.table e inside)

theorem Unplaced.forget (start : p.Unplaced) {q : ValuePool} (nodes : q.nodes = p.nodes)
    (table : ∀ e ∈ q.table, e ∈ p.table) : q.Unplaced := by
  have node (id : NodeId) : q.node id = p.node id := by rw [ValuePool.node, nodes, ValuePool.node]
  constructor
  · intro id
    rw [node]
    exact start.loc id
  · intro id
    rw [node]
    exact start.spill id
  · intro id
    rw [node]
    exact start.kids id
  · intro e inside
    rw [size, nodes]
    exact start.table e (table e inside)

theorem Unplaced.reset (start : p.Unplaced) : p.reset.Unplaced :=
  start.forget rfl fun _ inside => absurd inside List.not_mem_nil

theorem Unplaced.invalidate (start : p.Unplaced) (sym : Symbol) : (p.invalidate sym).Unplaced :=
  start.forget rfl fun _ inside => (List.mem_filter.mp inside).1

theorem Unplaced.intern (start : p.Unplaced) {key : ValueKey}
    (kids : ∀ k ∈ key.kids, k.index < p.size) :
    (p.intern key).2.Unplaced ∧ (p.intern key).1.index < (p.intern key).2.size ∧
      p.size ≤ (p.intern key).2.size := by
  unfold ValuePool.intern
  split
  · rename_i id found
    obtain ⟨e, entry, rfl⟩ := Option.map_eq_some_iff.mp found
    refine ⟨start.forget rfl fun _ inside => inside, ?_, Nat.le_refl _⟩
    exact start.table e (List.mem_of_find?_eq_some entry)
  · dsimp only
    generalize full : (if p.capacity ≤ p.table.length then p.reset else p) = q
    have kept : q.Unplaced ∧ q.size = p.size := by
      rw [← full]
      split
      · exact ⟨start.reset, rfl⟩
      · exact ⟨start, rfl⟩
    obtain ⟨kept, same⟩ := kept
    have counted : ({ q with misses := q.misses + 1 } : ValuePool).Unplaced :=
      kept.forget rfl fun _ inside => inside
    have issued := counted.fresh (same.symm ▸ kids) 0
    have size := ({ q with misses := q.misses + 1 } : ValuePool).size_fresh key 0
    have new : q.size < (({ q with misses := q.misses + 1 } : ValuePool).fresh key 0).2.size := by
      rw [size]
      exact Nat.lt_succ_self _
    refine ⟨{ issued with table := fun e inside => ?_ }, new, same ▸ Nat.le_of_lt new⟩
    rcases List.mem_cons.mp inside with rfl | old
    · exact new
    · exact issued.table e old

end ValuePool

theorem UseCount.unplaced_add {c : UseCount} (start : c.pool.Unplaced) (seq fuel : Nat) (root : Bool)
    (id : NodeId) :
    (UseCount.add seq fuel root id c).pool.Unplaced ∧
      (UseCount.add seq fuel root id c).pool.size = c.pool.size := by
  induction fuel generalizing root id c with
  | zero => exact ⟨start, rfl⟩
  | succ fuel ih =>
    have all (ks : List NodeId) {c : UseCount} (start : c.pool.Unplaced) :
        (ks.foldl (fun c k => add seq fuel false k c) c).pool.Unplaced ∧
          (ks.foldl (fun c k => add seq fuel false k c) c).pool.size = c.pool.size := by
      induction ks generalizing c with
      | nil => exact ⟨start, rfl⟩
      | cons k ks later =>
        obtain ⟨next, same⟩ := ih start false k
        obtain ⟨last, same'⟩ := later next
        exact ⟨last, same'.trans same⟩
    have counted : (c.pool.modify id fun n => { n with
        lastRef := max n.lastRef seq
        pending := if root then n.pending else n.pending + 1 }).Unplaced :=
      start.modify id (fun _ => rfl) (fun _ => rfl) fun _ => rfl
    have same := c.pool.size_modify id fun n => { n with
      lastRef := max n.lastRef seq
      pending := if root then n.pending else n.pending + 1 }
    unfold UseCount.add
    dsimp only
    generalize (c.pool.modify id fun n => _) = pool at counted same ⊢
    split
    · obtain ⟨last, same'⟩ := all (pool.node id).key.kids (c := ⟨pool, _⟩) counted
      exact ⟨last, same'.trans same⟩
    · exact ⟨counted, same⟩

theorem RegisterFile.pins_reset (f : RegisterFile) (r : Reg) : (f.reset.get r).pins = 0 := by
  unfold get reset
  split
  · simp
  · rfl

namespace Generator

structure Prepared (g : Generator) : Prop where
  regs : g.regs.Sound
  users : ∀ r, g.regs.users r = []
  pins : ∀ r, (g.regs.get r).pins = 0
  limit : g.regs.pinLimit = some mostPins
  pool : g.pool.Unplaced
  held : g.held = []
  code : g.code = .empty
  numbered : ∀ id, some id ∈ g.numbers → id.index < g.pool.size

variable {g : Generator}

theorem Prepared.selecting (start : g.Prepared) : g.Selecting 0 where
  agrees := by
    refine ⟨start.regs, fun r id part => ?_⟩
    rw [RegisterFile.Holds, start.users, register?, start.pool.loc]
    simp
  kids := start.pool.kids
  held := by
    rw [start.held]
    exact fun _ inside => absurd inside List.not_mem_nil
  numbered := start.numbered
  size := Nat.zero_le _

theorem mem_numbers {l : LinId} {id : NodeId} (number : g.numbering.number l = some id) :
    some id ∈ g.numbers := by
  rw [number_eq] at number
  exact Array.mem_of_getElem? (Option.join_eq_some_iff.mp number)

theorem prepared_reset (reserved : ∀ r, g.regs.state r = .reserved ↔ ¬r.Allocatable) :
    g.reset.Prepared where
  regs := (RegisterFile.sound_reset reserved).1
  users := (RegisterFile.sound_reset reserved).2
  pins := g.regs.pins_reset
  limit := rfl
  pool := by
    have absent (id : NodeId) : g.pool.clear.node id = default := by
      simp [ValuePool.clear, ValuePool.node]
    refine ⟨fun id => ?_, fun id => ?_, fun id => ?_, fun _ inside => absurd inside List.not_mem_nil⟩
    · change (g.pool.clear.node id).loc = none
      rw [absent]
      rfl
    · change (g.pool.clear.node id).spill = none
      rw [absent]
      rfl
    · change ∀ k ∈ (g.pool.clear.node id).key.kids, _
      rw [absent]
      exact fun _ inside => absurd inside List.not_mem_nil
  held := rfl
  code := rfl
  numbered id inside := by
    simp [reset] at inside

end Generator

/-- Failures that show linear code to be broken: a label without a place, an operand that has not been
evaluated, an operator without the operands it needs or a node that is not there. -/
def CompileError.malformed : CompileError → Bool
  | .invariant (.undefinedLabel _) | .invariant (.neverNumbered _)
  | .invariant (.malformedNode _) | .invariant (.aborted (.danglingNode _)) => true
  | _ => false

theorem CompileError.malformed_of_unnumbered {e : CompileError} (failed : e.unnumbered = true) :
    e.malformed = true := by
  unfold unnumbered at failed
  split at failed <;> first | rfl | cases failed

theorem CompileError.consistent_of_malformed {e : CompileError} (malformed : e.malformed = true) :
    e.inconsistent = false := by
  unfold CompileError.malformed at malformed
  split at malformed
  · rfl
  · rfl
  · rfl
  · rfl
  · cases malformed

namespace Gen

open Generator

variable {α : Type} {g : Generator}

abbrev Prepares (x : Gen α) (result : α → Prop) : Prop :=
  Keeps Prepared (fun e g => g.Prepared ∧ e.malformed = true) x result

theorem prepares_numberNode (f : LinearFunction) (lin : LinId) :
    Prepares (numberNode f lin) fun _ => True := by
  refine ⟨fun g start => (numberNode_ends f lin g).mono ?_ ?_⟩
  rotate_left
  · exact fun _ _ ⟨same, failed⟩ => ⟨same ▸ start, CompileError.malformed_of_unnumbered failed⟩
  rintro id g' ⟨-, r, asks, answer, numbers, same⟩
  obtain ⟨c, carries, key⟩ := LinNode.request?_carries asks
  have kids (k : NodeId) (inside : k ∈ c.1.kids) : k.index < g.pool.size := by
    rw [ValueKey.kids, key.left, key.right] at inside
    rcases List.mem_append.mp inside with first | second
    · obtain ⟨l, -, number⟩ := Option.bind_eq_some_iff.mp (Option.mem_toList.mp first)
      exact start.numbered k (mem_numbers number)
    · obtain ⟨l, -, number⟩ := Option.bind_eq_some_iff.mp (Option.mem_toList.mp second)
      exact start.numbered k (mem_numbers number)
  have kept : g'.pool.Unplaced ∧ id.index < g'.pool.size ∧ g.pool.size ≤ g'.pool.size := by
    generalize g'.pool = pool at answer ⊢
    cases r with
    | intern =>
      cases carries
      cases answer
      exact start.pool.intern kids
    | fresh k aux =>
      cases carries
      cases answer
      have more := g.pool.size_fresh k aux
      exact ⟨start.pool.fresh kids _, more ▸ Nat.lt_succ_self _, more ▸ Nat.le_succ _⟩
    | reset | invalidate => cases carries
  rw [same]
  refine ⟨{ start with pool := kept.1, numbered := fun k inside => ?_ }, trivial⟩
  rw [numbers] at inside
  rcases Array.mem_or_eq_of_mem_setIfInBounds inside with old | new
  · exact Nat.lt_of_lt_of_le (start.numbered k old) kept.2.2
  · cases new
    exact kept.2.1

theorem prepares_numberOf (lin : LinId) : Prepares (numberOf lin) fun _ => True :=
  ⟨fun g start => (numberOf_ends lin g).mono (fun _ _ ⟨same, _⟩ => ⟨same ▸ start, trivial⟩)
    fun _ _ ⟨same, failed⟩ => ⟨same ▸ start, CompileError.malformed_of_unnumbered failed⟩⟩

theorem prepares_countUse (seq : Nat) (root : Bool) (id : NodeId) (met : List NodeId) :
    Prepares (countUse seq root id met) fun _ => True := by
  refine .modifyGet fun g start => ⟨?_, trivial⟩
  obtain ⟨pool, same⟩ := UseCount.unplaced_add (c := ⟨g.pool, met⟩) start.pool seq (id.index + 1) root id
  refine { start with pool, numbered := fun id inside => ?_ }
  rw [same]
  exact start.numbered id inside

theorem prepares_onPool {step : ValuePool → ValuePool} (kept : ∀ p, p.Unplaced → (step p).Unplaced)
    (size : ∀ p, (step p).size = p.size) : Prepares (onPool step) fun _ => True := by
  refine .modify fun g start => ?_
  refine { start with pool := kept _ start.pool, numbered := fun id inside => ?_ }
  rw [size]
  exact start.numbered id inside

theorem prepares_numberValues (f : LinearFunction) (graph : FlowGraph) :
    Prepares (numberValues f graph) fun _ => True := by
  refine NumberingRules.numberValues (P := fun x => Prepares x fun _ => True) ?_ graph
  exact {
    pure _ := .pure trivial
    bind first rest := first.bind fun a _ => rest a
    read _ rest := Keeps.get.bind fun g _ => rest g
    start := .modify fun _ start => { start with numbered := fun id inside => by simp at inside }
    numberNode l _ := prepares_numberNode f l
    numberOf := prepares_numberOf
    countUse := prepares_countUse
    reset := prepares_onPool (fun _ start => start.reset) fun _ => rfl
    invalidate sym := prepares_onPool (fun _ start => start.invalidate sym) fun _ => rfl }

theorem prepares_bindParam (sym : Symbol) : Prepares (bindParam sym) fun _ => True :=
  .modify fun _ start => { start with }

theorem prepares_flowGraph (f : LinearFunction) : Prepares (flowGraph f) fun _ => True := by
  unfold flowGraph
  refine Keeps.bind (.ofExcept fun e g failed start => ?_) fun graph _ => ?_
  · obtain ⟨l, rfl⟩ := FlowGraph.build_eq_error failed
    exact ⟨start, rfl⟩
  refine Keeps.get.bind fun g _ => ?_
  split
  · refine Keeps.bind (.modify fun _ start => ?_) fun _ _ => .pure trivial
    exact { start with }
  · exact .pure trivial

end Gen

open Gen Generator

theorem LinearFunction.prepare_prepared (f : LinearFunction) {g : Generator}
    (reserved : ∀ r, g.regs.state r = .reserved ↔ ¬r.Allocatable) :
    Ends f.prepare g (fun _ g' => g'.Prepared) fun e g' => g'.Prepared ∧ e.malformed = true := by
  unfold prepare
  refine .after_ok (x := modify Generator.reset) rfl ?_
  have rest : Prepares (do
      let graph ← flowGraph f
      numberValues f graph
      modify fun g : Generator => { g with stats := { g.stats with
        sharedValues := g.pool.hits
        poolResets := g.pool.resets } }
      f.params.forM bindParam
      return graph) fun _ => True := by
    refine (prepares_flowGraph f).bind fun graph _ => ?_
    refine (prepares_numberValues f graph).bind fun _ _ => ?_
    refine Keeps.bind (.modify fun _ start => ?_) fun _ _ => ?_
    · exact { start with }
    · exact (Keeps.forM fun sym _ => prepares_bindParam sym).bind fun _ _ => .pure trivial
  exact (rest.ends _ (prepared_reset reserved)).imp fun _ _ ⟨prepared, _⟩ => prepared

theorem LinearFunction.prepare_ends (f : LinearFunction) {g : Generator}
    (reserved : ∀ r, g.regs.state r = .reserved ↔ ¬r.Allocatable) :
    Ends f.prepare g (fun _ g' => g'.Selecting 0)
      fun e g' => g'.Selecting 0 ∧ e.inconsistent = false :=
  (f.prepare_prepared reserved).mono (fun _ _ prepared => prepared.selecting)
    fun _ _ ⟨prepared, malformed⟩ =>
      ⟨prepared.selecting, CompileError.consistent_of_malformed malformed⟩

end CBackend
