import Mathlib.Logic.Relation
import CBackend.Proofs.FlowGraph.Edges

/-!
Which blocks are reached. The search keeps the blocks that wait for a visit and marks those it has
met; in the end the marked blocks are those that a path of edges leads to from the first block.
-/

namespace CBackend.FlowGraph

variable {g : FlowGraph} {seen : Array Bool} {a b : Nat}

theorem length_successors (b : Nat) : (g.successors b).length ≤ 2 := by
  unfold successors
  split
  · rename_i block found
    obtain ⟨s, next, taken, reachable⟩ := block
    cases next <;> cases taken <;> simp [Block.successors]
  · simp

theorem count_false_set (unmarked : seen[b]? = some false) :
    (seen.setIfInBounds b true).count false + 1 = seen.count false := by
  obtain ⟨inside, unseen⟩ := Array.getElem?_eq_some_iff.mp unmarked
  have positive : 0 < seen.count false := Array.count_pos_iff.mpr (unseen ▸ Array.getElem_mem inside)
  have one : (seen.setIfInBounds b true).count false = seen.count false - 1 := by
    simp [Array.setIfInBounds_def, inside, Array.count_set, unseen]
  omega

/-- Where a block that was seen goes, it was seen or is still to be visited. -/
def Explored (g : FlowGraph) (work : List Nat) (seen : Array Bool) : Prop :=
  ∀ b, seen[b]? = some true → ∀ k ∈ g.successors b, seen.getD k true = true ∨ k ∈ work

theorem visit_explored {fuel : Nat} {work : List Nat} (explored : g.Explored work seen)
    (enough : work.length + 2 * seen.count false ≤ fuel) :
    g.Explored [] (g.visit fuel work seen) ∧
      (∀ b, seen.getD b true = true ∨ b ∈ work → (g.visit fuel work seen).getD b true = true) ∧
      (g.visit fuel work seen).size = seen.size := by
  fun_induction visit g fuel work seen with
  | case1 work seen =>
    have none : work = [] := List.eq_nil_of_length_eq_zero (by omega)
    subst none
    exact ⟨explored, fun b => by simp, rfl⟩
  | case2 fuel seen => exact ⟨explored, fun b => by simp, rfl⟩
  | case3 fuel b work seen known ih =>
    have left {k : Nat} (open_ : seen.getD k true = true ∨ k ∈ b :: work) :
        seen.getD k true = true ∨ k ∈ work := by
      rcases open_ with done | inside
      · exact .inl done
      · rcases List.mem_cons.mp inside with rfl | later
        · exact .inl known
        · exact .inr later
    have bound : work.length + 2 * seen.count false ≤ fuel := by
      rw [List.length_cons] at enough
      omega
    obtain ⟨closed, kept, size⟩ := ih (fun b' seen' k next => left (explored b' seen' k next)) bound
    exact ⟨closed, fun k open_ => kept k (left open_), size⟩
  | case4 fuel b work seen new ih =>
    have here : seen[b]? = some false := by
      rw [Array.getD_eq_getD_getElem?] at new
      cases found : seen[b]? with
      | none => simp [found] at new
      | some known => simpa [found] using new
    have inside : b < seen.size := (Array.getElem?_eq_some_iff.mp here).1
    have left {k : Nat} (open_ : seen.getD k true = true ∨ k ∈ b :: work) :
        (seen.setIfInBounds b true).getD k true = true ∨ k ∈ (g.successors b).reverse ++ work := by
      simp only [Array.getD_eq_getD_getElem?, Array.getElem?_setIfInBounds] at open_ ⊢
      by_cases same : b = k
      · simp [same.symm, inside]
      · rw [if_neg same]
        rcases open_ with done | waits
        · exact .inl done
        · have later := (List.mem_cons.mp waits).resolve_left (Ne.symm same)
          exact .inr (List.mem_append_right _ later)
    have more : g.Explored ((g.successors b).reverse ++ work) (seen.setIfInBounds b true) := by
      intro b' seen' k next
      rw [Array.getElem?_setIfInBounds] at seen'
      by_cases same : b = b'
      · subst same
        exact .inr (List.mem_append_left _ (List.mem_reverse.mpr next))
      · rw [if_neg same] at seen'
        exact left (explored b' seen' k next)
    have bound : ((g.successors b).reverse ++ work).length +
        2 * (seen.setIfInBounds b true).count false ≤ fuel := by
      have two := g.length_successors b
      have fewer := count_false_set here
      rw [List.length_cons] at enough
      rw [List.length_append, List.length_reverse]
      omega
    obtain ⟨closed, kept, size⟩ := ih more bound
    exact ⟨closed, fun k open_ => kept k (left open_), by rw [size, Array.size_setIfInBounds]⟩

theorem reached_closed :
    (∀ b, g.reached[b]? = some true → ∀ k ∈ g.successors b, g.reached.getD k true = true) ∧
      g.reached.getD 0 true = true ∧ g.reached.size = g.blocks.size := by
  have none : g.Explored [0] (Array.replicate g.blocks.size false) := by
    intro b seen
    rw [Array.getElem?_replicate] at seen
    split at seen <;> cases seen
  have enough : [0].length + 2 * (Array.replicate g.blocks.size false).count false ≤
      2 * g.blocks.size + 1 := by
    rw [Array.count_replicate_self, List.length_singleton]
    omega
  obtain ⟨closed, kept, size⟩ := visit_explored none enough
  refine ⟨fun b seen k inside => ?_, kept 0 (.inr List.mem_cons_self), ?_⟩
  · rcases closed b seen k inside with done | left
    · exact done
    · cases left
  · rw [reached, size, Array.size_replicate]

/-- The graph with some of its blocks marked as reachable. -/
def mark (g : FlowGraph) (marks : Nat → Bool) : FlowGraph :=
  ⟨g.blocks.mapIdx fun i b => { b with reachable := marks i }⟩

/-- A path of edges leads from the first block to another. -/
def Reaches (g : FlowGraph) : Nat → Prop := Relation.ReflTransGen (fun a b => b ∈ g.successors a) 0

theorem Reaches.next (reaches : g.Reaches a) (edge : b ∈ g.successors a) : g.Reaches b :=
  Relation.ReflTransGen.tail reaches edge

theorem inside_of_edge (edge : b ∈ g.successors a) : a < g.blocks.size := by
  unfold successors at edge
  split at edge
  · rename_i found
    exact (Array.getElem?_eq_some_iff.mp found).1
  · cases edge

theorem visit_sound {fuel : Nat} {work : List Nat}
    (marked : ∀ b, seen[b]? = some true → g.Reaches b) (waiting : ∀ b ∈ work, g.Reaches b) :
    ∀ b, (g.visit fuel work seen)[b]? = some true → g.Reaches b := by
  fun_induction visit g fuel work seen with
  | case1 | case2 => exact marked
  | case3 fuel b work seen known ih =>
    exact ih marked fun b' inside => waiting b' (List.mem_cons_of_mem b inside)
  | case4 fuel b work seen new ih =>
    have here : g.Reaches b := waiting b List.mem_cons_self
    refine ih (fun b' marked' => ?_) fun b' inside => ?_
    · rw [Array.getElem?_setIfInBounds] at marked'
      by_cases same : b = b'
      · exact same ▸ here
      · rw [if_neg same] at marked'
        exact marked b' marked'
    · rcases List.mem_append.mp inside with next | later
      · exact here.next (List.mem_reverse.mp next)
      · exact waiting b' (List.mem_cons_of_mem b later)

theorem reached_of_reaches {k : Nat} (reaches : g.Reaches k) : g.reached.getD k true = true := by
  obtain ⟨closed, first, size⟩ := g.reached_closed
  induction reaches with
  | refl => exact first
  | @tail a b _ edge ih =>
    have inside : a < g.reached.size := size ▸ inside_of_edge edge
    refine closed a ?_ b edge
    rw [Array.getD_eq_getD_getElem?, Array.getElem?_eq_getElem inside] at ih
    rw [Array.getElem?_eq_getElem inside]
    exact congrArg some ih

theorem reached_iff {k : Nat} (inside : k < g.blocks.size) :
    g.reached.getD k false = true ↔ g.Reaches k := by
  have size := g.reached_closed.2.2
  have found : g.reached[k]? = some (g.reached.getD k false) := by
    rw [Array.getD_eq_getD_getElem?, Array.getElem?_eq_getElem (size ▸ inside)]
    rfl
  constructor
  · intro marked
    rw [marked] at found
    refine visit_sound (fun b seen => ?_) (fun b only => ?_) k found
    · rw [Array.getElem?_replicate] at seen
      split at seen <;> cases seen
    · rw [List.mem_singleton.mp only]
      exact .refl
  · intro reaches
    have marked := reached_of_reaches reaches
    rw [Array.getD_eq_getD_getElem?, found] at marked
    exact marked

theorem successors_build {f : LinearFunction} (ok : build f.codes f.exit = .ok g)
    (edge : b ∈ g.successors a) : b < g.blocks.size := by
  unfold successors at edge
  split at edge
  · rename_i block here
    rcases (exits_build ok here).inside edge with next | ⟨l, found⟩
    · unfold behind at next
      split at next
      · rename_i more
        cases next
        exact more
      · cases next
    · obtain ⟨b', there, -⟩ := found
      exact (Array.getElem?_eq_some_iff.mp there).1
  · cases edge

section Mark

variable (g) (marks : Nat → Bool)

theorem getElem?_mark (k : Nat) :
    (g.mark marks).blocks[k]? = g.blocks[k]?.map fun b => { b with reachable := marks k } :=
  Array.getElem?_mapIdx

theorem size_mark : (g.mark marks).blocks.size = g.blocks.size := Array.size_mapIdx

theorem mark_mark (marks' : Nat → Bool) : (g.mark marks).mark marks' = g.mark marks' := by
  refine congrArg FlowGraph.mk (Array.ext_getElem? fun k => ?_)
  change ((g.mark marks).mark marks').blocks[k]? = (g.mark marks').blocks[k]?
  rw [getElem?_mark, getElem?_mark, getElem?_mark, Option.map_map]
  rfl

theorem successors_mark : (g.mark marks).successors = g.successors := by
  funext k
  unfold successors
  rw [getElem?_mark]
  cases g.blocks[k]? with
  | none => rfl
  | some b => rfl

theorem visit_mark (fuel : Nat) (work : List Nat) (seen : Array Bool) :
    (g.mark marks).visit fuel work seen = g.visit fuel work seen := by
  fun_induction visit g fuel work seen with
  | case1 => rfl
  | case2 fuel => cases fuel <;> rfl
  | case3 fuel b work seen known ih => rw [visit, if_pos known, ih]
  | case4 fuel b work seen new ih => rw [visit, if_neg new, successors_mark, ih]

theorem reached_mark : (g.mark marks).reached = g.reached := by
  rw [reached, reached, visit_mark, size_mark]

end Mark

end CBackend.FlowGraph
