import Mathlib.Data.Set.Card
import CBackend.Proofs.FlowGraph.Search

/-!
What pruning does. The search for the reached blocks comes to an end round by round; pruning leaves
its marks on the blocks, counts the other blocks and changes nothing else.
-/

namespace CBackend.FlowGraph

variable {g : FlowGraph}

/-- One round of the search, from the blocks that wait and the marks to those after it. There is no
round for a block that does not exist. -/
inductive Round (g : FlowGraph) : List Nat × Array Bool → List Nat × Array Bool → Prop
  | known {b : Nat} {work : List Nat} {seen : Array Bool} (marked : seen[b]? = some true) :
      Round g (b :: work, seen) (work, seen)
  | new {b : Nat} {work : List Nat} {seen : Array Bool} (unmarked : seen[b]? = some false) :
      Round g (b :: work, seen) ((g.successors b).reverse ++ work, seen.setIfInBounds b true)

theorem Round.unique {s s₁ s₂ : List Nat × Array Bool} (first : g.Round s s₁)
    (second : g.Round s s₂) : s₁ = s₂ := by
  cases first with
  | known marked =>
    cases second with
    | known => rfl
    | new unmarked => cases marked.symm.trans unmarked
  | new unmarked =>
    cases second with
    | known marked => cases marked.symm.trans unmarked
    | new => rfl

theorem rounds_end (g : FlowGraph) : WellFounded fun after before => g.Round before after := by
  let measure (s : List Nat × Array Bool) : Nat ×ₗ Nat := toLex (s.2.count false, s.1.length)
  refine Subrelation.wf (r := InvImage (· < ·) measure) ?_ (InvImage.wf measure wellFounded_lt)
  rintro after before (⟨marked⟩ | ⟨unmarked⟩)
  · exact Prod.Lex.toLex_lt_toLex.mpr (.inr ⟨rfl, Nat.lt_succ_self _⟩)
  · have fewer := count_false_set unmarked
    exact Prod.Lex.toLex_lt_toLex.mpr (.inl (by dsimp only; omega))

theorem visit_rounds {fuel : Nat} {work : List Nat} {seen : Array Bool}
    (inside : ∀ b ∈ work, b < seen.size) (edges : ∀ a, ∀ b ∈ g.successors a, b < seen.size)
    (enough : work.length + 2 * seen.count false ≤ fuel) :
    Relation.ReflTransGen g.Round (work, seen) ([], g.visit fuel work seen) := by
  fun_induction visit g fuel work seen with
  | case1 work seen =>
    have none : work = [] := List.eq_nil_of_length_eq_zero (by omega)
    subst none
    exact .refl
  | case2 fuel seen => exact .refl
  | case3 fuel b work seen known ih =>
    have here : b < seen.size := inside b List.mem_cons_self
    have marked : seen[b]? = some true := by
      rw [Array.getD_eq_getD_getElem?, Array.getElem?_eq_getElem here] at known
      rw [Array.getElem?_eq_getElem here]
      exact congrArg some known
    rw [List.length_cons] at enough
    exact .head (.known marked)
      (ih (fun b' later => inside b' (List.mem_cons_of_mem b later)) edges (by omega))
  | case4 fuel b work seen new ih =>
    have here : b < seen.size := inside b List.mem_cons_self
    have unmarked : seen[b]? = some false := by
      rw [Array.getD_eq_getD_getElem?, Array.getElem?_eq_getElem here] at new
      rw [Array.getElem?_eq_getElem here]
      exact congrArg some (Bool.eq_false_iff.mpr new)
    have fewer := count_false_set unmarked
    have two := g.length_successors b
    rw [List.length_cons] at enough
    refine .head (.new unmarked) (ih (fun b' waits => ?_) (fun a b' edge => ?_) ?_)
    · rw [Array.size_setIfInBounds]
      rcases List.mem_append.mp waits with next | later
      · exact edges b b' (List.mem_reverse.mp next)
      · exact inside b' (List.mem_cons_of_mem b later)
    · rw [Array.size_setIfInBounds]
      exact edges a b' edge
    · rw [List.length_append, List.length_reverse]
      omega

/-- The search begins with the first block and without marks. -/
def searchStart (g : FlowGraph) : List Nat × Array Bool :=
  ([0], Array.replicate g.blocks.size false)

theorem rounds_unique {s s₁ s₂ : List Nat × Array Bool}
    (first : Relation.ReflTransGen g.Round s s₁) (last₁ : ∀ s', ¬g.Round s₁ s')
    (second : Relation.ReflTransGen g.Round s s₂) (last₂ : ∀ s', ¬g.Round s₂ s') : s₁ = s₂ := by
  have unique : Relator.RightUnique g.Round := fun _ _ _ => Round.unique
  rcases Relation.ReflTransGen.total_of_right_unique unique first second with on | on
  · rcases Relation.ReflTransGen.cases_head on with same | ⟨s', round, -⟩
    · exact same
    · exact absurd round (last₁ s')
  · rcases Relation.ReflTransGen.cases_head on with same | ⟨s', round, -⟩
    · exact same.symm
    · exact absurd round (last₂ s')

theorem size_pos_build {f : LinearFunction} (ok : build f.codes f.exit = .ok g) :
    0 < g.blocks.size := by
  rw [← length_spans ok]
  exact Nat.lt_of_lt_of_le Nat.one_pos ((Nat.le_max_left 1 _).trans (le_length_spans _))

theorem rounds_reached (some_ : 0 < g.blocks.size)
    (edges : ∀ a, ∀ b ∈ g.successors a, b < g.blocks.size) :
    Relation.ReflTransGen g.Round g.searchStart ([], g.reached) := by
  refine visit_rounds (fun b only => ?_) (fun a b edge => ?_) ?_
  · rw [List.mem_singleton.mp only, Array.size_replicate]
    exact some_
  · rw [Array.size_replicate]
    exact edges a b edge
  · rw [Array.count_replicate_self, List.length_singleton]
    omega

theorem countP_mark (g : FlowGraph) (marks : Nat → Bool) :
    (g.mark marks).blocks.countP (!·.reachable) = (List.range g.blocks.size).countP (!marks ·) := by
  have numbers : List.range g.blocks.size = g.blocks.toList.zipIdx.map Prod.snd := by
    rw [List.zipIdx_map_snd, List.range_eq_range', Array.length_toList]
  rw [← Array.countP_toList, mark, Array.toList_mapIdx, List.mapIdx_eq_zipIdx_map, List.countP_map,
    numbers, List.countP_map]
  rfl

theorem prune_eq (g : FlowGraph) : g.prune =
    ((List.range g.blocks.size).countP (!g.reached.getD · false), g.mark (g.reached.getD · false)) := by
  rw [← countP_mark]
  rfl

theorem prune_mark (g : FlowGraph) (marks : Nat → Bool) : (g.mark marks).prune = g.prune := by
  rw [prune_eq, prune_eq, reached_mark, size_mark, mark_mark]

theorem prune_count (g : FlowGraph) :
    g.prune.1 = {k | k < g.blocks.size ∧ ¬g.Reaches k}.ncard := by
  have listed : {k | k < g.blocks.size ∧ ¬g.Reaches k} =
      (((List.range g.blocks.size).filter (!g.reached.getD · false)).toFinset : Set Nat) := by
    ext k
    simp only [Set.mem_ofPred_eq, List.coe_toFinset, List.mem_filter, List.mem_range]
    refine and_congr_right fun inside => ?_
    rw [← reached_iff inside]
    simp
  rw [listed, Set.ncard_coe_finset, List.toFinset_card_of_nodup (List.nodup_range.filter _),
    ← List.countP_eq_length_filter, prune_eq]

/-- Pruning marks exactly the blocks that a path of edges leads to from the first block, whatever the
flags were before. Its search ends, and not at a block that does not exist; it returns the number of
the other blocks, changes nothing but the flags, changes them once and for all, and all that a marked
block goes to is marked. -/
theorem prune_exact {f : LinearFunction} {g : FlowGraph} (ok : build f.codes f.exit = .ok g)
    (flags : Nat → Bool) :
    (WellFounded fun after before => (g.mark flags).Round before after) ∧
      (∀ s, Relation.ReflTransGen (g.mark flags).Round (g.mark flags).searchStart s →
        (∀ s', ¬(g.mark flags).Round s s') → s = ([], (g.mark flags).reached)) ∧
      (∃ marks, (g.mark flags).prune.2 = g.mark marks ∧
        ∀ k < g.blocks.size, marks k = true ↔ g.Reaches k) ∧
      (g.mark flags).prune.1 = {k | k < g.blocks.size ∧ ¬g.Reaches k}.ncard ∧
      (g.mark flags).prune.2.prune = (g.mark flags).prune ∧
      ∀ (k : Nat) (b : Block), (g.mark flags).prune.2.blocks[k]? = some b → b.reachable = true →
        ∀ k' ∈ b.successors, ∃ b', (g.mark flags).prune.2.blocks[k']? = some b' ∧
          b'.reachable = true := by
  have marked : g.prune.2 = g.mark (g.reached.getD · false) := congrArg Prod.snd g.prune_eq
  have ends : Relation.ReflTransGen (g.mark flags).Round (g.mark flags).searchStart
      ([], (g.mark flags).reached) := by
    refine rounds_reached (by rw [size_mark]; exact size_pos_build ok) fun a b edge => ?_
    rw [successors_mark] at edge
    rw [size_mark]
    exact successors_build ok edge
  rw [prune_mark]
  refine ⟨rounds_end _, fun s run last => rounds_unique run last ends nofun,
    ⟨_, marked, fun k => reached_iff⟩, g.prune_count, ?_, ?_⟩
  · rw [marked, prune_mark]
  · intro k b here reachable k' edge
    rw [marked, getElem?_mark, Option.map_eq_some_iff] at here
    obtain ⟨b₀, here, rfl⟩ := here
    have next : k' ∈ g.successors k := by
      rw [successors, here]
      exact edge
    have inside := successors_build ok next
    have reaches := (reached_iff (Array.getElem?_eq_some_iff.mp here).1).mp reachable
    rw [marked, getElem?_mark, Array.getElem?_eq_getElem inside]
    exact ⟨_, rfl, (reached_iff inside).mpr (reaches.next next)⟩

/-- A jump back and forth, with a code between that nothing reaches. -/
def backAndForth : LinearFunction where
  name := ⟨0⟩
  ret := .void
  params := []
  codes := #[.label ⟨1⟩, .jump ⟨2⟩, .eval ⟨0⟩, .label ⟨2⟩, .branch ⟨0⟩ ⟨1⟩, .ret none, .label ⟨3⟩]
  nodes := #[]
  exit := ⟨3⟩

theorem backAndForth_pruned : ∃ g, build backAndForth.codes backAndForth.exit = .ok g ∧
    (g.mark (· == 1)).prune.1 = 1 ∧
    (∃ marks, (g.mark (· == 1)).prune.2 = g.mark marks ∧
      ∀ k < g.blocks.size, marks k = true ↔ g.Reaches k) ∧
    ¬g.Reaches 1 ∧ g.Reaches 4 := by
  have built : (build backAndForth.codes backAndForth.exit).toOption.map (fun g =>
      (g.blocks.size, (g.mark (· == 1)).prune.1, g.reached)) =
      some (5, 1, #[true, false, true, true, true]) := by decide +kernel
  cases result : build backAndForth.codes backAndForth.exit with
  | error e =>
    rw [result] at built
    cases built
  | ok g =>
    rw [result] at built
    obtain ⟨size, count, reached⟩ : g.blocks.size = 5 ∧ (g.mark (· == 1)).prune.1 = 1 ∧
        g.reached = #[true, false, true, true, true] := by
      simpa [Except.toOption] using built
    refine ⟨g, rfl, count, (prune_exact result (· == 1)).2.2.1, ?_, ?_⟩
    · rw [← reached_iff (by omega), reached]
      decide
    · rw [← reached_iff (by omega), reached]
      decide

end CBackend.FlowGraph
