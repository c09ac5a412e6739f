import CBackend.Proofs.FlowGraph.Search

/-!
The flow graph that compilation uses, pruned or not, models the function: its blocks are the codes in
order, and every way that control may take from a code of a reachable block ends in a reachable
block.
-/

namespace CBackend

namespace FlowGraph

variable {g : FlowGraph} {f : LinearFunction}

/-- The positions of the codes of reachable blocks. -/
def visited (g : FlowGraph) : List Nat := g.reachableBlocks.flatMap Gen.positions

/-- The blocks are the codes of a function in order, and control that is in a reachable block stays
in reachable blocks. -/
structure Models (g : FlowGraph) (f : LinearFunction) : Prop where
  positions : g.blocks.toList.flatMap Gen.positions = List.range f.codes.size
  begins : 0 ∈ g.visited
  closed : ∀ i j, i ∈ g.visited → f.Follows i j → j ∈ g.visited

theorem Models.sorted (models : g.Models f) : g.visited.Pairwise (· < ·) := by
  refine (List.pairwise_lt_range (n := f.codes.size)).sublist ?_
  rw [← models.positions]
  exact List.Sublist.flatMap List.filter_sublist _

theorem Models.inside (models : g.Models f) {i : Nat} (visits : i ∈ g.visited) :
    i < f.codes.size := by
  rw [← List.mem_range, ← models.positions]
  exact (List.Sublist.flatMap List.filter_sublist _).subset visits

theorem mem_visited_mark {marks : Nat → Bool} {i : Nat} :
    i ∈ (g.mark marks).visited ↔ ∃ (k : Nat) (b : Block), g.blocks[k]? = some b ∧
      marks k = true ∧ b.span.start ≤ i ∧ i < b.span.stop := by
  have inside (s : Span) : i ∈ List.range' s.start (s.stop - s.start) ↔
      s.start ≤ i ∧ i < s.stop := by
    rw [List.mem_range'_1]
    omega
  simp only [visited, reachableBlocks, mark, List.mem_flatMap, List.mem_filter, Gen.positions,
    Array.mem_toList_iff, Array.mem_iff_getElem?, Array.getElem?_mapIdx, Option.map_eq_some_iff]
  constructor
  · rintro ⟨_, ⟨⟨k, b, found, rfl⟩, marked⟩, place⟩
    exact ⟨k, b, found, marked, (inside _).mp place⟩
  · rintro ⟨k, b, found, marked, place⟩
    exact ⟨_, ⟨⟨k, b, found, rfl⟩, marked⟩, (inside _).mpr place⟩

theorem positions_mark (marks : Nat → Bool) :
    (g.mark marks).blocks.toList.flatMap Gen.positions = g.blocks.toList.flatMap Gen.positions := by
  rw [List.flatMap_def, List.flatMap_def]
  congr 1
  apply List.ext_getElem?
  intro k
  simp only [List.getElem?_map, Array.getElem?_toList, getElem?_mark, Option.map_map]
  rfl

theorem models_mark (ok : build f.codes f.exit = .ok g) (unique : f.LabelsUnique)
    (some_ : 0 < f.codes.size) (marks : Nat → Bool)
    (first : ∀ b, g.blocks[0]? = some b → marks 0 = true)
    (closed : ∀ (k k' : Nat) (b b' : Block), g.blocks[k]? = some b → g.blocks[k']? = some b' →
      marks k = true → k' ∈ b.successors → marks k' = true) : (g.mark marks).Models f := by
  refine ⟨?_, ?_, ?_⟩
  · rw [positions_mark, flatMap_positions ok]
  · obtain ⟨b, here, start⟩ := first_block ok some_
    have upTo := start_lt_build ok some_ here
    exact mem_visited_mark.mpr ⟨0, b, here, first b here, by omega, by omega⟩
  · intro i j visited follows
    obtain ⟨k, b, here, marked, place⟩ := mem_visited_mark.mp visited
    cases steps_of_follows ok unique follows with
    | within block after more =>
      cases block_unique ok here block place ⟨after, by omega⟩
      exact mem_visited_mark.mpr ⟨k, _, block, marked, by omega, more⟩
    | across block after last edge there more =>
      cases block_unique ok here block place ⟨after, by omega⟩
      exact mem_visited_mark.mpr
        ⟨_, _, there, closed _ _ _ _ block there marked edge, Nat.le_refl _, more⟩

theorem mark_eq_self {codes : Array Code} {exit : Symbol} (ok : build codes exit = .ok g) :
    g.mark (fun _ => true) = g := by
  obtain ⟨-, made⟩ := build_eq_ok ok
  have each (i : Nat) : (g.mark fun _ => true).blocks[i]? = g.blocks[i]? := by
    rw [mark, Array.getElem?_mapIdx]
    cases found : g.blocks[i]? with
    | none => rfl
    | some b =>
      have marked := (block_eq_ok (made i b found)).2.1
      obtain ⟨span, next, taken, reachable⟩ := b
      cases marked
      rfl
  exact congrArg FlowGraph.mk (Array.ext_getElem? each)

theorem build_models (ok : build f.codes f.exit = .ok g) (unique : f.LabelsUnique)
    (some_ : 0 < f.codes.size) : g.Models f := by
  rw [← mark_eq_self ok]
  exact models_mark ok unique some_ _ (fun _ _ => rfl) fun _ _ _ _ _ _ _ _ => rfl

theorem prune_models (ok : build f.codes f.exit = .ok g) (unique : f.LabelsUnique)
    (some_ : 0 < f.codes.size) : g.prune.2.Models f := by
  have inside {k : Nat} {b : Block} (found : g.blocks[k]? = some b) : k < g.blocks.size :=
    (Array.getElem?_eq_some_iff.mp found).1
  refine models_mark ok unique some_ (g.reached.getD · false) ?_ ?_
  · intro b found
    exact (reached_iff (inside found)).mpr .refl
  · intro k k' b b' found found' marked edge
    have next : k' ∈ g.successors k := by rw [successors, found]; exact edge
    exact (reached_iff (inside found')).mpr (((reached_iff (inside found)).mp marked).next next)

end FlowGraph

theorem Gen.flowGraph_eq_ok {f : LinearFunction} {g g' : Generator} {graph : FlowGraph}
    (ok : Gen.flowGraph f g = .ok graph g') :
    ∃ built, FlowGraph.build f.codes f.exit = .ok built ∧ (graph = built ∨ graph = built.prune.2) ∧
      g' = { g with stats := g'.stats } := by
  obtain ⟨built, g₁, made, ok⟩ := bind_eq_ok.mp ok
  cases result : FlowGraph.build f.codes f.exit with
  | error e =>
    rw [result] at made
    exact absurd made throw_ne_ok
  | ok built' =>
    rw [result] at made
    obtain ⟨rfl, rfl⟩ := pure_eq_ok.mp made
    obtain ⟨options, g₂, read, ok⟩ := bind_eq_ok.mp ok
    obtain ⟨rfl, rfl⟩ := get_eq_ok.mp read
    refine ⟨built', rfl, ?_⟩
    split at ok
    · obtain ⟨_, g₃, noted, ok⟩ := bind_eq_ok.mp ok
      obtain ⟨rfl, rfl⟩ := pure_eq_ok.mp ok
      refine ⟨.inr rfl, ?_⟩
      rw [← modify_eq_ok.mp noted]
    · obtain ⟨rfl, rfl⟩ := pure_eq_ok.mp ok
      exact ⟨.inl rfl, rfl⟩

theorem Gen.flowGraph_models {f : LinearFunction} {g g' : Generator} {graph : FlowGraph}
    (ok : Gen.flowGraph f g = .ok graph g') (unique : f.LabelsUnique) (some_ : 0 < f.codes.size) :
    graph.Models f ∧ g' = { g with stats := g'.stats } := by
  obtain ⟨built, result, rfl | rfl, same⟩ := flowGraph_eq_ok ok
  · exact ⟨FlowGraph.build_models result unique some_, same⟩
  · exact ⟨FlowGraph.prune_models result unique some_, same⟩

end CBackend
