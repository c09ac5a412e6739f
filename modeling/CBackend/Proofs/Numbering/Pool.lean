import CBackend.ValuePool

/-!
What a pool of values does with one computation. A computation that is in the table has the number
there, and any other gets the next one, if need be after everything has been forgotten.
-/

namespace CBackend.ValuePool

variable {p : ValuePool} {k : ValueKey} {a : NodeId}

def numberIn? (table : List (ValueKey × NodeId)) (key : ValueKey) : Option NodeId :=
  (table.find? fun entry => decide (entry.1 = key)).map Prod.snd

theorem lookup?_eq (p : ValuePool) (key : ValueKey) : p.lookup? key = numberIn? p.table key := rfl

theorem numberIn?_cons (key key' : ValueKey) (id : NodeId) (table : List (ValueKey × NodeId)) :
    numberIn? ((key', id) :: table) key = if key' = key then some id else numberIn? table key := by
  by_cases same : key' = key <;> simp [numberIn?, same]

theorem numberIn?_filter (keep : ValueKey → Bool) (key : ValueKey)
    (table : List (ValueKey × NodeId)) :
    numberIn? (table.filter fun entry => keep entry.1) key =
      if keep key then numberIn? table key else none := by
  induction table with
  | nil => simp [numberIn?]
  | cons e table ih =>
    obtain ⟨key', id⟩ := e
    rw [List.filter_cons, numberIn?_cons]
    by_cases same : key' = key
    · subst same
      cases kept : keep key' with
      | true => simp [numberIn?_cons]
      | false => simp [kept, ih]
    · rw [if_neg same, ← ih]
      split
      · rw [numberIn?_cons, if_neg same]
      · rfl

theorem mem_of_lookup? (found : p.lookup? k = some a) : (k, a) ∈ p.table := by
  obtain ⟨e, entry, rfl⟩ := Option.map_eq_some_iff.mp found
  have same := List.find?_some entry
  rw [decide_eq_true_eq] at same
  rw [← same]
  exact List.mem_of_find?_eq_some entry

def room (p : ValuePool) : ValuePool := if p.capacity ≤ p.table.length then p.reset else p

theorem nodes_room (p : ValuePool) : p.room.nodes = p.nodes := by
  unfold room
  split <;> rfl

theorem size_room (p : ValuePool) : p.room.size = p.size := congrArg Array.size p.nodes_room

/-- The pool with one more node, which is in the table. -/
def enter (p : ValuePool) (key : ValueKey) : ValuePool :=
  { p with
    misses := p.misses + 1
    nodes := p.nodes.push { key, generation := p.generation }
    table := (key, ⟨p.size⟩) :: p.table }

theorem intern_hit (found : p.lookup? k = some a) :
    p.intern k = (a, { p with hits := p.hits + 1 }) := by
  simp [intern, found]

theorem intern_miss (missing : p.lookup? k = none) :
    p.intern k = (⟨p.size⟩, p.room.enter k) := by
  simp only [intern, missing, push, room]
  split <;> rfl

theorem intern_eq_iff (issued : a.index < p.size) : (p.intern k).1 = a ↔ p.lookup? k = some a := by
  cases found : p.lookup? k with
  | some b => rw [intern_hit found, Option.some_inj]
  | none =>
    rw [intern_miss found]
    refine ⟨?_, nofun⟩
    rintro rfl
    exact absurd issued (Nat.lt_irrefl _)

theorem lookup?_intern : (p.intern k).2.lookup? k = some (p.intern k).1 := by
  cases found : p.lookup? k with
  | some b => rw [intern_hit found]; exact found
  | none => rw [intern_miss found, lookup?_eq, enter, numberIn?_cons, if_pos rfl, size_room]

def keys (p : ValuePool) : List ValueKey := p.nodes.toList.map ValueNode.key

theorem length_keys (p : ValuePool) : p.keys.length = p.size := by simp [keys, size]

theorem key_node (p : ValuePool) (id : NodeId) :
    (p.node id).key = p.keys.getD id.index default := by
  simp only [node, keys, List.getD_eq_getElem?_getD, List.getElem?_map, Array.getElem?_toList,
    Array.getD_eq_getD_getElem?]
  cases p.nodes[id.index]? <;> rfl

theorem keys_modify (p : ValuePool) (id : NodeId) {change : ValueNode → ValueNode}
    (same : ∀ n, (change n).key = n.key) : (p.modify id change).keys = p.keys := by
  apply List.ext_getElem?
  intro i
  simp only [keys, modify, List.getElem?_map, Array.getElem?_toList, Array.getElem?_modify]
  split
  · cases p.nodes[i]? with
    | none => rfl
    | some n => simp [same]
  · rfl

@[simp] theorem keys_push (p : ValuePool) (k : ValueKey) (aux : Int) :
    (p.push k aux).2.keys = p.keys ++ [k] := by
  simp [keys, push]

@[simp] theorem fst_push (p : ValuePool) (k : ValueKey) (aux : Int) :
    (p.push k aux).1 = ⟨p.keys.length⟩ := by
  simp [keys, push, size]

theorem intern_cases (p : ValuePool) (k : ValueKey) :
    (k, (p.intern k).1) ∈ p.table ∧ (p.intern k).2.keys = p.keys ∧
        (p.intern k).2.table = p.table ∨
      (p.intern k).1 = ⟨p.keys.length⟩ ∧ (p.intern k).2.keys = p.keys ++ [k] ∧
        ∃ kept, (kept = p.table ∨ kept = []) ∧
          (p.intern k).2.table = (k, ⟨p.keys.length⟩) :: kept := by
  cases found : p.lookup? k with
  | some id =>
    rw [intern_hit found]
    exact .inl ⟨mem_of_lookup? found, rfl, rfl⟩
  | none =>
    rw [intern_miss found, length_keys]
    refine .inr ⟨rfl, by simp [keys, enter, nodes_room], p.room.table, ?_, ?_⟩
    · unfold room
      split
      · exact .inr rfl
      · exact .inl rfl
    · rw [enter, size_room]

end CBackend.ValuePool
