import Mathlib.Data.List.Chain
import Mathlib.Data.List.Nodup
import Mathlib.Data.List.Perm.Subperm
import CBackend.InstrList

/-!
Instruction lists as sequences. The cells of a list and the outside of it form a ring in which
neighbours know each other; reading the list from its head gives the cells of the ring in order.
-/

namespace CBackend.InstrList

/-- The cell after a cell, where the first cell comes after the outside of the list. -/
def nextOf (l : InstrList) : Option InstrId → Option InstrId
  | none => l.head
  | some id => (l.cell? id).bind InstrCell.next

/-- The cell before a cell, where the last cell comes before the outside of the list. -/
def prevOf (l : InstrList) : Option InstrId → Option InstrId
  | none => l.tail
  | some id => (l.cell? id).bind InstrCell.prev

def Joined (l : InstrList) (p q : Option InstrId) : Prop := l.nextOf p = q ∧ l.prevOf q = p

structure Links (l : InstrList) (ids : List InstrId) : Prop where
  ring : List.IsChain l.Joined ((none :: ids.map some) ++ [none])
  distinct : ids.Nodup
  filled : ∀ id ∈ ids, ∃ i, l.get? id = some i
  free : ∀ id, id ∈ l.free ↔ id.index < l.cells.size ∧ id ∉ ids
  freeDistinct : l.free.Nodup
  size : l.size = ids.length

variable {l : InstrList} {ids : List InstrId} {id : InstrId} {p q x : Option InstrId}
  {f : InstrCell → InstrCell} {i : Instr} {count : Nat}

theorem cell?_modifyCell (l : InstrList) (id : InstrId) (f : InstrCell → InstrCell) (x : InstrId) :
    (l.modifyCell id f).cell? x = if x = id then (l.cell? x).map f else l.cell? x := by
  obtain ⟨n⟩ := id
  obtain ⟨m⟩ := x
  simp only [modifyCell, cell?, Array.getElem?_modify, InstrId.mk.injEq]
  by_cases same : n = m
  · subst same
    simp
  · simp [same, Ne.symm same]

theorem nextOf_modifyCell (same : ∀ c, (f c).next = c.next) (x : Option InstrId) :
    (l.modifyCell id f).nextOf x = l.nextOf x := by
  cases x with
  | none => rfl
  | some k =>
    rw [nextOf, nextOf, cell?_modifyCell]
    split
    · cases l.cell? k with
      | none => rfl
      | some c => exact same c
    · rfl

theorem prevOf_modifyCell (same : ∀ c, (f c).prev = c.prev) (x : Option InstrId) :
    (l.modifyCell id f).prevOf x = l.prevOf x := by
  cases x with
  | none => rfl
  | some k =>
    rw [prevOf, prevOf, cell?_modifyCell]
    split
    · cases l.cell? k with
      | none => rfl
      | some c => exact same c
    · rfl

def Inside (l : InstrList) (p : Option InstrId) : Prop := ∀ id, p = some id → (l.cell? id).isSome

def setNext (l : InstrList) (p q : Option InstrId) : InstrList :=
  match p with
  | some k => l.modifyCell k fun c => { c with next := q }
  | none => { l with head := q }

def setPrev (l : InstrList) (p q : Option InstrId) : InstrList :=
  match q with
  | some k => l.modifyCell k fun c => { c with prev := p }
  | none => { l with tail := p }

theorem join_eq (l : InstrList) (p q : Option InstrId) : l.join p q = (l.setNext p q).setPrev p q := by
  cases p <;> rfl

theorem nextOf_setNext (inside : l.Inside p) (x : Option InstrId) :
    (l.setNext p q).nextOf x = if x = p then q else l.nextOf x := by
  cases p with
  | none => cases x <;> rfl
  | some k =>
    cases x with
    | none => rfl
    | some id =>
      obtain ⟨c, found⟩ := Option.isSome_iff_exists.mp (inside k rfl)
      rw [nextOf, setNext, cell?_modifyCell]
      by_cases same : id = k
      · subst same
        simp [found]
      · simp [same, nextOf]

theorem prevOf_setPrev (inside : l.Inside q) (x : Option InstrId) :
    (l.setPrev p q).prevOf x = if x = q then p else l.prevOf x := by
  cases q with
  | none => cases x <;> rfl
  | some k =>
    cases x with
    | none => rfl
    | some id =>
      obtain ⟨c, found⟩ := Option.isSome_iff_exists.mp (inside k rfl)
      rw [prevOf, setPrev, cell?_modifyCell]
      by_cases same : id = k
      · subst same
        simp [found]
      · simp [same, prevOf]

theorem nextOf_setPrev (x : Option InstrId) : (l.setPrev p q).nextOf x = l.nextOf x := by
  cases q with
  | none => cases x <;> rfl
  | some k => exact nextOf_modifyCell (f := fun c => { c with prev := p }) (fun _ => rfl) x

theorem prevOf_setNext (x : Option InstrId) : (l.setNext p q).prevOf x = l.prevOf x := by
  cases p with
  | none => cases x <;> rfl
  | some k => exact prevOf_modifyCell (f := fun c => { c with next := q }) (fun _ => rfl) x

theorem size_cells_join (l : InstrList) (p q : Option InstrId) :
    (l.join p q).cells.size = l.cells.size := by
  cases p <;> cases q <;> simp [join, modifyCell]

theorem inside_iff_lt : l.Inside (some id) ↔ id.index < l.cells.size := by
  simp [Inside, cell?]

theorem inside_congr {l' : InstrList} (size : l'.cells.size = l.cells.size) :
    l'.Inside x ↔ l.Inside x := by
  cases x with
  | none => simp [Inside]
  | some id => rw [inside_iff_lt, inside_iff_lt, size]

theorem inside_setNext : (l.setNext p q).Inside x ↔ l.Inside x :=
  inside_congr (by cases p <;> simp [setNext, modifyCell])

theorem nextOf_join (inside : l.Inside p) (x : Option InstrId) :
    (l.join p q).nextOf x = if x = p then q else l.nextOf x := by
  rw [join_eq, nextOf_setPrev, nextOf_setNext inside]

theorem prevOf_join (inside : l.Inside q) (x : Option InstrId) :
    (l.join p q).prevOf x = if x = q then p else l.prevOf x := by
  rw [join_eq, prevOf_setPrev (inside_setNext.mpr inside), prevOf_setNext]

theorem get?_modifyCell (same : ∀ c, (f c).instr = c.instr) (x : InstrId) :
    (l.modifyCell id f).get? x = l.get? x := by
  rw [get?, get?, cell?_modifyCell]
  split
  · cases l.cell? x with
    | none => rfl
    | some c => exact same c
  · rfl

theorem get?_join (l : InstrList) (p q : Option InstrId) (id : InstrId) :
    (l.join p q).get? id = l.get? id := by
  have first : (l.setNext p q).get? id = l.get? id := by
    cases p with
    | none => rfl
    | some k => exact get?_modifyCell (f := fun c => { c with next := q }) (fun _ => rfl) id
  rw [join_eq, ← first]
  cases q with
  | none => rfl
  | some k => exact get?_modifyCell (f := fun c => { c with prev := p }) (fun _ => rfl) id

theorem isChain_of_eq {l' : InstrList} {zs : List (Option InstrId)} (chain : zs.IsChain l.Joined)
    (next : ∀ x ∈ zs.dropLast, l'.nextOf x = l.nextOf x)
    (prev : ∀ y ∈ zs.tail, l'.prevOf y = l.prevOf y) : zs.IsChain l'.Joined := by
  rw [List.isChain_iff_getElem] at chain ⊢
  intro i bound
  obtain ⟨forth, back⟩ := chain i bound
  refine ⟨(next _ ?_).trans forth, (prev _ ?_).trans back⟩
  · have short : i < zs.dropLast.length := by
      rw [List.length_dropLast]
      omega
    rw [← List.getElem_dropLast short]
    exact List.getElem_mem short
  · have short : i < zs.tail.length := by
      rw [List.length_tail]
      omega
    rw [← List.getElem_tail short]
    exact List.getElem_mem short

theorem isChain_join {xs ys : List (Option InstrId)} (before : (xs ++ [p]).IsChain l.Joined)
    (after : (q :: ys).IsChain l.Joined) (last : p ∉ xs ++ (q :: ys).dropLast)
    (first : q ∉ (xs ++ [p]).tail ++ ys) (insideP : l.Inside p) (insideQ : l.Inside q) :
    (xs ++ [p] ++ q :: ys).IsChain (l.join p q).Joined := by
  have next (x : Option InstrId) (here : x ∈ xs ++ (q :: ys).dropLast) :
      (l.join p q).nextOf x = l.nextOf x := by
    rw [nextOf_join insideP, if_neg]
    rintro rfl
    exact last here
  have prev (y : Option InstrId) (here : y ∈ (xs ++ [p]).tail ++ ys) :
      (l.join p q).prevOf y = l.prevOf y := by
    rw [prevOf_join insideQ, if_neg]
    rintro rfl
    exact first here
  rw [List.isChain_append]
  refine ⟨isChain_of_eq before (fun x here => ?_) fun y here => ?_,
    isChain_of_eq after (fun x here => ?_) fun y here => ?_, ?_⟩
  · rw [List.dropLast_concat] at here
    exact next x (List.mem_append_left _ here)
  · exact prev y (List.mem_append_left _ here)
  · exact next x (List.mem_append_right _ here)
  · exact prev y (List.mem_append_right _ here)
  · intro x end' y start
    rw [List.getLast?_concat, Option.mem_some] at end'
    rw [List.head?_cons, Option.mem_some] at start
    subst end' start
    exact ⟨by rw [nextOf_join insideP, if_pos rfl], by rw [prevOf_join insideQ, if_pos rfl]⟩

theorem inside_join : (l.join p q).Inside x ↔ l.Inside x :=
  inside_congr (size_cells_join l p q)

theorem isChain_link {xs ys : List (Option InstrId)} (before : (xs ++ [p]).IsChain l.Joined)
    (after : (q :: ys).IsChain l.Joined) (last : p ∉ xs ++ (q :: ys).dropLast)
    (first : q ∉ (xs ++ [p]).tail ++ ys) (fresh : some id ∉ xs ++ [p]) (fresh' : some id ∉ q :: ys)
    (insideP : l.Inside p) (insideQ : l.Inside q) (inside : l.Inside (some id)) :
    (xs ++ [p] ++ some id :: q :: ys).IsChain (l.link id p q).Joined := by
  rw [List.mem_append, not_or] at last first
  have start : (xs ++ [p] ++ [some id]).IsChain (l.join p (some id)).Joined := by
    refine isChain_join before (List.isChain_singleton _) (by simpa using last.1) ?_ insideP inside
    rw [List.append_nil]
    exact fun here => fresh (List.mem_of_mem_tail here)
  have rest : (q :: ys).IsChain (l.join p (some id)).Joined := by
    refine isChain_of_eq after (fun x here => ?_) fun y here => ?_
    · rw [nextOf_join insideP, if_neg]
      rintro rfl
      exact last.2 here
    · rw [prevOf_join inside, if_neg]
      rintro rfl
      exact fresh' (List.mem_of_mem_tail here)
  have whole := isChain_join (p := some id) (q := q) start rest ?_ ?_ (inside_join.mpr inside)
    (inside_join.mpr insideQ)
  · simpa [link] using whole
  · rw [List.mem_append, not_or]
    exact ⟨fresh, fun here => fresh' (List.dropLast_subset _ here)⟩
  · rw [List.tail_append_of_ne_nil (by simp)]
    simp only [List.mem_append, List.mem_singleton, not_or]
    exact ⟨⟨first.1, fun same => fresh' (same ▸ List.mem_cons_self)⟩, first.2⟩

theorem Links.inside (links : l.Links ids) (here : id ∈ ids) : id.index < l.cells.size := by
  obtain ⟨i, found⟩ := links.filled id here
  rw [get?, Option.bind_eq_some_iff] at found
  obtain ⟨c, found, -⟩ := found
  exact (Array.getElem?_eq_some_iff.mp found).1

/-- A cell that was not in use has been given out for an instruction. -/
structure Gives (l : InstrList) (ids : List InstrId) (i : Instr) (id : InstrId) (l' : InstrList) :
    Prop where
  fresh : id ∉ ids
  inside : id.index < l'.cells.size
  filled : l'.get? id = some i
  cells : ∀ k, k ≠ id → l'.cell? k = l.cell? k
  head : l'.head = l.head
  tail : l'.tail = l.tail
  size : l'.size = l.size + 1
  freeDistinct : l'.free.Nodup
  free : ∀ k, k ∈ l'.free ↔ k.index < l'.cells.size ∧ k ∉ ids ++ [id]

theorem Links.alloc (links : l.Links ids) (i : Instr) :
    l.Gives ids i (l.alloc i).1 (l.alloc i).2 := by
  unfold InstrList.alloc
  have free := links.free
  have freeDistinct := links.freeDistinct
  cases unused : l.free with
  | nil =>
    rw [unused] at free
    have outside : (⟨l.cells.size⟩ : InstrId) ∉ ids := fun here =>
      Nat.lt_irrefl _ (links.inside here)
    refine ⟨outside, ?_, ?_, fun id other => ?_, rfl, rfl, rfl, List.nodup_nil, fun id => ?_⟩
    · simp
    · simp [get?, cell?]
    · obtain ⟨n⟩ := id
      have other : n ≠ l.cells.size := fun same => other (congrArg InstrId.mk same)
      simp [cell?, Array.getElem?_push, other]
    · obtain ⟨n⟩ := id
      have none := free ⟨n⟩
      simp only [List.not_mem_nil, false_iff, not_and, Classical.not_not] at none
      simp only [List.not_mem_nil, Array.size_push, List.mem_append, List.mem_singleton,
        InstrId.mk.injEq, false_iff, not_and, Classical.not_not]
      intro bound
      rcases Nat.lt_or_eq_of_le (Nat.le_of_lt_succ bound) with below | same
      · exact .inl (none below)
      · exact .inr same
  | cons id rest =>
    rw [unused] at free freeDistinct
    obtain ⟨bound, outside⟩ := (free id).mp List.mem_cons_self
    refine ⟨outside, ?_, ?_, fun k other => ?_, rfl, rfl, rfl, (List.nodup_cons.mp freeDistinct).2,
      fun k => ?_⟩
    · simpa using bound
    · simp [get?, cell?, bound]
    · obtain ⟨n⟩ := id
      obtain ⟨m⟩ := k
      have other : n ≠ m := fun same => other (congrArg InstrId.mk same.symm)
      simp [cell?, other]
    · have same := free k
      rw [List.mem_cons] at same
      simp only [Array.size_setIfInBounds, List.mem_append, List.mem_singleton, not_or]
      constructor
      · intro here
        obtain ⟨inside, unlisted⟩ := same.mp (.inr here)
        refine ⟨inside, unlisted, ?_⟩
        rintro rfl
        exact (List.nodup_cons.mp freeDistinct).1 here
      · rintro ⟨inside, unlisted, other⟩
        exact (same.mpr ⟨inside, unlisted⟩).resolve_left other

theorem free_join (l : InstrList) (p q : Option InstrId) : (l.join p q).free = l.free := by
  cases p <;> cases q <;> rfl

theorem size_join (l : InstrList) (p q : Option InstrId) : (l.join p q).size = l.size := by
  cases p <;> cases q <;> rfl

theorem get?_link (l : InstrList) (id : InstrId) (p q : Option InstrId) (k : InstrId) :
    (l.link id p q).get? k = l.get? k := by
  rw [link, get?_join, get?_join]

theorem exists_before (xs : List InstrId) : ∃ zs, none :: xs.map some = zs ++ [xs.getLast?] := by
  rcases List.eq_nil_or_concat xs with rfl | ⟨xs, x, rfl⟩
  · exact ⟨[], rfl⟩
  · exact ⟨none :: xs.map some, by simp⟩

theorem exists_after (ys : List InstrId) : ∃ zs, ys.map some ++ [none] = ys.head? :: zs := by
  cases ys with
  | nil => exact ⟨[], rfl⟩
  | cons y ys => exact ⟨ys.map some ++ [none], rfl⟩

theorem ring_append (xs ys : List InstrId) :
    none :: (xs ++ ys).map some ++ [none] = none :: xs.map some ++ (ys.map some ++ [none]) := by
  simp

variable {xs ys : List InstrId}

theorem Links.neighbours (links : l.Links (xs ++ ys)) :
    l.nextOf xs.getLast? = ys.head? ∧ l.prevOf ys.head? = xs.getLast? := by
  obtain ⟨before, left⟩ := exists_before xs
  obtain ⟨after, right⟩ := exists_after ys
  have ring := links.ring
  rw [ring_append, left, right, List.isChain_append] at ring
  exact ring.2.2 _ (by simp) _ (by simp)

theorem Gives.known {l₁ : InstrList} (gives : l.Gives ids i id l₁) (links : l.Links ids)
    (here : ∀ k, x = some k → k ∈ ids) :
    l₁.nextOf x = l.nextOf x ∧ l₁.prevOf x = l.prevOf x ∧ l₁.Inside x := by
  cases x with
  | none => exact ⟨gives.head, gives.tail, nofun⟩
  | some k =>
    have cell := gives.cells k fun same => gives.fresh (same ▸ here k rfl)
    have inside := links.inside (here k rfl)
    refine ⟨by rw [nextOf, nextOf, cell], by rw [prevOf, prevOf, cell], ?_⟩
    rintro k' ⟨⟩
    rw [cell]
    simpa [cell?] using inside

theorem ends_apart {zs ws : List (Option InstrId)} (distinct : (xs ++ ys).Nodup)
    (left : none :: xs.map some = zs ++ [xs.getLast?])
    (right : ys.map some ++ [none] = ys.head? :: ws) :
    xs.getLast? ∉ zs ++ (ys.head? :: ws).dropLast ∧
      ys.head? ∉ (zs ++ [xs.getLast?]).tail ++ ws := by
  have all : ((xs ++ ys).map some).Nodup := distinct.map fun _ _ => Option.some.inj
  rw [← left, ← right, List.dropLast_concat, List.tail_cons]
  constructor
  · have whole : (none :: (xs ++ ys).map some).Nodup := List.nodup_cons.mpr ⟨by simp, all⟩
    rw [List.map_append, ← List.cons_append, left, List.append_assoc] at whole
    exact (List.nodup_cons.mp (List.nodup_middle.mp whole)).1
  · have whole : ((xs ++ ys).map some ++ [none]).Nodup :=
      all.append (List.nodup_singleton _) (by simp)
    rw [List.map_append, List.append_assoc, right] at whole
    exact (List.nodup_cons.mp (List.nodup_middle.mp whole)).1

theorem Links.splice {l₁ : InstrList} (links : l.Links (xs ++ ys))
    (gives : l.Gives (xs ++ ys) i id l₁) :
    (l₁.link id xs.getLast? ys.head?).Links (xs ++ id :: ys) := by
  have distinct := links.distinct
  have fresh := gives.fresh
  have ring : (none :: (xs ++ id :: ys).map some ++ [none]).IsChain
      (l₁.link id xs.getLast? ys.head?).Joined := by
    obtain ⟨before, left⟩ := exists_before xs
    obtain ⟨after, right⟩ := exists_after ys
    have known {x : Option InstrId} (here : x ∈ none :: xs.map some ∨ x ∈ ys.map some ++ [none]) :=
      gives.known links (x := x) (by rintro k rfl; simpa using here)
    obtain ⟨last, first⟩ := ends_apart distinct left right
    have old := links.ring
    rw [ring_append, List.isChain_append] at old
    rw [ring_append, left, List.map_cons, List.cons_append, right]
    refine isChain_link ?_ ?_ last first ?_ ?_ ?_ ?_ (inside_iff_lt.mpr gives.inside)
    · rw [← left]
      exact isChain_of_eq old.1 (fun x here => (known (.inl (List.dropLast_subset _ here))).1)
        fun y here => (known (.inl (List.mem_of_mem_tail here))).2.1
    · rw [← right]
      exact isChain_of_eq old.2.1 (fun x here => (known (.inr (List.dropLast_subset _ here))).1)
        fun y here => (known (.inr (List.mem_of_mem_tail here))).2.1
    · rw [← left]
      simpa using fun here => fresh (List.mem_append_left _ here)
    · rw [← right]
      simpa using fun here => fresh (List.mem_append_right _ here)
    · exact (known (.inl (by simp [left]))).2.2
    · exact (known (.inr (by simp [right]))).2.2
  refine ⟨ring, ?_, ?_, ?_, ?_, ?_⟩
  · exact List.nodup_middle.mpr (List.nodup_cons.mpr ⟨fresh, distinct⟩)
  · intro k here
    rw [get?_link]
    rcases List.mem_cons.mp (List.perm_middle.mem_iff.mp here) with rfl | old
    · exact ⟨i, gives.filled⟩
    · rw [get?, gives.cells k fun same => fresh (same ▸ old)]
      exact links.filled k old
  · intro k
    have same : k ∈ xs ++ ys ++ [id] ↔ k ∈ xs ++ id :: ys := by simp [or_comm, or_left_comm]
    rw [link, free_join, free_join, size_cells_join, size_cells_join, gives.free, same]
  · rw [link, free_join, free_join]
    exact gives.freeDistinct
  · rw [link, size_join, size_join, gives.size, links.size, List.perm_middle.length_eq,
      List.length_cons]

theorem append_eq (l : InstrList) (i : Instr) :
    l.append i =
      ((l.alloc i).1, (l.alloc i).2.link (l.alloc i).1 ((l.alloc i).2.prevOf none) none) := rfl

theorem insertBefore_eq (l : InstrList) (at' : InstrId) (i : Instr) :
    l.insertBefore at' i = ((l.alloc i).1,
      (l.alloc i).2.link (l.alloc i).1 ((l.alloc i).2.prevOf (some at')) (some at')) := rfl

theorem insertAfter_eq (l : InstrList) (at' : InstrId) (i : Instr) :
    l.insertAfter at' i = ((l.alloc i).1,
      (l.alloc i).2.link (l.alloc i).1 (some at') ((l.alloc i).2.nextOf (some at'))) := rfl

theorem Links.append (links : l.Links ids) (i : Instr) :
    (l.append i).2.Links (ids ++ [(l.append i).1]) := by
  have gives := links.alloc i
  have last : (l.alloc i).2.prevOf none = ids.getLast? := by
    rw [(gives.known links (by rintro k ⟨⟩)).2.1]
    exact (show l.Links (ids ++ []) by rwa [List.append_nil]).neighbours.2
  rw [← List.append_nil ids] at links gives
  rw [append_eq, last]
  exact links.splice gives

theorem Links.insertBefore {at' : InstrId} (links : l.Links (xs ++ at' :: ys)) (i : Instr) :
    (l.insertBefore at' i).2.Links (xs ++ (l.insertBefore at' i).1 :: at' :: ys) := by
  have gives := links.alloc i
  have before : (l.alloc i).2.prevOf (some at') = xs.getLast? :=
    (gives.known links (by rintro k ⟨⟩; simp)).2.1.trans links.neighbours.2
  rw [insertBefore_eq, before]
  exact links.splice gives

theorem Links.insertAfter {at' : InstrId} (links : l.Links (xs ++ at' :: ys)) (i : Instr) :
    (l.insertAfter at' i).2.Links (xs ++ at' :: (l.insertAfter at' i).1 :: ys) := by
  have gives := links.alloc i
  rw [List.append_cons] at links gives ⊢
  have here : (xs ++ [at']).getLast? = some at' := List.getLast?_concat
  have after : (l.alloc i).2.nextOf (some at') = ys.head? := by
    rw [(gives.known links (by rintro k ⟨⟩; simp)).1, ← here]
    exact links.neighbours.1
  rw [insertAfter_eq, after, ← here]
  exact links.splice gives

theorem Links.get?_alloc (links : l.Links ids) (i : Instr) (k : InstrId) :
    (l.alloc i).2.get? k = if k = (l.alloc i).1 then some i else l.get? k := by
  have gives := links.alloc i
  split
  · rename_i same
    rw [same, gives.filled]
  · rename_i other
    rw [get?, get?, gives.cells k other]

theorem remove_of_get? (found : l.get? id = some i) :
    l.remove id = (some i,
      { (l.modifyCell id fun c => { c with instr := none }).join (l.prevOf (some id))
          (l.nextOf (some id)) with
        free := id :: l.free
        size := l.size - 1 }) := by
  rw [get?, Option.bind_eq_some_iff] at found
  obtain ⟨⟨instr, prev, next⟩, cell, full⟩ := found
  cases full
  simp only [remove, cell, prevOf, nextOf, Option.bind_some, free_join, size_join]
  rfl

theorem remove_of_get?_eq_none (dead : l.get? id = none) : l.remove id = (none, l) := by
  rw [get?, Option.bind_eq_none_iff] at dead
  unfold remove
  split
  · rename_i cell
    exact absurd (dead _ cell) nofun
  · rfl

theorem get?_remove (found : l.get? id = some i) (k : InstrId) :
    (l.remove id).2.get? k = if k = id then none else l.get? k := by
  rw [remove_of_get? found]
  change ((l.modifyCell id fun c => { c with instr := none }).join _ _).get? k = _
  rw [get?_join, get?, get?, cell?_modifyCell]
  split
  · cases l.cell? k <;> rfl
  · rfl

theorem Links.remove (links : l.Links (xs ++ id :: ys)) : (l.remove id).2.Links (xs ++ ys) := by
  have distinct := links.distinct
  rw [List.nodup_middle, List.nodup_cons] at distinct
  obtain ⟨gone, distinct⟩ := distinct
  obtain ⟨i, found⟩ := links.filled id (by simp)
  have before : l.prevOf (some id) = xs.getLast? := links.neighbours.2
  have after : l.nextOf (some id) = ys.head? := by
    have cut := links
    rw [List.append_cons] at cut
    simpa using cut.neighbours.1
  have get := get?_remove found
  rw [remove_of_get? found, before, after] at get ⊢
  generalize emptied : (l.modifyCell id fun c => { c with instr := none }) = l₁ at get ⊢
  have size : l₁.cells.size = l.cells.size := by simp [← emptied, modifyCell]
  have known {zs : List (Option InstrId)} (chain : zs.IsChain l.Joined) : zs.IsChain l₁.Joined := by
    subst emptied
    refine isChain_of_eq chain (fun x _ => ?_) fun y _ => ?_
    · exact nextOf_modifyCell (f := fun c => { c with instr := none }) (fun _ => rfl) x
    · exact prevOf_modifyCell (f := fun c => { c with instr := none }) (fun _ => rfl) y
  have inside {x : Option InstrId} (here : ∀ k, x = some k → k ∈ xs ++ ys) : l₁.Inside x := by
    rw [inside_congr size]
    cases x with
    | none => exact nofun
    | some k =>
      have listed : k ∈ xs ++ id :: ys := List.perm_middle.mem_iff.mpr (.tail _ (here k rfl))
      exact inside_iff_lt.mpr (links.inside listed)
  refine ⟨?_, distinct, fun k here => ?_, fun k => ?_, ?_, ?_⟩
  · obtain ⟨zs, left⟩ := exists_before xs
    obtain ⟨ws, right⟩ := exists_after ys
    obtain ⟨last, first⟩ := ends_apart distinct left right
    have old := links.ring
    rw [ring_append, left, List.map_cons, List.cons_append, right, List.isChain_append] at old
    rw [ring_append, left, right]
    refine isChain_join (known old.1) (known old.2.1.tail) last first (inside fun k last => ?_)
      (inside fun k first => ?_)
    · exact List.mem_append_left _ (List.mem_of_getLast? last)
    · exact List.mem_append_right _ (List.mem_of_head? first)
  · obtain ⟨i', old⟩ := links.filled k (List.perm_middle.mem_iff.mpr (.tail _ here))
    have other : k ≠ id := fun same => gone (same ▸ here)
    exact ⟨i', by rw [get, if_neg other, old]⟩
  · change k ∈ id :: l.free ↔ k.index < (l₁.join _ _).cells.size ∧ k ∉ xs ++ ys
    rw [size_cells_join, size, List.mem_cons, links.free, List.perm_middle.mem_iff, List.mem_cons]
    by_cases same : k = id
    · subst same
      simpa [gone] using links.inside (show k ∈ xs ++ k :: ys by simp)
    · simp [same]
  · have unused : id ∉ l.free := fun here => ((links.free id).mp here).2 (by simp)
    exact List.nodup_cons.mpr ⟨unused, links.freeDistinct⟩
  · have count := links.size
    rw [List.perm_middle.length_eq, List.length_cons] at count
    change l.size - 1 = _
    omega

theorem get?_modify (l : InstrList) (id : InstrId) (f : Instr → Instr) (x : InstrId) :
    (l.modify id f).get? x = if x = id then (l.get? x).map f else l.get? x := by
  rw [modify, get?, get?, cell?_modifyCell]
  split
  · cases l.cell? x <;> rfl
  · rfl

theorem Links.modify (links : l.Links ids) (id : InstrId) (f : Instr → Instr) :
    (l.modify id f).Links ids := by
  have next (x : Option InstrId) : (l.modify id f).nextOf x = l.nextOf x := by
    apply nextOf_modifyCell
    exact fun _ => rfl
  have prev (x : Option InstrId) : (l.modify id f).prevOf x = l.prevOf x := by
    apply prevOf_modifyCell
    exact fun _ => rfl
  refine ⟨isChain_of_eq links.ring (fun x _ => next x) fun y _ => prev y, links.distinct, ?_, ?_,
    links.freeDistinct, links.size⟩
  · intro k here
    obtain ⟨i, found⟩ := links.filled k here
    rw [get?_modify, found]
    split
    · exact ⟨f i, rfl⟩
    · exact ⟨i, rfl⟩
  · simpa [InstrList.modify, modifyCell] using links.free

theorem follow_eq {step : InstrCell → Option InstrId} {g : Option InstrId → Option InstrId}
    (steps : ∀ id, g (some id) = (l.cell? id).bind step)
    (chain : (x :: ids.map some ++ [none]).IsChain fun a b => g a = b) (enough : ids.length ≤ count) :
    l.follow step count (g x) = ids := by
  induction ids generalizing x count with
  | nil =>
    have last : g x = none := (List.isChain_cons_cons.mp chain).1
    rw [last]
    cases count <;> rfl
  | cons id ids ih =>
    obtain ⟨joined, chain⟩ := List.isChain_cons_cons.mp chain
    obtain ⟨count, rfl⟩ : ∃ n, count = n + 1 := ⟨count - 1, by simp at enough; omega⟩
    rw [joined, follow, ← steps]
    exact congrArg (id :: ·) (ih chain (by simpa using enough))

theorem Links.follow_next (links : l.Links ids) (enough : ids.length ≤ count) :
    l.follow InstrCell.next count l.head = ids :=
  follow_eq (g := l.nextOf) (fun _ => rfl) (links.ring.imp fun _ _ => And.left) enough

theorem Links.follow_prev (links : l.Links ids) (enough : ids.length ≤ count) :
    l.follow InstrCell.prev count l.tail = ids.reverse := by
  refine follow_eq (g := l.prevOf) (x := none) (fun _ => rfl) ?_ (by simpa using enough)
  have back : (none :: ids.map some ++ [none]).reverse.IsChain fun a b => l.prevOf a = b :=
    List.isChain_reverse.mpr (links.ring.imp fun _ _ => And.right)
  simpa using back

theorem Links.length_le (links : l.Links ids) : ids.length ≤ l.cells.size := by
  have distinct : (ids.map InstrId.index).Nodup := by
    refine links.distinct.map fun a b same => ?_
    cases a
    cases b
    exact congrArg InstrId.mk same
  have bounded : ids.map InstrId.index ⊆ List.range l.cells.size := by
    intro n here
    obtain ⟨id, listed, rfl⟩ := List.mem_map.mp here
    exact List.mem_range.mpr (links.inside listed)
  simpa using (List.subperm_of_subset distinct bounded).length_le

theorem Links.ids_eq (links : l.Links ids) : l.ids = ids := links.follow_next links.length_le

def Holds (l : InstrList) (is : List Instr) : Prop :=
  ∃ ids, l.Links ids ∧ ids.map l.get? = is.map some

variable {is : List Instr}

theorem holds_empty : empty.Holds [] := by
  refine ⟨[], ⟨?_, List.nodup_nil, nofun, fun id => by simp [empty], List.nodup_nil, rfl⟩, rfl⟩
  exact List.isChain_pair.mpr ⟨rfl, rfl⟩

theorem Holds.toList (holds : l.Holds is) : l.toList = is := by
  obtain ⟨ids, links, values⟩ := holds
  have read : ids.filterMap l.get? = (ids.map l.get?).filterMap id := by
    rw [List.filterMap_map]
    rfl
  rw [InstrList.toList, links.ids_eq, read, values, List.filterMap_map]
  simp

theorem Holds.append (holds : l.Holds is) (i : Instr) : (l.append i).2.Holds (is ++ [i]) := by
  obtain ⟨ids, links, values⟩ := holds
  have get (k : InstrId) : (l.append i).2.get? k = (l.alloc i).2.get? k := get?_link ..
  have old (k : InstrId) (here : k ∈ ids) : (l.append i).2.get? k = l.get? k := by
    have other : k ≠ (l.alloc i).1 := fun same => (links.alloc i).fresh (same ▸ here)
    rw [get, links.get?_alloc, if_neg other]
  have new : (l.append i).2.get? (l.append i).1 = some i := (get _).trans (links.alloc i).filled
  refine ⟨_, links.append i, ?_⟩
  rw [List.map_append, List.map_congr_left old, List.map_singleton, new, values, List.map_append,
    List.map_singleton]

theorem Links.exists_values (links : l.Links ids) : ∃ is : List Instr, ids.map l.get? = is.map some := by
  have filled := links.filled
  clear links
  induction ids with
  | nil => exact ⟨[], rfl⟩
  | cons id ids ih =>
    obtain ⟨i, found⟩ := filled id List.mem_cons_self
    obtain ⟨is, rest⟩ := ih fun k later => filled k (List.mem_cons_of_mem _ later)
    exact ⟨i :: is, by rw [List.map_cons, found, rest, List.map_cons]⟩

theorem Holds.modify (holds : l.Holds is) (id : InstrId) {f : Instr → Instr} {α : Type}
    {view : Instr → α} (same : ∀ i, view (f i) = view i) :
    ∃ is', (l.modify id f).Holds is' ∧ is'.map view = is.map view := by
  obtain ⟨ids, links, values⟩ := holds
  have changed := links.modify id f
  obtain ⟨is', values'⟩ := changed.exists_values
  refine ⟨is', ⟨ids, changed, values'⟩, ?_⟩
  have viewed (k : InstrId) : ((l.modify id f).get? k).map view = (l.get? k).map view := by
    rw [get?_modify]
    split
    · cases l.get? k with
      | none => rfl
      | some i => exact congrArg some (same i)
    · rfl
  have before := congrArg (List.map (Option.map view)) values
  have after := congrArg (List.map (Option.map view)) values'
  simp only [List.map_map, Function.comp_def, viewed, Option.map_some] at before after
  have both : (is'.map view).map some = (is.map view).map some := by
    rw [List.map_map, List.map_map]
    exact after.symm.trans before
  exact List.map_inj_right (fun _ _ => Option.some.inj) |>.mp both

end CBackend.InstrList
