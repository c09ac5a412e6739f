import Mathlib.Data.Finset.Lattice.Fold
import Mathlib.Data.Fintype.Basic
import Mathlib.Order.Lattice.Nat
import CBackend.Proofs.FrameLayout

/-!
Temporaries over a run of requests. A slot goes from owner to owner, and each owner is done with it
before the next one comes. If all requests are for the same number of bytes, there are never more
slots than values that were in use at one time.
-/

namespace CBackend

/-- A value that needs bytes in the frame from `seq` on until it is last referred to. -/
structure TempRequest where
  seq : Nat
  owner : NodeId
  size : Nat
  lastRef : Nat
  deriving DecidableEq, Repr

def FrameEntry.slot? : FrameEntry → Option TempSlot
  | .temp slot => some slot
  | .block .. | .local .. => none

namespace Frame

def temps (f : Frame) : List TempSlot := f.entries.filterMap FrameEntry.slot?

/-- The offset that a request is given, and the frame afterwards. -/
def serve (f : Frame) (r : TempRequest) : Int × Frame := f.allocTemp r.seq r.owner r.size r.lastRef

def afterTemps (rs : List TempRequest) : Frame := rs.foldl (fun f r => (f.serve r).2) {}

/-- The offset that the last of some requests is given. There is none if the frame overflows. -/
def tempOffset? (earlier : List TempRequest) (r : TempRequest) : Option Int :=
  let (offset, f) := (afterTemps earlier).serve r
  if f.overflowed then none else some offset

variable {f : Frame} {r : TempRequest} {rs : List TempRequest} {slot : TempSlot}

theorem mem_temps : slot ∈ f.temps ↔ .temp slot ∈ f.entries := by
  rw [temps, List.mem_filterMap]
  constructor
  · rintro ⟨e, here, same⟩
    cases e <;> cases same
    exact here
  · exact fun here => ⟨_, here, rfl⟩

theorem tempCount_eq (f : Frame) : f.tempCount = f.temps.length := by
  unfold tempCount temps
  induction f.entries with
  | nil => rfl
  | cons e rest ih => cases e <;> simp [List.filterMap_cons, FrameEntry.slot?, ih]

theorem afterTemps_concat (rs : List TempRequest) (r : TempRequest) :
    afterTemps (rs ++ [r]) = ((afterTemps rs).serve r).2 := by
  simp [afterTemps]

/-- What serving a request does to the slots: one that is given up and large enough passes to the
new owner, or a new one is made if there is none. -/
theorem serve_cases (f : Frame) (r : TempRequest) :
    (∃ before slot after, f.temps = before ++ slot :: after ∧
      roundToSlot r.size ≤ slot.size ∧ slot.ownerLastRef < r.seq ∧ (f.serve r).1 = slot.offset ∧
      (f.serve r).2.cursor = f.cursor ∧
      (f.serve r).2.temps =
        before ++ { slot with owner := r.owner, ownerLastRef := r.lastRef } :: after) ∨
    (∀ slot ∈ f.temps, roundToSlot r.size ≤ slot.size → r.seq ≤ slot.ownerLastRef) ∧
      (f.serve r).1 = wrapOffset (-((f.serve r).2.cursor : Int)) ∧
      (f.serve r).2.cursor = f.cursor + roundToSlot r.size ∧
      (f.serve r).2.temps =
        f.temps ++ [⟨(f.serve r).1, roundToSlot r.size, r.owner, r.lastRef⟩] := by
  obtain ⟨before, slot, after, whole, large, spent, made⟩ | ⟨full, made⟩ :=
    f.allocTemp_cases r.seq r.owner r.size r.lastRef
  · refine .inl ⟨before.filterMap FrameEntry.slot?, slot, after.filterMap FrameEntry.slot?, ?_,
      large, spent, ?_⟩
    · rw [temps, whole, List.filterMap_append]
      rfl
    · rw [serve, made, temps, List.filterMap_append]
      exact ⟨rfl, rfl, rfl⟩
  · refine .inr ⟨fun slot here => full slot (mem_temps.mp here), ?_⟩
    rw [serve, made, temps, List.filterMap_append]
    exact ⟨rfl, rfl, rfl⟩

theorem exists_of_mem_serve (here : slot ∈ (f.serve r).2.temps) :
    (∃ old ∈ f.temps, slot.offset = old.offset ∧ slot.size = old.size) ∨
      slot.offset = wrapOffset (-((f.serve r).2.cursor : Int)) ∧ slot.size = roundToSlot r.size ∧
        f.cursor < (f.serve r).2.cursor := by
  obtain ⟨before, old, after, whole, -, -, -, -, changed⟩ | ⟨-, offset, cursor, changed⟩ :=
    f.serve_cases r
  · left
    rw [whole]
    rw [changed, List.mem_append, List.mem_cons] at here
    obtain first | rfl | last := here
    · exact ⟨slot, by simp [first], rfl, rfl⟩
    · exact ⟨old, by simp, rfl, rfl⟩
    · exact ⟨slot, by simp [last], rfl, rfl⟩
  · have size := roundToSlot_pos r.size
    rw [changed, List.mem_append, List.mem_singleton] at here
    obtain old | rfl := here
    · exact .inl ⟨slot, old, rfl, rfl⟩
    · exact .inr ⟨offset, rfl, by omega⟩

theorem cursor_le_serve (f : Frame) (r : TempRequest) : f.cursor ≤ (f.serve r).2.cursor := by
  obtain ⟨_, _, _, -, -, -, -, cursor, -⟩ | ⟨-, -, cursor, -⟩ := f.serve_cases r <;> omega

theorem overflowed_of_serve (whole : (f.serve r).2.overflowed = false) :
    f.overflowed = false ∧
      ((f.serve r).2.cursor = f.cursor ∨ (f.serve r).2.cursor < 0x100000000) := by
  obtain ⟨before, slot, after, -, -, -, made⟩ | ⟨-, made⟩ :=
    f.allocTemp_cases r.seq r.owner r.size r.lastRef
  · rw [serve, made] at whole ⊢
    exact ⟨whole, .inl rfl⟩
  · rw [serve, made] at whole ⊢
    obtain ⟨still, fits⟩ := Bool.or_eq_false_iff.mp whole
    have apart := of_decide_eq_false fits
    exact ⟨still, .inr (by dsimp only; omega)⟩

/-- Offsets name slots as long as the counters of the frame hold. -/
structure Spread (f : Frame) : Prop where
  deep : ∀ slot ∈ f.temps, ∃ depth : Nat, 0 < depth ∧ depth ≤ f.cursor ∧
    slot.offset = wrapOffset (-(depth : Int))
  small : f.overflowed = false → f.cursor < 0x100000000
  distinct : f.overflowed = false → (f.temps.map TempSlot.offset).Nodup

theorem Spread.small_serve (spread : f.Spread) (whole : (f.serve r).2.overflowed = false) :
    (f.serve r).2.cursor < 0x100000000 := by
  obtain ⟨before, same | fits⟩ := overflowed_of_serve whole
  · exact same ▸ spread.small before
  · exact fits

theorem wrapOffset_inj {a b : Nat} (same : wrapOffset (-(a : Int)) = wrapOffset (-(b : Int)))
    (boundA : a < 0x100000000) (boundB : b < 0x100000000) : a = b := by
  unfold wrapOffset at same
  have rest := congrArg (· % (0x100000000 : Int)) same
  have restA := Int.bmod_emod (x := -(a : Int)) (m := 0x100000000)
  have restB := Int.bmod_emod (x := -(b : Int)) (m := 0x100000000)
  omega

theorem Spread.fresh (spread : f.Spread) {depth : Nat} (below : f.cursor < depth)
    (fits : depth < 0x100000000) (here : slot ∈ f.temps) :
    slot.offset ≠ wrapOffset (-(depth : Int)) := by
  obtain ⟨depth', -, inside, place⟩ := spread.deep slot here
  rw [place]
  intro same
  have := wrapOffset_inj same (by omega) fits
  omega

theorem Spread.serve (spread : f.Spread) (r : TempRequest) : (f.serve r).2.Spread := by
  have grows := f.cursor_le_serve r
  refine ⟨fun slot here => ?_, spread.small_serve, fun whole => ?_⟩
  · obtain ⟨old, there, place, -⟩ | ⟨place, -, new⟩ := exists_of_mem_serve here
    · obtain ⟨depth, deep, inside, place'⟩ := spread.deep old there
      exact ⟨depth, deep, by omega, place.trans place'⟩
    · exact ⟨_, by omega, Nat.le_refl _, place⟩
  · have distinct := spread.distinct (overflowed_of_serve whole).1
    have fits := spread.small_serve whole
    obtain ⟨before, slot, after, listed, -, -, -, -, changed⟩ | ⟨-, offset, cursor, changed⟩ :=
      f.serve_cases r
    · rw [listed] at distinct
      rw [changed]
      simpa using distinct
    · have size := roundToSlot_pos r.size
      rw [changed, List.map_append, List.map_singleton]
      refine List.Nodup.append distinct (List.nodup_singleton _) ?_
      rw [List.disjoint_singleton]
      intro there
      obtain ⟨slot, here, same⟩ := List.mem_map.mp there
      exact spread.fresh (by omega) fits here (same.trans offset)

theorem spread_afterTemps (rs : List TempRequest) : (afterTemps rs).Spread := by
  induction rs using List.reverseRecOn with
  | nil => exact ⟨nofun, fun _ => Nat.zero_lt_succ _, fun _ => List.nodup_nil⟩
  | append_singleton rs r ih =>
    rw [afterTemps_concat]
    exact ih.serve r

/-- A value has a slot that is not given up while the value is referred to. -/
def Keeps (f : Frame) (offset : Int) (lastRef : Nat) : Prop :=
  ∃ slot ∈ f.temps, slot.offset = offset ∧ lastRef ≤ slot.ownerLastRef

theorem Keeps.serve {offset : Int} {lastRef : Nat} (keeps : f.Keeps offset lastRef)
    (lasting : r.seq ≤ r.lastRef) : (f.serve r).2.Keeps offset lastRef := by
  obtain ⟨slot, here, place, still⟩ := keeps
  obtain ⟨before, old, after, whole, -, spent, -, -, changed⟩ | ⟨-, -, -, changed⟩ :=
    f.serve_cases r
  · rw [whole, List.mem_append, List.mem_cons] at here
    rw [Keeps, changed]
    obtain first | rfl | last := here
    · exact ⟨slot, by simp [first], place, still⟩
    · exact ⟨_, List.mem_append_right _ List.mem_cons_self, place, by dsimp only; omega⟩
    · exact ⟨slot, by simp [last], place, still⟩
  · rw [Keeps, changed]
    exact ⟨slot, List.mem_append_left _ here, place, still⟩

theorem keeps_serve (f : Frame) (r : TempRequest) : (f.serve r).2.Keeps (f.serve r).1 r.lastRef := by
  obtain ⟨before, old, after, -, -, -, place, -, changed⟩ | ⟨-, -, -, changed⟩ := f.serve_cases r
  · rw [Keeps, changed]
    exact ⟨_, List.mem_append_right _ List.mem_cons_self, place.symm, Nat.le_refl _⟩
  · rw [Keeps, changed]
    exact ⟨_, List.mem_append_right _ List.mem_cons_self, rfl, Nat.le_refl _⟩

theorem keeps_afterTemps {earlier later : List TempRequest}
    (lasting : ∀ r ∈ later, r.seq ≤ r.lastRef) (r : TempRequest) :
    (afterTemps (earlier ++ [r] ++ later)).Keeps ((afterTemps earlier).serve r).1 r.lastRef := by
  induction later using List.reverseRecOn with
  | nil =>
    rw [List.append_nil, afterTemps_concat]
    exact keeps_serve _ r
  | append_singleton later last ih =>
    rw [← List.append_assoc, afterTemps_concat]
    exact (ih fun r here => lasting r (List.mem_append_left _ here)).serve (lasting last (by simp))

theorem Spread.handed_on (spread : f.Spread) {lastRef : Nat} (keeps : f.Keeps (f.serve r).1 lastRef)
    (whole : (f.serve r).2.overflowed = false) :
    lastRef < r.seq ∧
      ∃ slot ∈ f.temps, slot.offset = (f.serve r).1 ∧ roundToSlot r.size ≤ slot.size := by
  obtain ⟨slot, here, place, still⟩ := keeps
  have distinct := spread.distinct (overflowed_of_serve whole).1
  have fits := spread.small_serve whole
  obtain ⟨before, old, after, listed, large, spent, place', -, -⟩ | ⟨-, offset, cursor, -⟩ :=
    f.serve_cases r
  · have listed : old ∈ f.temps := by simp [listed]
    have same : slot = old := List.inj_on_of_nodup_map distinct here listed (place.trans place')
    rw [same] at still
    exact ⟨by omega, old, listed, place'.symm, large⟩
  · have size := roundToSlot_pos r.size
    exact absurd (place.trans offset) (spread.fresh (by omega) fits here)

def inUse (rs : List TempRequest) (seq : Nat) : Nat := rs.countP fun r => decide (seq ≤ r.lastRef)

def taken (f : Frame) (seq : Nat) : Nat := f.temps.countP fun slot => decide (seq ≤ slot.ownerLastRef)

theorem taken_serve {seq : Nat} (now : r.seq ≤ seq) :
    (f.serve r).2.taken seq = f.taken seq + if seq ≤ r.lastRef then 1 else 0 := by
  obtain ⟨before, old, after, whole, -, spent, -, -, changed⟩ | ⟨-, -, -, changed⟩ :=
    f.serve_cases r
  · have gone : ¬ seq ≤ old.ownerLastRef := by omega
    rw [taken, taken, changed, whole]
    simp [List.countP_append, List.countP_cons, gone, Nat.add_assoc]
  · rw [taken, taken, changed]
    simp [List.countP_append, List.countP_cons]

theorem taken_afterTemps {seq : Nat} (past : ∀ r ∈ rs, r.seq ≤ seq) :
    (afterTemps rs).taken seq = inUse rs seq := by
  induction rs using List.reverseRecOn with
  | nil => rfl
  | append_singleton rs r ih =>
    rw [afterTemps_concat, taken_serve (past r (by simp)),
      ih fun r here => past r (List.mem_append_left _ here)]
    simp [inUse, List.countP_append, List.countP_cons]

theorem length_temps_serve (f : Frame) (r : TempRequest) :
    f.temps.length ≤ (f.serve r).2.temps.length := by
  obtain ⟨before, old, after, whole, -, -, -, -, changed⟩ | ⟨-, -, -, changed⟩ := f.serve_cases r
  · rw [changed, whole]
    simp
  · rw [changed]
    simp

theorem length_temps_mono (earlier later : List TempRequest) :
    (afterTemps earlier).temps.length ≤ (afterTemps (earlier ++ later)).temps.length := by
  induction later using List.reverseRecOn with
  | nil => rw [List.append_nil]
  | append_singleton later r ih =>
    rw [← List.append_assoc, afterTemps_concat]
    exact Nat.le_trans ih (length_temps_serve _ r)

theorem inUse_le {j : Nat} (bound : j < rs.length) (ordered : rs.Pairwise (·.seq ≤ ·.seq)) :
    inUse (rs.take (j + 1)) rs[j].seq ≤ (afterTemps rs).temps.length := by
  have past : ∀ r ∈ rs.take (j + 1), r.seq ≤ rs[j].seq := by
    intro r here
    obtain ⟨i, early, rfl⟩ := List.mem_take_iff_getElem.mp here
    rcases Nat.lt_or_eq_of_le (show i ≤ j by omega) with less | rfl
    · exact List.pairwise_iff_getElem.mp ordered i j (by omega) bound less
    · exact Nat.le_refl _
  calc inUse (rs.take (j + 1)) rs[j].seq
      = (afterTemps (rs.take (j + 1))).taken rs[j].seq := (taken_afterTemps past).symm
    _ ≤ (afterTemps (rs.take (j + 1))).temps.length := List.countP_le_length
    _ ≤ (afterTemps rs).temps.length := by
      have mono := length_temps_mono (rs.take (j + 1)) (rs.drop (j + 1))
      rwa [List.take_append_drop] at mono

theorem size_of_mem_temps {size : Nat} (equal : ∀ r ∈ rs, roundToSlot r.size = size)
    (here : slot ∈ (afterTemps rs).temps) : slot.size = size := by
  induction rs using List.reverseRecOn generalizing slot with
  | nil => cases here
  | append_singleton rs r ih =>
    rw [afterTemps_concat] at here
    obtain ⟨old, there, -, same⟩ | ⟨-, new, -⟩ := exists_of_mem_serve here
    · exact same.trans (ih (fun r here => equal r (List.mem_append_left _ here)) there)
    · exact new.trans (equal r (by simp))

theorem exists_inUse_eq {size : Nat} (equal : ∀ r ∈ rs, roundToSlot r.size = size)
    (ordered : rs.Pairwise (·.seq ≤ ·.seq)) (lasting : ∀ r ∈ rs, r.seq ≤ r.lastRef) :
    (afterTemps rs).temps = [] ∨
      ∃ j, ∃ bound : j < rs.length,
        inUse (rs.take (j + 1)) rs[j].seq = (afterTemps rs).temps.length := by
  induction rs using List.reverseRecOn with
  | nil => exact .inl rfl
  | append_singleton rs r ih =>
    right
    obtain ⟨orderedRs, -, upTo⟩ := List.pairwise_append.mp ordered
    have equalRs (r) (here : r ∈ rs) := equal r (List.mem_append_left _ here)
    have lastingRs (r) (here : r ∈ rs) := lasting r (List.mem_append_left _ here)
    rw [afterTemps_concat]
    obtain ⟨first, old, last, whole, -, -, -, -, changed⟩ | ⟨full, -, -, changed⟩ :=
      (afterTemps rs).serve_cases r
    · obtain none | ⟨j, bound, same⟩ := ih equalRs orderedRs lastingRs
      · simp [whole] at none
      · refine ⟨j, by simp; omega, ?_⟩
        rw [List.take_append_of_le_length (by omega), List.getElem_append_left bound, same, changed,
          whole]
        simp
    · refine ⟨rs.length, by simp, ?_⟩
      have past : ∀ r' ∈ rs ++ [r], r'.seq ≤ r.seq := by
        intro r' here
        obtain here | here := List.mem_append.mp here
        · exact upTo r' here r (by simp)
        · cases List.mem_singleton.mp here
          exact Nat.le_refl _
      have whole : (rs ++ [r]).take (rs.length + 1) = rs ++ [r] := List.take_of_length_le (by simp)
      rw [whole, List.getElem_concat_length rfl, ← taken_afterTemps past, afterTemps_concat, taken,
        List.countP_eq_length]
      intro slot here
      rw [changed, List.mem_append, List.mem_singleton] at here
      obtain old | rfl := here
      · refine decide_eq_true (full slot old ?_)
        rw [size_of_mem_temps equalRs old, equal r (by simp)]
      · exact decide_eq_true (lasting r (by simp))

theorem take_eq_append {i j : Nat} (earlier : i < j) (last : j < rs.length) :
    rs.take j = rs.take i ++ [rs[i]] ++ (rs.take j).drop (i + 1) := by
  have cut := List.take_append_drop (i + 1) (rs.take j)
  rw [List.take_take, Nat.min_eq_left earlier, List.take_succ_eq_append_getElem (by omega)] at cut
  exact cut.symm

theorem tempOffset?_eq_some {offset : Int} (given : tempOffset? rs r = some offset) :
    ((afterTemps rs).serve r).2.overflowed = false ∧ ((afterTemps rs).serve r).1 = offset := by
  obtain ⟨whole, same⟩ := Option.ite_none_left_eq_some.mp given
  exact ⟨Bool.eq_false_iff.mpr whole, Option.some.inj same⟩

/-- Temporaries share slots safely, and no more slots are made than are needed. A request is given
the offset of an earlier one only if that one is done with the slot, and the slot is large enough. If
all requests are for the same number of slot units, there are as many slots in the end as values were
in use together at the busiest request. -/
theorem temporaries_shared (rs : List TempRequest) (ordered : rs.Pairwise (·.seq ≤ ·.seq))
    (lasting : ∀ r ∈ rs, r.seq ≤ r.lastRef) :
    (∀ i j (_ : i < j) (_ : j < rs.length) offset,
      tempOffset? (rs.take i) rs[i] = some offset → tempOffset? (rs.take j) rs[j] = some offset →
      rs[i].lastRef < rs[j].seq ∧
        ∃ slot, .temp slot ∈ (afterTemps (rs.take j)).entries ∧ slot.offset = offset ∧
          roundToSlot rs[j].size ≤ slot.size) ∧
    ((∀ r ∈ rs, ∀ r' ∈ rs, roundToSlot r.size = roundToSlot r'.size) →
      (afterTemps rs).tempCount =
        Finset.univ.sup fun j : Fin rs.length => inUse (rs.take (j + 1)) rs[j].seq) := by
  refine ⟨fun i j earlier last offset first second => ?_, fun equal => ?_⟩
  · obtain ⟨-, same⟩ := tempOffset?_eq_some first
    obtain ⟨whole, rfl⟩ := tempOffset?_eq_some second
    have keeps : (afterTemps (rs.take j)).Keeps ((afterTemps (rs.take j)).serve rs[j]).1
        rs[i].lastRef := by
      rw [← same, take_eq_append earlier last]
      exact keeps_afterTemps
        (fun r here => lasting r (List.mem_of_mem_take (List.mem_of_mem_drop here))) _
    obtain ⟨done, slot, here, place, large⟩ := (spread_afterTemps (rs.take j)).handed_on keeps whole
    exact ⟨done, slot, mem_temps.mp here, place, large⟩
  · rw [tempCount_eq]
    apply Nat.le_antisymm
    · obtain ⟨size, equal⟩ : ∃ size, ∀ r ∈ rs, roundToSlot r.size = size := by
        cases rs with
        | nil => exact ⟨0, nofun⟩
        | cons r rs => exact ⟨_, fun r' here => equal r' here r List.mem_cons_self⟩
      obtain none | ⟨j, bound, same⟩ := exists_inUse_eq equal ordered lasting
      · simp [none]
      · rw [← same]
        exact Finset.le_sup (f := fun j : Fin rs.length => inUse (rs.take (j + 1)) rs[j].seq)
          (Finset.mem_univ ⟨j, bound⟩)
    · exact Finset.sup_le fun j _ => inUse_le j.isLt ordered

/-- Four values of which two are in use at a time, so that slots pass to a second and a third owner. -/
def passedOn : List TempRequest := [⟨1, ⟨1⟩, 4, 3⟩, ⟨2, ⟨2⟩, 3, 5⟩, ⟨4, ⟨3⟩, 1, 6⟩, ⟨7, ⟨4⟩, 4, 9⟩]

theorem passedOn_shared :
    passedOn[0].lastRef < passedOn[2].seq ∧ passedOn[0].lastRef < passedOn[3].seq ∧
      (afterTemps passedOn).tempCount = 2 := by
  have shared := temporaries_shared passedOn (by decide) (by decide)
  refine ⟨(shared.1 0 2 (by decide) (by decide) (-4) (by decide) (by decide)).1,
    (shared.1 0 3 (by decide) (by decide) (-4) (by decide) (by decide)).1, ?_⟩
  exact (shared.2 (by decide)).trans (by decide)

end Frame

end CBackend
