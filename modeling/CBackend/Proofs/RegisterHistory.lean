import Mathlib.Order.Bounds.Defs
import CBackend.Proofs.Registers

/-!
Everything that can happen to a register file. Whatever is asked of it, its descriptors say which
parts of values are in which register. The latest reference to a register is that of the parts in it,
but of a part that was put in again only what was said when it came in outlasts the next removal.
-/

namespace CBackend.RegisterFile

inductive Request where
  | associate (r : Reg) (node : NodeId) (part lastRef : Nat)
  | dissociate (r : Reg) (node : NodeId) (part : Nat)
  | clear (r : Reg)
  | pin (r : Reg)
  | unpin (r : Reg)
  | reset
  deriving DecidableEq, Repr

namespace Request

def run (f : RegisterFile) : Request → Except RegisterError RegisterFile
  | associate r node part lastRef => f.associate r node part lastRef
  | dissociate r node part => f.dissociate r node part
  | clear r => .ok (f.clear r).2
  | pin r => f.pin r
  | unpin r => f.unpin r
  | reset => .ok f.reset

/-- The register file afterwards, whether the request is granted or not. -/
def apply (f : RegisterFile) (q : Request) : RegisterFile :=
  match q.run f with
  | .ok f' => f'
  | .error _ => f

end Request

/-- Requests that are not granted: a part of a value for a reserved register, the removal of one that
is not there, a pin too many or one too few. -/
def Refuses (f : RegisterFile) : Request → Prop
  | .associate r .. => ¬r.Allocatable
  | .dissociate r node part => ¬f.Holds r node part
  | .pin r => f.pinLimit = some (f.get r).pins
  | .unpin r => (f.get r).pins = 0
  | .clear _ | .reset => False

def after (qs : List Request) : RegisterFile := qs.foldl (fun f q => q.apply f) init

/-- The register file before the request at a place in a history. -/
def before (qs : List Request) (i : Nat) : RegisterFile := after (qs.take i)

variable {f f' : RegisterFile} {q : Request} {qs : List Request} {r : Reg} {node : NodeId}
  {part lastRef i j : Nat}

theorem before_length (qs : List Request) : before qs qs.length = after qs := by
  rw [before, List.take_length]

theorem before_succ (here : qs[i]? = some q) : before qs (i + 1) = q.apply (before qs i) := by
  rw [before, List.take_add_one, here, after, List.foldl_append]
  rfl

theorem before_succ_none (here : qs[i]? = none) : before qs (i + 1) = before qs i := by
  rw [before, List.take_add_one, here, Option.toList_none, List.append_nil, before]

theorem allocatable_iff (sound : f.Sound) : f.state r ≠ .reserved ↔ r.Allocatable := by
  rw [Ne, sound.reserved r, Classical.not_not]

theorem refuses_iff (sound : f.Sound) (q : Request) :
    f.Refuses q ↔ ∃ e, q.run f = .error e := by
  cases q with
  | associate r node part lastRef =>
    rw [Refuses, ← sound.reserved r]
    unfold Request.run RegisterFile.associate
    dsimp only
    split
    · rename_i reserved
      exact iff_of_true reserved ⟨_, rfl⟩
    · rename_i usable
      exact iff_of_false usable nofun
  | dissociate r node part =>
    rw [Refuses, ← any_is_iff]
    unfold Request.run RegisterFile.dissociate
    dsimp only
    split
    · rename_i held
      exact iff_of_false (not_not_intro held) nofun
    · rename_i absent
      exact iff_of_true absent ⟨_, rfl⟩
  | clear | reset => exact iff_of_false id nofun
  | pin r =>
    unfold Request.run RegisterFile.pin
    dsimp only
    split
    · rename_i full
      exact iff_of_true full ⟨_, rfl⟩
    · rename_i room
      exact iff_of_false room nofun
  | unpin r =>
    unfold Request.run RegisterFile.unpin
    dsimp only
    split
    · rename_i none
      exact iff_of_true none ⟨_, rfl⟩
    · rename_i pinned
      exact iff_of_false pinned nofun

theorem apply_of_ok (ok : q.run f = .ok f') : q.apply f = f' := by
  rw [Request.apply, ok]

theorem apply_of_refuses (sound : f.Sound) (refuses : f.Refuses q) : q.apply f = f := by
  obtain ⟨e, failed⟩ := (refuses_iff sound q).mp refuses
  rw [Request.apply, failed]

inductive Change (f f' : RegisterFile) (r : Reg) (q : Request) : Prop
  | nothing (users : f'.users r = f.users r) (latest : f'.maxLastRef r = f.maxLastRef r)
      (other : ∀ node part lastRef, q = .associate r node part lastRef → f.users r = [])
  | added {node : NodeId} {part lastRef : Nat} (asked : q = .associate r node part lastRef)
      (users : f'.users r = if (f.users r).any (·.is node part) then f.users r
        else f.users r ++ [⟨node, part, lastRef⟩])
      (latest : f'.maxLastRef r = max (f.maxLastRef r) lastRef)
  | removed {node : NodeId} {part : Nat} (asked : q = .dissociate r node part)
      (held : f.Holds r node part) (users : f'.users r = (f.users r).filter fun u => !u.is node part)
      (latest : f'.maxLastRef r = ((f'.users r).map RegUser.lastRef).foldl max 0)
  | emptied (users : f'.users r = []) (latest : f'.maxLastRef r = 0)

theorem change_of_other {s : Reg} {d : RegDescriptor} (apart : s ≠ r)
    (other : ∀ node part lastRef, q = .associate r node part lastRef → s = r) :
    Change f (f.set s d) r q := by
  have same := f.get_set_other apart d
  refine .nothing ?_ ?_ ?_
  · rw [users, same, users]
  · rw [maxLastRef, same, maxLastRef]
  · exact fun node part lastRef asked => absurd (other node part lastRef asked) apart

theorem change_associate (sound : f.Sound) (s : Reg) (node : NodeId) (part lastRef : Nat) (r : Reg) :
    Change f (Request.apply f (.associate s node part lastRef)) r (.associate s node part lastRef) := by
  by_cases allocatable : s.Allocatable
  · have run : Request.run f (.associate s node part lastRef) = .ok _ :=
      if_neg ((allocatable_iff sound).mpr allocatable)
    rw [apply_of_ok run]
    by_cases same : s = r
    · subst same
      have there := f.get_set_self allocatable.1
      refine .added rfl ?_ ?_
      · rw [users, there, users]
      · rw [maxLastRef, there, maxLastRef]
    · exact change_of_other same fun _ _ _ asked => (Request.associate.inj asked).1
  · rw [apply_of_refuses sound (q := .associate s node part lastRef) allocatable]
    refine .nothing rfl rfl fun _ _ _ asked => ?_
    rw [← (Request.associate.inj asked).1]
    exact sound.empty s allocatable

theorem change_dissociate (sound : f.Sound) (s : Reg) (node : NodeId) (part : Nat) (r : Reg) :
    Change f (Request.apply f (.dissociate s node part)) r (.dissociate s node part) := by
  by_cases held : f.Holds s node part
  · have run : Request.run f (.dissociate s node part) = .ok _ := if_pos (any_is_iff.mpr held)
    rw [apply_of_ok run]
    by_cases same : s = r
    · subst same
      have allocatable : s.Allocatable := by
        obtain ⟨u, member, -⟩ := held
        by_contra other
        rw [sound.empty s other] at member
        cases member
      have there := f.get_set_self allocatable.1
      refine .removed rfl held ?_ ?_
      · rw [users, there, users]
      · rw [maxLastRef, users, there]
    · refine change_of_other same fun _ _ _ asked => ?_
      cases asked
  · rw [apply_of_refuses sound (q := .dissociate s node part) held]
    refine .nothing rfl rfl fun _ _ _ asked => ?_
    cases asked

theorem change_clear (sound : f.Sound) (s r : Reg) :
    Change f (Request.apply f (.clear s)) r (.clear s) := by
  change Change f (f.clear s).2 r _
  unfold clear
  dsimp only
  split
  · exact .nothing rfl rfl nofun
  · rename_i usable
    by_cases same : s = r
    · subst same
      have there := f.get_set_self ((allocatable_iff sound).mp usable).1
      refine .emptied ?_ ?_
      · rw [users, there]
      · rw [maxLastRef, there]
    · exact change_of_other same nofun

theorem change_of_pins {s : Reg} (pins : Nat) (other : ∀ node part lastRef, q ≠ .associate r node part lastRef) :
    Change f (f.set s { f.get s with pins }) r q := by
  by_cases same : s = r
  · subst same
    by_cases inside : s.number < Reg.count
    · have there := f.get_set_self inside
      refine .nothing ?_ ?_ fun node part lastRef asked => absurd asked (other node part lastRef)
      · rw [users, there, users]
      · rw [maxLastRef, there, maxLastRef]
    · rw [set, dif_neg inside]
      exact .nothing rfl rfl fun node part lastRef asked => absurd asked (other node part lastRef)
  · exact change_of_other same fun node part lastRef asked => absurd asked (other node part lastRef)

theorem change (sound : f.Sound) (q : Request) (r : Reg) : Change f (q.apply f) r q := by
  cases q with
  | associate s node part lastRef => exact change_associate sound s node part lastRef r
  | dissociate s node part => exact change_dissociate sound s node part r
  | clear s => exact change_clear sound s r
  | pin s =>
    by_cases full : f.Refuses (.pin s)
    · rw [apply_of_refuses sound full]
      exact .nothing rfl rfl nofun
    · have run : Request.run f (.pin s) = .ok _ := if_neg full
      rw [apply_of_ok run]
      exact change_of_pins _ nofun
  | unpin s =>
    by_cases none : f.Refuses (.unpin s)
    · rw [apply_of_refuses sound none]
      exact .nothing rfl rfl nofun
    · have run : Request.run f (.unpin s) = .ok _ := if_neg none
      rw [apply_of_ok run]
      exact change_of_pins _ nofun
  | reset =>
    change Change f f.reset r _
    refine .emptied ((sound_reset sound.reserved).2 r) ?_
    unfold maxLastRef get reset
    split
    · simp
    · rfl

theorem Sound.apply (sound : f.Sound) (q : Request) : (q.apply f).Sound := by
  by_cases refuses : f.Refuses q
  · rw [apply_of_refuses sound refuses]
    exact sound
  · cases q with
    | associate r node part lastRef =>
      obtain ⟨f', run, kept, -⟩ :=
        associate_run sound (Classical.not_not.mp refuses) node part lastRef
      rw [apply_of_ok (q := .associate r node part lastRef) run]
      exact kept
    | dissociate r node part =>
      obtain ⟨f', run, -, kept⟩ := dissociate_sheds (Classical.not_not.mp refuses)
      rw [apply_of_ok (q := .dissociate r node part) run]
      exact kept sound
    | clear r =>
      change (f.clear r).2.Sound
      unfold clear
      dsimp only
      split
      · exact sound
      · rename_i usable
        exact sound.set ((allocatable_iff sound).mp usable) .nil (by simp) nofun
    | pin r =>
      have run : f.pin r = .ok _ := if_neg refuses
      rw [apply_of_ok (q := .pin r) run]
      exact sound.alike (alike_of_pin run)
    | unpin r =>
      have run : f.unpin r = .ok _ := if_neg refuses
      rw [apply_of_ok (q := .unpin r) run]
      exact sound.alike (alike_of_unpin run)
    | reset => exact (sound_reset sound.reserved).1

theorem sound_before (qs : List Request) (i : Nat) : (before qs i).Sound := by
  induction i with
  | zero => exact sound_init
  | succ i ih =>
    cases here : qs[i]? with
    | none => rw [before_succ_none here]; exact ih
    | some q => rw [before_succ here]; exact ih.apply q

/-- Up to the request at `j` a part of a value has been in a register ever since the request at `i`
put it there, for the first time or again, to be referred to at `lastRef`. -/
structure Passed (qs : List Request) (j : Nat) (r : Reg) (i : Nat) (node : NodeId)
    (part lastRef : Nat) : Prop where
  asked : qs[i]? = some (.associate r node part lastRef)
  earlier : i < j
  held : ∀ m, i < m → m ≤ j → (before qs m).Holds r node part

def Unremoved (qs : List Request) (i j : Nat) (r : Reg) : Prop :=
  ∀ m, i < m → m < j → ∀ node part,
    (before qs m).Holds r node part → (before qs (m + 1)).Holds r node part

def Referred (qs : List Request) (j : Nat) (r : Reg) (lastRef : Nat) : Prop :=
  ∃ i node part, Passed qs j r i node part lastRef

/-- Those of them that a descriptor goes by: what was passed as a part came in, and what has been
passed since the register last lost one. -/
def Remembered (qs : List Request) (j : Nat) (r : Reg) (lastRef : Nat) : Prop :=
  ∃ i node part, Passed qs j r i node part lastRef ∧
    (¬(before qs i).Holds r node part ∨ Unremoved qs i j r)

theorem passed_succ_iff : Passed qs (j + 1) r i node part lastRef ↔
    (before qs (j + 1)).Holds r node part ∧ (Passed qs j r i node part lastRef ∨
      i = j ∧ qs[j]? = some (.associate r node part lastRef)) := by
  constructor
  · intro passed
    refine ⟨passed.held (j + 1) passed.earlier (Nat.le_refl _), ?_⟩
    rcases Nat.lt_succ_iff_lt_or_eq.mp passed.earlier with less | rfl
    · exact .inl ⟨passed.asked, less, fun m later upTo => passed.held m later (Nat.le_succ_of_le upTo)⟩
    · exact .inr ⟨rfl, passed.asked⟩
  · rintro ⟨held, passed | ⟨rfl, asked⟩⟩
    · refine ⟨passed.asked, Nat.lt_succ_of_lt passed.earlier, fun m later upTo => ?_⟩
      rcases Nat.lt_or_eq_of_le upTo with less | rfl
      · exact passed.held m later (Nat.le_of_lt_succ less)
      · exact held
    · refine ⟨asked, Nat.lt_succ_self _, fun m later upTo => ?_⟩
      rw [Nat.le_antisymm upTo later]
      exact held

theorem unremoved_succ_iff (earlier : i < j) : Unremoved qs i (j + 1) r ↔
    Unremoved qs i j r ∧ ∀ node part,
      (before qs j).Holds r node part → (before qs (j + 1)).Holds r node part := by
  constructor
  · intro all
    exact ⟨fun m later upTo => all m later (Nat.lt_succ_of_lt upTo), all j earlier (Nat.lt_succ_self _)⟩
  · rintro ⟨all, last⟩ m later upTo
    rcases Nat.lt_succ_iff_lt_or_eq.mp upTo with less | rfl
    · exact all m later less
    · exact last

theorem unremoved_self : Unremoved qs j (j + 1) r := by
  intro m later upTo
  omega

theorem remembered_succ_iff (kept : ∀ node part,
      (before qs j).Holds r node part → (before qs (j + 1)).Holds r node part) :
    Remembered qs (j + 1) r lastRef ↔ Remembered qs j r lastRef ∨ ∃ node part,
      qs[j]? = some (.associate r node part lastRef) ∧ (before qs (j + 1)).Holds r node part := by
  constructor
  · rintro ⟨i, node, part, passed, origin⟩
    obtain ⟨held, passed | ⟨rfl, asked⟩⟩ := passed_succ_iff.mp passed
    · refine .inl ⟨i, node, part, passed, origin.imp_right fun all => ?_⟩
      exact ((unremoved_succ_iff passed.earlier).mp all).1
    · exact .inr ⟨node, part, asked, held⟩
  · rintro (⟨i, node, part, passed, origin⟩ | ⟨node, part, asked, held⟩)
    · have held := kept node part (passed.held j passed.earlier (Nat.le_refl _))
      refine ⟨i, node, part, passed_succ_iff.mpr ⟨held, .inl passed⟩, origin.imp_right fun all => ?_⟩
      exact (unremoved_succ_iff passed.earlier).mpr ⟨all, kept⟩
    · exact ⟨j, node, part, passed_succ_iff.mpr ⟨held, .inr ⟨rfl, asked⟩⟩, .inr unremoved_self⟩

structure Recorded (qs : List Request) (j : Nat) (r : Reg) : Prop where
  stored : ∀ u ∈ (before qs j).users r, ∃ i, Passed qs j r i u.node u.part u.lastRef ∧
    ¬(before qs i).Holds r u.node u.part
  empty : (before qs j).users r = [] → (before qs j).maxLastRef r = 0
  bound : ∀ l, Remembered qs j r l → l ≤ (before qs j).maxLastRef r
  attained : (before qs j).users r ≠ [] → Remembered qs j r ((before qs j).maxLastRef r)

theorem descriptor_init (r : Reg) : init.users r = [] ∧ init.maxLastRef r = 0 := by
  unfold users maxLastRef get init
  split
  · simp
  · exact ⟨rfl, rfl⟩

theorem recorded_zero (qs : List Request) (r : Reg) : Recorded qs 0 r where
  stored u inside := by
    rw [show (before qs 0).users r = [] from (descriptor_init r).1] at inside
    cases inside
  empty _ := (descriptor_init r).2
  bound := by
    rintro l ⟨i, node, part, passed, -⟩
    exact absurd passed.earlier (Nat.not_lt_zero i)
  attained some_ := absurd (descriptor_init r).1 some_

theorem Passed.lastRef_eq {i' lastRef' : Nat} (passed : Passed qs j r i node part lastRef)
    (enters : ¬(before qs i).Holds r node part) (passed' : Passed qs j r i' node part lastRef')
    (enters' : ¬(before qs i').Holds r node part) : lastRef = lastRef' := by
  rcases Nat.lt_trichotomy i i' with less | rfl | greater
  · exact absurd (passed.held i' less (Nat.le_of_lt passed'.earlier)) enters'
  · have same := passed.asked.symm.trans passed'.asked
    simpa using same
  · exact absurd (passed'.held i greater (Nat.le_of_lt passed.earlier)) enters

theorem holds_of_mem {u : RegUser} (member : u ∈ f.users r) : f.Holds r u.node u.part :=
  ⟨u, member, rfl, rfl⟩

theorem not_holds_nil (none : f.users r = []) : ¬f.Holds r node part := by
  rintro ⟨u, member, -⟩
  rw [none] at member
  cases member

theorem latest_stored (us : List RegUser) : (∀ u ∈ us, u.lastRef ≤ (us.map RegUser.lastRef).foldl max 0) ∧
    (us ≠ [] → ∃ u ∈ us, u.lastRef = (us.map RegUser.lastRef).foldl max 0) := by
  cases found : (us.map RegUser.lastRef).max? with
  | none =>
    obtain rfl : us = [] := List.map_eq_nil_iff.mp (List.max?_eq_none_iff.mp found)
    exact ⟨List.forall_mem_nil _, fun some_ => absurd rfl some_⟩
  | some m =>
    have same : (us.map RegUser.lastRef).foldl max 0 = m := by
      rw [List.foldl_max, found]
      exact Nat.zero_max m
    obtain ⟨member, most⟩ := List.max?_eq_some_iff.mp found
    rw [same]
    refine ⟨fun u inside => most _ (List.mem_map_of_mem inside), fun _ => ?_⟩
    exact List.mem_map.mp member

section Step

variable (ih : Recorded qs j r) (here : qs[j]? = some q)
include ih here

theorem Recorded.same (users : (before qs (j + 1)).users r = (before qs j).users r)
    (latest : (before qs (j + 1)).maxLastRef r = (before qs j).maxLastRef r)
    (other : ∀ node part lastRef, q = .associate r node part lastRef → (before qs j).users r = []) :
    Recorded qs (j + 1) r := by
  have holds (node : NodeId) (part : Nat) :
      (before qs (j + 1)).Holds r node part ↔ (before qs j).Holds r node part := by
    rw [Holds, users, Holds]
  have remembered (l : Nat) : Remembered qs (j + 1) r l ↔ Remembered qs j r l := by
    rw [remembered_succ_iff fun node part => (holds node part).mpr]
    refine or_iff_left ?_
    rintro ⟨node, part, asked, held⟩
    refine not_holds_nil (users.trans (other node part l ?_)) held
    exact Option.some.inj (here.symm.trans asked)
  constructor
  · intro u inside
    obtain ⟨i, passed, enters⟩ := ih.stored u (users ▸ inside)
    exact ⟨i, passed_succ_iff.mpr ⟨holds_of_mem inside, .inl passed⟩, enters⟩
  · rw [users, latest]
    exact ih.empty
  · intro l known
    rw [latest]
    exact ih.bound l ((remembered l).mp known)
  · rw [users, latest, remembered]
    exact ih.attained

theorem Recorded.added (asked : q = .associate r node part lastRef)
    (users : (before qs (j + 1)).users r =
      if ((before qs j).users r).any (·.is node part) then (before qs j).users r
      else (before qs j).users r ++ [⟨node, part, lastRef⟩])
    (latest : (before qs (j + 1)).maxLastRef r = max ((before qs j).maxLastRef r) lastRef) :
    Recorded qs (j + 1) r := by
  subst asked
  have old {u : RegUser} (inside : u ∈ (before qs j).users r) : u ∈ (before qs (j + 1)).users r := by
    rw [users]
    split
    · exact inside
    · exact List.mem_append_left _ inside
  have kept (node : NodeId) (part : Nat) (held : (before qs j).Holds r node part) :
      (before qs (j + 1)).Holds r node part := by
    obtain ⟨u, inside, same⟩ := held
    exact ⟨u, old inside, same⟩
  have now : (before qs (j + 1)).Holds r node part := by
    by_cases held : ((before qs j).users r).any (·.is node part) = true
    · exact kept node part (any_is_iff.mp held)
    · rw [if_neg held] at users
      refine ⟨⟨node, part, lastRef⟩, ?_, rfl, rfl⟩
      rw [users]
      exact List.mem_append_right _ List.mem_cons_self
  have remembered (l : Nat) :
      Remembered qs (j + 1) r l ↔ Remembered qs j r l ∨ l = lastRef := by
    rw [remembered_succ_iff kept]
    refine or_congr_right ⟨?_, ?_⟩
    · rintro ⟨node', part', asked, -⟩
      have same := here.symm.trans asked
      simp only [Option.some.injEq, Request.associate.injEq] at same
      exact same.2.2.2.symm
    · rintro rfl
      exact ⟨node, part, here, now⟩
  constructor
  · intro u inside
    have held := holds_of_mem inside
    by_cases was : u ∈ (before qs j).users r
    · obtain ⟨i, passed, enters⟩ := ih.stored u was
      exact ⟨i, passed_succ_iff.mpr ⟨held, .inl passed⟩, enters⟩
    · rw [users] at inside
      split at inside
      · exact absurd inside was
      · rename_i absent
        obtain rfl : u = ⟨node, part, lastRef⟩ :=
          List.mem_singleton.mp ((List.mem_append.mp inside).resolve_left was)
        refine ⟨j, passed_succ_iff.mpr ⟨held, .inr ⟨rfl, here⟩⟩, ?_⟩
        exact fun held => absent (any_is_iff.mpr held)
  · exact fun none => absurd now (not_holds_nil none)
  · intro l known
    rw [latest]
    rcases (remembered l).mp known with before | rfl
    · exact Nat.le_trans (ih.bound l before) (Nat.le_max_left _ _)
    · exact Nat.le_max_right _ _
  · intro _
    rw [remembered, latest]
    rcases Nat.lt_or_ge lastRef ((before qs j).maxLastRef r) with earlier | later
    · have some_ : (before qs j).users r ≠ [] := by
        intro none
        rw [ih.empty none] at earlier
        exact Nat.not_lt_zero _ earlier
      rw [Nat.max_eq_left (Nat.le_of_lt earlier)]
      exact .inl (ih.attained some_)
    · exact .inr (Nat.max_eq_right later)

theorem Recorded.removed (asked : q = .dissociate r node part)
    (held : (before qs j).Holds r node part)
    (users : (before qs (j + 1)).users r =
      ((before qs j).users r).filter fun u => !u.is node part)
    (latest : (before qs (j + 1)).maxLastRef r =
      (((before qs (j + 1)).users r).map RegUser.lastRef).foldl max 0) :
    Recorded qs (j + 1) r := by
  subst asked
  have left : ¬(before qs (j + 1)).Holds r node part := by
    rw [Holds, users]
    rintro ⟨u, inside, same⟩
    have other := (List.mem_filter.mp inside).2
    simp [RegUser.is, same] at other
  have old {u : RegUser} (inside : u ∈ (before qs (j + 1)).users r) : u ∈ (before qs j).users r := by
    rw [users] at inside
    exact (List.mem_filter.mp inside).1
  have stored (u : RegUser) (inside : u ∈ (before qs (j + 1)).users r) :
      ∃ i, Passed qs (j + 1) r i u.node u.part u.lastRef ∧ ¬(before qs i).Holds r u.node u.part := by
    obtain ⟨i, passed, enters⟩ := ih.stored u (old inside)
    exact ⟨i, passed_succ_iff.mpr ⟨holds_of_mem inside, .inl passed⟩, enters⟩
  obtain ⟨most, reached⟩ := latest_stored ((before qs (j + 1)).users r)
  rw [← latest] at most reached
  constructor
  · exact stored
  · intro none
    rw [latest, none]
    rfl
  · rintro l ⟨i, node', part', passed, origin⟩
    obtain ⟨⟨u, inside, rfl, rfl⟩, passed' | ⟨-, asked⟩⟩ := passed_succ_iff.mp passed
    · -- A part has left the register, so only what came with the others is remembered.
      have enters : ¬(before qs i).Holds r u.node u.part := by
        refine origin.resolve_right fun all => left ?_
        exact ((unremoved_succ_iff passed'.earlier).mp all).2 node part held
      obtain ⟨i', entered, enters'⟩ := stored u inside
      rw [passed.lastRef_eq enters entered enters']
      exact most u inside
    · cases here.symm.trans asked
  · intro some_
    obtain ⟨u, inside, same⟩ := reached some_
    obtain ⟨i, passed, enters⟩ := stored u inside
    exact ⟨i, u.node, u.part, same ▸ passed, .inl enters⟩

end Step

theorem recorded_of_users_nil (users : (before qs (j + 1)).users r = [])
    (latest : (before qs (j + 1)).maxLastRef r = 0) : Recorded qs (j + 1) r where
  stored u inside := by
    rw [users] at inside
    cases inside
  empty _ := latest
  bound := by
    rintro l ⟨i, node, part, passed, -⟩
    exact absurd (passed.held (j + 1) passed.earlier (Nat.le_refl _)) (not_holds_nil users)
  attained some_ := absurd users some_

theorem recorded (qs : List Request) (j : Nat) (within : j ≤ qs.length) (r : Reg) :
    Recorded qs j r := by
  induction j with
  | zero => exact recorded_zero qs r
  | succ j ih =>
    have ih := ih (Nat.le_of_succ_le within)
    have here : qs[j]? = some qs[j] := List.getElem?_eq_getElem within
    have changed := change (sound_before qs j) qs[j] r
    rw [← before_succ here] at changed
    cases changed with
    | nothing users latest other => exact ih.same here users latest other
    | added asked users latest => exact ih.added here asked users latest
    | removed asked held users latest => exact ih.removed here asked held users latest
    | emptied users latest => exact recorded_of_users_nil users latest

structure Tracked (qs : List Request) : Prop where
  reserved : ∀ r : Reg, r.number < Reg.count →
    ((after qs).state r = .reserved ↔ r = .ebp ∨ r = .esp)
  unused : ∀ r, (after qs).state r = .reserved → (after qs).users r = []
  inUse : ∀ r, (after qs).state r ≠ .reserved →
    ((after qs).state r = .inUse ↔ (after qs).users r ≠ [])
  distinct : ∀ r, (((after qs).users r).map fun u => (u.node, u.part)).Nodup
  refused : ∀ q : Request, ((∃ e, q.run (after qs) = .error e) ↔ (after qs).Refuses q) ∧
    ((after qs).Refuses q → q.apply (after qs) = after qs)
  unreferred : ∀ r, (after qs).users r = [] → (after qs).maxLastRef r = 0
  latest : ∀ r, (after qs).users r ≠ [] →
    IsGreatest {l | Remembered qs qs.length r l} ((after qs).maxLastRef r)
  /-- Unless a part was put in again before the last removal, nothing that was said is forgotten. -/
  whole : ∀ r, (after qs).users r ≠ [] →
    (∀ i node part l, Passed qs qs.length r i node part l →
      ¬(before qs i).Holds r node part ∨ Unremoved qs i qs.length r) →
    IsGreatest {l | Referred qs qs.length r l} ((after qs).maxLastRef r)

/-- After every history of requests, granted or not, the descriptors track the parts of values in the
registers. The latest reference to a register is exactly the greatest of those remembered. -/
theorem descriptors_track_users (qs : List Request) : Tracked qs := by
  have sound : (after qs).Sound := before_length qs ▸ sound_before qs qs.length
  have recorded (r : Reg) := recorded qs qs.length (Nat.le_refl _) r
  have latest (r : Reg) (some_ : (after qs).users r ≠ []) :
      IsGreatest {l | Remembered qs qs.length r l} ((after qs).maxLastRef r) := by
    rw [← before_length] at some_ ⊢
    exact ⟨(recorded r).attained some_, (recorded r).bound⟩
  constructor
  · intro r inside
    rw [sound.reserved r, Reg.Allocatable]
    simp only [inside, true_and, not_and_or, ne_eq, Classical.not_not]
  · exact fun r reserved => sound.empty r ((sound.reserved r).mp reserved)
  · exact sound.inUse
  · exact sound.distinct
  · exact fun q => ⟨(refuses_iff sound q).symm, apply_of_refuses sound⟩
  · intro r none
    rw [← before_length] at none ⊢
    exact (recorded r).empty none
  · exact latest
  · intro r some_ kept
    obtain ⟨⟨i, node, part, passed, -⟩, most⟩ := latest r some_
    refine ⟨⟨i, node, part, passed⟩, ?_⟩
    rintro l ⟨i, node, part, passed⟩
    exact most ⟨i, node, part, passed, kept i node part l passed⟩

/-- A part is put in again with a later reference; then another one comes and goes. -/
def renewal : List Request :=
  [.associate .ebx ⟨1⟩ 0 5, .associate .ebx ⟨1⟩ 0 20, .associate .ebx ⟨2⟩ 0 7,
    .dissociate .ebx ⟨2⟩ 0]

theorem passed_renewal : Passed renewal 4 .ebx 1 ⟨1⟩ 0 20 := by
  refine ⟨rfl, by decide, fun m later upTo => any_is_iff.mp ?_⟩
  obtain rfl | rfl | rfl : m = 2 ∨ m = 3 ∨ m = 4 := by omega
  all_goals decide

/-- The later reference is forgotten although the part is still there. -/
theorem renewed_reference_forgotten : (after renewal).users .ebx ≠ [] ∧
    ¬IsGreatest {l | Referred renewal renewal.length .ebx l} ((after renewal).maxLastRef .ebx) := by
  refine ⟨by decide, ?_⟩
  rintro ⟨-, most⟩
  have bound : 20 ≤ (after renewal).maxLastRef .ebx := most ⟨1, ⟨1⟩, 0, passed_renewal⟩
  exact absurd bound (by decide)

end CBackend.RegisterFile
