import Mathlib.Logic.Basic
import Mathlib.Tactic.ByContra
import Mathlib.Tactic.Tauto
import CBackend.RegisterFile

/-!
What a register file looks like after any use of it: no part of a value is listed twice in a
register, a register is in use exactly while it has users, and the frame and stack pointer stay
reserved. Each operation is also described by the parts of values it adds or removes.
-/

namespace CBackend

def Reg.Allocatable (r : Reg) : Prop := r.number < Reg.count ∧ r ≠ .ebp ∧ r ≠ .esp

instance (r : Reg) : Decidable r.Allocatable := inferInstanceAs (Decidable (_ ∧ _))

def RegChoice.reg : RegChoice → Reg
  | available r | evict r => r

namespace RegisterFile

def Holds (f : RegisterFile) (r : Reg) (node : NodeId) (part : Nat) : Prop :=
  ∃ u ∈ f.users r, u.node = node ∧ u.part = part

structure Sound (f : RegisterFile) : Prop where
  distinct : ∀ r, ((f.users r).map fun u => (u.node, u.part)).Nodup
  inUse : ∀ r, f.state r ≠ .reserved → (f.state r = .inUse ↔ f.users r ≠ [])
  reserved : ∀ r, f.state r = .reserved ↔ ¬r.Allocatable
  empty : ∀ r, ¬r.Allocatable → f.users r = []

variable {f f' : RegisterFile} {r : Reg} {node : NodeId} {part lastRef : Nat} {candidates : RegMask}

theorem any_is_iff : (f.users r).any (·.is node part) = true ↔ f.Holds r node part := by
  simp [Holds, RegUser.is]

theorem Sound.set (sound : f.Sound) {d : RegDescriptor} (allocatable : r.Allocatable)
    (distinct : (d.users.map fun u => (u.node, u.part)).Nodup)
    (inUse : d.state = .inUse ↔ d.users ≠ []) (state : d.state ≠ .reserved) :
    (f.set r d).Sound := by
  have inside := allocatable.1
  have cases (s : Reg) : s = r ∧ (f.set r d).get s = d ∨ s ≠ r ∧ (f.set r d).get s = f.get s := by
    by_cases same : s = r
    · exact .inl ⟨same, by rw [same, get_set_self f inside]⟩
    · exact .inr ⟨same, get_set_other f (fun h => same h.symm) d⟩
  constructor
  · intro s
    rcases cases s with ⟨rfl, here⟩ | ⟨-, there⟩
    · rw [users, here]
      exact distinct
    · rw [users, there]
      exact sound.distinct s
  · intro s
    rcases cases s with ⟨rfl, here⟩ | ⟨-, there⟩
    · rw [RegisterFile.state, users, here]
      exact fun _ => inUse
    · rw [RegisterFile.state, users, there]
      exact sound.inUse s
  · intro s
    rcases cases s with ⟨rfl, here⟩ | ⟨-, there⟩
    · rw [RegisterFile.state, here]
      simp [state, allocatable]
    · rw [RegisterFile.state, there]
      exact sound.reserved s
  · intro s other
    rcases cases s with ⟨rfl, -⟩ | ⟨-, there⟩
    · exact absurd allocatable other
    · rw [users, there]
      exact sound.empty s other

theorem holds_set (inside : r.number < Reg.count) (d : RegDescriptor) (s : Reg) (node : NodeId)
    (part : Nat) : (f.set r d).Holds s node part ↔
      if s = r then ∃ u ∈ d.users, u.node = node ∧ u.part = part else f.Holds s node part := by
  split
  · rename_i same
    rw [Holds, users, same, get_set_self f inside]
  · rename_i other
    rw [Holds, users, get_set_other f (fun h => other h.symm), Holds, users]

theorem sound_init : init.Sound := by
  have descriptor (r : Reg) : init.get r =
      { state := if r.Allocatable then .free else .reserved } := by
    unfold get init
    by_cases inside : r.number < Reg.count
    · have special : ¬r.Allocatable ↔
          r.number = Reg.ebp.number ∨ r.number = Reg.esp.number := by
        cases r
        simp only [Reg.Allocatable, inside, true_and, Reg.ebp, Reg.esp, ne_eq, Reg.mk.injEq]
        tauto
      rw [dif_pos inside]
      by_cases allocatable : r.Allocatable
      · simp [allocatable, special.not.mp (not_not.mpr allocatable)]
      · simp [allocatable, special.mp allocatable]
    · rw [dif_neg inside, if_neg fun allocatable => inside allocatable.1]
      rfl
  constructor
  · intro r
    simp [users, descriptor]
  · intro r
    simp only [state, users, descriptor]
    split <;> simp
  · intro r
    simp only [state, descriptor]
    split <;> simp_all
  · intro r _
    simp [users, descriptor]

theorem sound_reset (reserved : ∀ r, f.state r = .reserved ↔ ¬r.Allocatable) :
    f.reset.Sound ∧ ∀ r, f.reset.users r = [] := by
  have descriptor (r : Reg) : f.reset.get r =
      { state := if r.Allocatable then .free else .reserved } := by
    have same := reserved r
    unfold RegisterFile.state get at same
    unfold get reset
    by_cases inside : r.number < Reg.count
    · rw [dif_pos inside] at same ⊢
      by_cases allocatable : r.Allocatable
      · have other : f.regs[r.number].state ≠ .reserved := fun h => same.mp h allocatable
        simp [allocatable, other]
      · simp [allocatable, same.mpr allocatable]
    · rw [dif_neg inside, if_neg fun allocatable => inside allocatable.1]
      rfl
  refine ⟨⟨?_, ?_, ?_, ?_⟩, ?_⟩
  · intro r
    simp [users, descriptor]
  · intro r
    simp only [state, users, descriptor]
    split <;> simp
  · intro r
    simp only [state, descriptor]
    split <;> simp_all
  · intro r _
    simp [users, descriptor]
  · intro r
    simp [users, descriptor]

theorem associate_run (sound : f.Sound) (allocatable : r.Allocatable) (node : NodeId)
    (part lastRef : Nat) :
    ∃ f', f.associate r node part lastRef = .ok f' ∧ f'.Sound ∧
      ∀ s n p, f'.Holds s n p ↔ f.Holds s n p ∨ s = r ∧ n = node ∧ p = part := by
  have state : f.state r ≠ .reserved := fun h => (sound.reserved r).mp h allocatable
  refine ⟨_, if_neg state, sound.set allocatable ?_ ?_ nofun, fun s n p => ?_⟩
  · dsimp only
    split
    · exact sound.distinct r
    · rename_i absent
      rw [List.map_append, List.nodup_append]
      refine ⟨sound.distinct r, by simp, ?_⟩
      intro a inside b last
      obtain ⟨u, member, rfl⟩ := List.mem_map.mp inside
      rw [List.map_singleton, List.mem_singleton] at last
      rintro rfl
      refine absent (any_is_iff.mpr ⟨u, member, ?_⟩)
      exact Prod.mk.inj last
  · dsimp only
    split
    · rename_i found
      obtain ⟨u, member, -⟩ := any_is_iff.mp found
      simp [List.ne_nil_of_mem (show u ∈ (f.get r).users from member)]
    · simp
  · rw [holds_set allocatable.1]
    split
    · rename_i same
      subst same
      dsimp only
      split
      · rename_i found
        constructor
        · exact .inl
        · rintro (old | ⟨-, rfl, rfl⟩)
          · exact old
          · exact any_is_iff.mp found
      · simp only [List.mem_append, List.mem_singleton, or_and_right, exists_or, exists_eq_left,
          true_and, eq_comm (a := node), eq_comm (a := part)]
        rfl
    · rename_i other
      simp [other]

structure Sheds (f : RegisterFile) (gone : Reg → NodeId → Nat → Prop) (f' : RegisterFile) : Prop where
  holds : ∀ r n p, f'.Holds r n p ↔ f.Holds r n p ∧ ¬gone r n p
  pins : ∀ r, (f'.get r).pins = (f.get r).pins
  state : ∀ r, f'.state r = f.state r ∨ f'.state r = .free ∧ f.users r ≠ []

variable {f'' : RegisterFile} {gone gone' : Reg → NodeId → Nat → Prop}

theorem Holds.users_ne_nil (held : f.Holds r node part) : f.users r ≠ [] := by
  obtain ⟨u, listed, -⟩ := held
  exact List.ne_nil_of_mem listed

theorem users_ne_nil_iff : f.users r ≠ [] ↔ ∃ node part, f.Holds r node part := by
  constructor
  · intro some_
    obtain ⟨u, listed⟩ := List.exists_mem_of_ne_nil _ some_
    exact ⟨u.node, u.part, u, listed, rfl, rfl⟩
  · rintro ⟨node, part, held⟩
    exact held.users_ne_nil

theorem Sheds.refl (f : RegisterFile) (none : ∀ r n p, f.Holds r n p → ¬gone r n p) :
    f.Sheds gone f :=
  ⟨fun r n p => (and_iff_left_of_imp (none r n p)).symm, fun _ => rfl, fun _ => .inl rfl⟩

theorem Sheds.users_ne_nil (sheds : f.Sheds gone f') (some_ : f'.users r ≠ []) : f.users r ≠ [] := by
  obtain ⟨n, p, held⟩ := users_ne_nil_iff.mp some_
  exact ((sheds.holds r n p).mp held).1.users_ne_nil

theorem Sheds.trans (first : f.Sheds gone f') (second : f'.Sheds gone' f'') :
    f.Sheds (fun r n p => gone r n p ∨ gone' r n p) f'' where
  holds r n p := by rw [second.holds, first.holds, and_assoc, not_or]
  pins r := (second.pins r).trans (first.pins r)
  state r := by
    rcases second.state r with same | ⟨free, some_⟩
    · rw [same]
      exact first.state r
    · exact .inr ⟨free, first.users_ne_nil some_⟩

theorem Sheds.congr (sheds : f.Sheds gone f')
    (same : ∀ r n p, f.Holds r n p → (gone r n p ↔ gone' r n p)) : f.Sheds gone' f' where
  holds r n p := by
    rw [sheds.holds]
    exact and_congr_right fun held => not_congr (same r n p held)
  pins := sheds.pins
  state := sheds.state

theorem dissociate_sheds (held : f.Holds r node part) :
    ∃ f', f.dissociate r node part = .ok f' ∧
      f.Sheds (fun s n p => s = r ∧ n = node ∧ p = part) f' ∧ (f.Sound → f'.Sound) := by
  have inside : r.number < Reg.count := by
    by_contra outside
    exact held.users_ne_nil (by simp [users, get, outside, default])
  refine ⟨_, if_pos (any_is_iff.mpr held), ⟨fun s n p => ?_, fun s => ?_, fun s => ?_⟩, fun sound => ?_⟩
  · rw [holds_set inside]
    split
    · rename_i same
      subst same
      simp only [List.mem_filter, RegUser.is, Bool.not_eq_true', decide_eq_false_iff_not, true_and]
      constructor
      · rintro ⟨u, ⟨listed, other⟩, rfl, rfl⟩
        exact ⟨⟨u, listed, rfl, rfl⟩, other⟩
      · rintro ⟨⟨u, listed, rfl, rfl⟩, other⟩
        exact ⟨u, ⟨listed, other⟩, rfl, rfl⟩
    · rename_i other
      simp [other]
  · by_cases same : r = s
    · subst same
      rw [get_set_self _ inside]
    · rw [get_set_other _ same]
  · by_cases same : r = s
    · subst same
      simp only [state, get_set_self _ inside]
      split
      · exact .inr ⟨rfl, held.users_ne_nil⟩
      · exact .inl rfl
    · rw [state, get_set_other _ same]
      exact .inl rfl
  · have allocatable : r.Allocatable := by
      by_contra other
      exact held.users_ne_nil (sound.empty r other)
    have state : f.state r ≠ .reserved := fun h => (sound.reserved r).mp h allocatable
    refine sound.set allocatable ((List.filter_sublist.map _).nodup (sound.distinct r)) ?_ ?_
    · dsimp only
      split
      · rename_i none
        simp [List.isEmpty_iff.mp none]
      · rename_i more
        rw [List.isEmpty_iff] at more
        simp only [more, ne_eq, not_false_eq_true, iff_true]
        exact (sound.inUse r state).mpr held.users_ne_nil
    · dsimp only
      split
      · intro reserved
        cases reserved
      · exact state

/-- Two register files that hold the same values, in registers of the same state. -/
def Alike (f f' : RegisterFile) : Prop := ∀ r, f'.users r = f.users r ∧ f'.state r = f.state r

theorem Alike.holds (alike : f.Alike f') (r : Reg) (node : NodeId) (part : Nat) :
    f'.Holds r node part ↔ f.Holds r node part := by
  rw [Holds, (alike r).1, Holds]

theorem Sound.alike (sound : f.Sound) (alike : f.Alike f') : f'.Sound := by
  constructor
  · intro r
    rw [(alike r).1]
    exact sound.distinct r
  · intro r
    rw [(alike r).1, (alike r).2]
    exact sound.inUse r
  · intro r
    rw [(alike r).2]
    exact sound.reserved r
  · intro r
    rw [(alike r).1]
    exact sound.empty r

theorem alike_set {d : RegDescriptor} (users : d.users = f.users r) (state : d.state = f.state r) :
    f.Alike (f.set r d) := by
  intro s
  by_cases inside : r.number < Reg.count
  · by_cases same : r = s
    · subst same
      simp only [RegisterFile.users, RegisterFile.state, get_set_self f inside]
      exact ⟨users, state⟩
    · simp only [RegisterFile.users, RegisterFile.state, get_set_other f same, and_self]
  · simp [RegisterFile.set, inside]

theorem alike_of_pin (ok : f.pin r = .ok f') : f.Alike f' := by
  unfold pin at ok
  dsimp only at ok
  split at ok
  · cases ok
  · cases ok
    exact alike_set rfl rfl

theorem alike_of_unpin (ok : f.unpin r = .ok f') : f.Alike f' := by
  unfold unpin at ok
  dsimp only at ok
  split at ok
  · cases ok
  · cases ok
    exact alike_set rfl rfl

theorem inside_of_state (usable : f.state r ≠ .reserved) : r.number < Reg.count := by
  by_contra outside
  exact usable (by simp [state, get, outside, default])

theorem mem_usable_iff : r ∈ f.usable candidates ↔
    candidates.contains r = true ∧ f.state r ≠ .reserved ∧ f.isPinned r = false := by
  simp only [usable, RegMask.toList, List.mem_filter, Reg.mem_all, Bool.and_eq_true, bne_iff_ne,
    Bool.not_eq_true']
  constructor
  · rintro ⟨⟨-, inside⟩, here⟩
    exact ⟨inside, here⟩
  · rintro ⟨inside, here⟩
    exact ⟨⟨inside_of_state here.1, inside⟩, here⟩

theorem furthest_mem {rs : List Reg} (found : f.furthest rs = some r) : r ∈ rs := by
  have search (rest : List Reg) (best : Reg) :
      rest.foldl (fun best s => if f.maxLastRef best < f.maxLastRef s then s else best) best ∈
        best :: rest := by
    induction rest generalizing best with
    | nil => exact List.mem_cons_self
    | cons s rest ih =>
      rw [List.foldl_cons]
      rcases List.mem_cons.mp (ih (if f.maxLastRef best < f.maxLastRef s then s else best)) with
        here | later
      · rw [here]
        split
        · exact List.mem_cons_of_mem _ List.mem_cons_self
        · exact List.mem_cons_self
      · exact List.mem_cons_of_mem _ (List.mem_cons_of_mem _ later)
  cases rs with
  | nil => cases found
  | cons first rest =>
    cases found
    exact search rest first

theorem choose_mem {seq : Nat} {choice : RegChoice} (ok : f.choose candidates seq = .ok choice) :
    choice.reg ∈ f.usable candidates := by
  unfold choose at ok
  dsimp only at ok
  split at ok
  · rename_i found
    cases ok
    exact List.mem_of_find?_eq_some found
  · split at ok
    · rename_i found
      cases ok
      exact List.mem_of_find?_eq_some found
    · split at ok
      · rename_i found
        cases ok
        exact furthest_mem found
      · cases ok

theorem choose_error {seq : Nat} {e : RegisterError} (failed : f.choose candidates seq = .error e) :
    e = .noneAvailable candidates := by
  unfold choose at failed
  dsimp only at failed
  split at failed
  · cases failed
  · split at failed
    · cases failed
    · split at failed
      · cases failed
      · cases failed
        rfl

end RegisterFile

end CBackend
