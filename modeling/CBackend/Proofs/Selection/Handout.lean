import Mathlib.Logic.Function.Iterate
import CBackend.Proofs.Selection.Vacating

/-!
A register that is handed out can be overwritten. The search for one ends by itself, since each
operand that waits is moved to memory at most once. What it finds holds nothing, and every value that
is still needed is where it was or at a slot of its own that it has been stored to. For this each
operand must wait where its value is: the registers of an operand that has been overtaken by another
value are stored in its place.
-/

namespace CBackend

namespace RegisterFile

variable {f : RegisterFile} {r : Reg}

theorem usable_of_choose_error {candidates : RegMask} {seq : Nat} {e : RegisterError}
    (failed : f.choose candidates seq = .error e) : f.usable candidates = [] := by
  unfold choose at failed
  dsimp only at failed
  split at failed
  · cases failed
  · split at failed
    · cases failed
    · split at failed
      · cases failed
      · rename_i none
        cases usable : f.usable candidates with
        | nil => rfl
        | cons r rest =>
          rw [usable] at none
          cases none
end RegisterFile

namespace Generator

/-- No register of the mask can be handed out: all that could are pinned, and none of them by an
operand that could be moved. -/
structure Exhausted (g : Generator) (mask : RegMask) : Prop where
  pinned : ∀ r, mask.contains r = true → g.regs.state r ≠ .reserved → g.regs.isPinned r = true
  waiting : ∀ h ∈ g.held, h.demoted = false → h.operand.format = .reg →
    ∀ r ∈ h.operand.regs, mask.contains r = false

/-- A value that waits in registers and has no copy is still located there. -/
def Steady (g : Generator) : Prop :=
  ∀ h ∈ g.held, h.demoted = false → h.operand.format = .reg →
    (g.pool.node h.node).spill = none → (g.pool.node h.node).loc = some h.operand

instance (g : Generator) : Decidable g.Steady :=
  inferInstanceAs (Decidable (∀ h ∈ g.held, _ → _ → _ → _))

/-- The slots of the frame are apart, and copies that are needed are at slots of their owners. -/
structure Housed (g : Generator) : Prop where
  laid : ∃ params, FrameHistory.Ordered ⟨g.frame, g.symbols, params⟩
  own : ∀ id slot, (g.pool.node id).isLiveAt g.seq = true →
    (g.pool.node id).spill = some slot → g.Lodges id slot

/-- A register of the mask has been handed out that can be overwritten; `stored` says which values
had been stored to which slots before. -/
structure HandsOut (g : Generator) (stored : NodeId → Int → Prop) (mask : RegMask) (r : Reg)
    (new : List Instr) (g' : Generator) : Prop where
  candidate : mask.contains r = true
  unreserved : g'.regs.state r ≠ .reserved
  reserved : ∀ s, g.regs.state s = .reserved → g.regs.users s = [] → g'.regs.state s = .reserved
  unpinned : g'.regs.isPinned r = false
  empty : g'.regs.users r = []
  emits : g.Emits new g'
  stores : ∀ i ∈ new, ∃ id slot, g.StoredBy id slot i ∧ g'.frame.HasTemp slot
  /-- A value that is needed keeps its registers, all others than `r`, or is at a slot of its own
  that it has been stored to. -/
  kept : ∀ id lo hi, (g.pool.node id).isLiveAt g.seq = true → ¬(g.pool.node id).IsRemade →
    (g.pool.node id).loc = some (.reg lo hi) →
    (g'.pool.node id).loc = some (.reg lo hi) ∧ lo ≠ r ∧ hi ≠ some r ∨
      ∃ slot, (g'.pool.node id).spill = some slot ∧
        (g'.pool.node id).loc = some (slotOperand slot) ∧ g'.Lodges id slot ∧
        (stored id slot ∨ ∃ i ∈ new, g.StoredBy id slot i)
  /-- No two values that are needed share a byte, as long as offsets reach all of the frame. -/
  apart : g'.frame.cursor < 0x80000000 → ∀ id id' slot slot', id ≠ id' →
    (g'.pool.node id).isLiveAt g'.seq = true → (g'.pool.node id').isLiveAt g'.seq = true →
    (g'.pool.node id).spill = some slot → (g'.pool.node id').spill = some slot' →
    Extent.Apart ⟨slot, (g'.pool.node id).ty.size⟩ ⟨slot', (g'.pool.node id').ty.size⟩

variable {g g' : Generator} {id id' : NodeId} {slot slot' : Int}

theorem Steady.storedBy (steady : g.Steady) {i : Instr} (copied : g.CopiedBy id slot i) :
    g.StoredBy id slot i := by
  obtain ⟨src, stores, ty, fresh, place | waits⟩ := copied
  · exact ⟨src, stores, ty, place⟩
  · exact ⟨src, stores, ty, steady _ waits rfl stores.registers fresh⟩

theorem Housed.lodges (housed : g.Housed) {new : List Instr} (moved : g.Vacates new g')
    (live : (g.pool.node id).isLiveAt g.seq = true)
    (copied : (g'.pool.node id).spill = some slot) : g'.Lodges id slot := by
  rcases moved.copies id slot copied with old | ⟨-, lodged⟩
  · exact moved.lodges live (housed.own id slot live old)
  · exact lodged live

theorem Lodges.apart {s : FrameHistory} (ordered : s.Ordered) (frame : s.frame = g.frame)
    (other : id ≠ id') (here : g.Lodges id slot) (there : g.Lodges id' slot') :
    Extent.Apart ⟨slot, (g.pool.node id).ty.size⟩ ⟨slot', (g.pool.node id').ty.size⟩ := by
  obtain ⟨t, inside, rfl, owner, large, -⟩ := here
  obtain ⟨t', inside', rfl, owner', large', -⟩ := there
  rw [← frame] at inside inside'
  obtain ⟨before, after, whole⟩ := List.append_of_mem inside
  have rest : .temp t' ∈ before ++ after := by
    rw [whole, List.mem_append, List.mem_cons] at inside'
    rcases inside' with first | same | last
    · exact List.mem_append_left _ first
    · cases same
      exact absurd (owner.symm.trans owner') other
    · exact List.mem_append_right _ last
  have apart := (whole ▸ ordered.stacked).apart_of_mem (e := .temp t) rfl rest rfl
  exact ((apart.shrink large).symm.shrink large').symm

end Generator

namespace Gen

open Generator

variable {α : Type} {g : Generator} {id : NodeId} {mask : RegMask}

theorem exhausted {seq : Nat} {e : RegisterError} (failed : g.regs.choose mask seq = .error e)
    (none : ∀ h ∈ g.held, HeldValue.occupies h mask = false) : g.Exhausted mask where
  pinned r inside state := by
    by_contra free
    have usable : r ∈ g.regs.usable mask :=
      RegisterFile.mem_usable_iff.mpr ⟨inside, state, by simpa using free⟩
    rw [RegisterFile.usable_of_choose_error failed] at usable
    cases usable
  waiting h inside waits format r reads := by
    have absent := none h inside
    simp only [HeldValue.occupies, waits, format, beq_self_eq_true, Bool.not_false, Bool.true_and,
      List.any_eq_false, Bool.not_eq_true] at absent
    exact absent r reads

theorem of_not_lacking {e : CompileError} {g' : Generator} (quiet : e.lacksRegister = false) :
    e.lacksRegister = true → e = .invariant (.register (.noneAvailable mask)) ∧ g'.Exhausted mask := by
  intro lacks
  rw [quiet] at lacks
  cases lacks

theorem chooseRegister_search (mask : RegMask) {tries : Nat} (enough : g.waiting < tries) :
    Ends (chooseRegister mask tries) g (fun choice g' => choice.reg ∈ g'.regs.usable mask)
      fun e g' => e.lacksRegister = true →
        e = .invariant (.register (.noneAvailable mask)) ∧ g'.Exhausted mask := by
  induction tries generalizing g with
  | zero => exact absurd enough (Nat.not_lt_zero _)
  | succ tries ih =>
    unfold chooseRegister
    refine .after_ok (x := get) rfl (.after_ok (x := get) rfl ?_)
    cases chosen : g.regs.choose mask g.seq with
    | ok choice => exact RegisterFile.choose_mem chosen
    | error e =>
      refine ((demote_search g mask).mono (fun _ _ here => here) fun _ _ => of_not_lacking).bind
        fun moved g₁ here => ?_
      cases moved with
      | false =>
        obtain ⟨rfl, none⟩ := here
        intro _
        exact ⟨by rw [RegisterFile.choose_error chosen], exhausted chosen none⟩
      | true =>
        rw [if_pos rfl] at here
        have reaps := ((@handles_reap (fun _ => False) false mask).keeps_held g₁.held).ends g₁ rfl
        refine (reaps.mono (fun _ _ here => here) fun _ _ => of_not_lacking).bind ?_
        rintro _ g₂ ⟨same, -⟩
        refine ih ?_
        rw [waiting, same]
        change g₁.waiting < tries
        omega

theorem chooseRegister_vacates (start : g.Matched) (mask : RegMask) (tries : Nat) :
    Ends (chooseRegister mask tries) g (fun _ g' => g.Vacated g') fun _ _ => True := by
  induction tries generalizing g with
  | zero => trivial
  | succ tries ih =>
    unfold chooseRegister
    refine .after_ok (x := get) rfl (.after_ok (x := get) rfl ?_)
    cases g.regs.choose mask g.seq with
    | ok choice => exact .refl start
    | error e =>
      refine (demote_vacates start mask).bind fun moved g₁ here => ?_
      cases moved with
      | false => trivial
      | true =>
        have moved := here rfl
        refine ((reap_vacates moved.matched mask).mono (fun _ _ here => here)
          fun _ _ _ => trivial).bind ?_
        rintro _ g₂ ⟨moved₂, -⟩
        refine (ih moved₂.matched).imp fun _ _ last => ?_
        exact (moved.trans start moved₂).trans start last

theorem bind_congr_ok {β : Type} {x : Gen α} {f f' : α → Gen β}
    (same : ∀ a g', x g = .ok a g' → f a g' = f' a g') : (x >>= f) g = (x >>= f') g := by
  change EStateM.bind x f g = EStateM.bind x f' g
  unfold EStateM.bind
  cases run : x g with
  | ok a g' => exact same a g' run
  | error => rfl

def chooseRound (mask : RegMask) (again : Gen RegChoice) : Gen RegChoice := do
  match (← get).regs.choose mask (← get).seq with
  | .ok choice => return choice
  | .error e =>
    if ← demote mask then
      reap mask
      again
    else throw (.invariant (.register e))

theorem chooseRegister_eq_iterate (mask : RegMask) (tries : Nat) : chooseRegister mask tries =
    (chooseRound mask)^[tries] (throw (.invariant (.register (.noneAvailable mask)))) := by
  induction tries with
  | zero => rfl
  | succ tries ih =>
    rw [Function.iterate_succ_apply', ← ih]
    rfl

theorem chooseRound_iterate {rounds : Nat} (enough : g.waiting < rounds) (cut cut' : Gen RegChoice) :
    (chooseRound mask)^[rounds] cut g = (chooseRound mask)^[rounds] cut' g := by
  induction rounds generalizing g with
  | zero => cases enough
  | succ rounds ih =>
    rw [Function.iterate_succ_apply', Function.iterate_succ_apply']
    unfold chooseRound
    refine bind_congr_ok fun g₁ g₂ run => bind_congr_ok fun g₃ g₄ run' => ?_
    obtain ⟨rfl, rfl⟩ := get_eq_ok.mp run
    obtain ⟨rfl, rfl⟩ := get_eq_ok.mp run'
    cases g.regs.choose mask g.seq with
    | ok => rfl
    | error e =>
      refine bind_congr_ok fun moved g₁ run => ?_
      cases moved with
      | false => rfl
      | true =>
        -- An operand has been moved to memory, so fewer wait for the rounds that are left.
        have fewer := (demote_search g mask).ok run
        rw [if_pos rfl] at fewer
        refine bind_congr_ok fun _ g₂ run => ?_
        have reaps := ((@handles_reap (fun _ => False) false mask).keeps_held g₁.held).ends g₁ rfl
        have same : g₂.waiting = g₁.waiting := by rw [waiting, (reaps.ok run).1, waiting]
        exact ih (by omega)

theorem chooseRegister_tries (mask : RegMask) {tries tries' : Nat} (enough : g.waiting < tries)
    (more : tries ≤ tries') : chooseRegister mask tries' g = chooseRegister mask tries g := by
  obtain ⟨rest, rfl⟩ := Nat.exists_eq_add_of_le more
  rw [chooseRegister_eq_iterate, chooseRegister_eq_iterate, Function.iterate_add_apply]
  exact chooseRound_iterate enough _ _

theorem alloc_search (mask : RegMask) (g : Generator) :
    Ends (alloc mask) g (fun r g' => r ∈ g'.regs.usable mask)
      fun e g' => e.lacksRegister = true →
        e = .invariant (.register (.noneAvailable mask)) ∧ g'.Exhausted mask := by
  have frees (r : Reg) : Keeps (fun g => r ∈ g.regs.usable mask) (fun e _ => e.lacksRegister = false)
      (free r) fun _ => True :=
    (@handles_free (fun _ => False) false r).keeps
      (fun _ _ mild _ => CompileError.lacksRegister_of_mild mild)
      (fun _ _ regs _ _ _ usable => regs ▸ usable) (fun _ _ kept usable => kept.mem_usable usable)
      (fun _ _ _ _ _ usable => usable) nofun nofun
  have empties {r : Reg} {g₁ : Generator} (usable : r ∈ g₁.regs.usable mask) :
      Ends (do free r; return r) g₁ (fun r g' => r ∈ g'.regs.usable mask) fun e g' =>
        e.lacksRegister = true → e = .invariant (.register (.noneAvailable mask)) ∧ g'.Exhausted mask :=
    (((frees r).ends g₁ usable).mono (fun _ _ here => here) fun _ _ => of_not_lacking).bind
      fun _ _ ⟨usable, _⟩ => usable
  unfold alloc
  have reaps := ((@handles_reap (fun _ => False) false mask).keeps_held g.held).ends g rfl
  refine (reaps.mono (fun _ _ here => here) fun _ _ => of_not_lacking).bind fun _ g₁ _ => ?_
  refine .after_ok (x := get) rfl ?_
  have enough : g₁.waiting < g₁.held.length + 1 := Nat.lt_succ_of_le List.countP_le_length
  refine (chooseRegister_search mask enough).bind fun choice g₂ usable => ?_
  cases choice with
  | available r => exact empties usable
  | evict r => exact .after_ok (x := modifyStats _) rfl (empties usable)

theorem alloc_vacates (start : g.Matched) (mask : RegMask) :
    Ends (alloc mask) g (fun r g' => g.Vacated g' ∧ g'.regs.users r = []) fun _ _ => True := by
  have empties {g₁ : Generator} (r : Reg) (moved : g.Vacated g₁) :
      Ends (do free r; return r) g₁ (fun r g' => g.Vacated g' ∧ g'.regs.users r = [])
        fun _ _ => True :=
    ((free_vacates moved.matched r).mono (fun _ _ here => here) fun _ _ _ => trivial).bind
      fun _ g₂ ⟨moved₂, empty⟩ => ⟨moved.trans start moved₂, empty⟩
  unfold alloc
  refine ((reap_vacates start mask).mono (fun _ _ here => here) fun _ _ _ => trivial).bind
    fun _ g₁ ⟨moved, _⟩ => ?_
  refine .after_ok (x := get) rfl ?_
  refine (chooseRegister_vacates moved.matched mask _).bind fun choice g₂ moved₂ => ?_
  have moved₂ := moved.trans start moved₂
  cases choice with
  | available r => exact empties r moved₂
  | evict r =>
    refine ((modifyStats_vacates moved₂.matched _).mono (fun _ _ here => here)
      fun _ _ _ => trivial).bind fun _ g₃ ⟨moved₃, _⟩ => ?_
    exact empties r (moved₂.trans start moved₃)

theorem handsOut {new : List Instr} {g' : Generator} {stored : NodeId → Int → Prop}
    (steady : g.Steady) (housed : g.Housed)
    (noted : ∀ id slot, (g.pool.node id).spill = some slot → stored id slot)
    (moved : g.Vacates new g') (usable : r ∈ g'.regs.usable mask) (empty : g'.regs.users r = []) :
    g.HandsOut stored mask r new g' := by
  obtain ⟨candidate, unreserved, unpinned⟩ := RegisterFile.mem_usable_iff.mp usable
  refine ⟨candidate, unreserved, moved.reserved, unpinned, empty, moved.emits, ?_, ?_, ?_⟩
  · intro i inside
    obtain ⟨id, slot, copied, temp⟩ := moved.stores i inside
    exact ⟨id, slot, steady.storedBy copied, temp⟩
  · intro id lo hi live made place
    have other (part : Nat) {s : Reg} (found : g'.register? id part = some s) : s ≠ r := by
      rintro rfl
      exact ((moved.matched s id part).mpr found).users_ne_nil empty
    rcases moved.places id _ live made place with same | ⟨slot, copied, there⟩
    · refine .inl ⟨same, other 0 ?_, ?_⟩
      · rw [register?, same]
        rfl
      · rintro rfl
        refine other 1 ?_ rfl
        rw [register?, same]
        rfl
    · refine .inr ⟨slot, copied, there, housed.lodges moved live copied, ?_⟩
      refine (moved.copies id slot copied).imp (noted id slot) ?_
      rintro ⟨⟨i, inside, copied⟩, -⟩
      exact ⟨i, inside, steady.storedBy copied⟩
  · intro small id id' slot slot' other live live' copied copied'
    rw [moved.isLiveAt] at live live'
    obtain ⟨params, ordered⟩ := housed.laid
    exact Lodges.apart (moved.serves.ordered ordered small) rfl other
      (housed.lodges moved live copied) (housed.lodges moved live' copied')

/-- A register that is handed out is safe to overwrite, if registers and locations agree, operands
wait where their values are, and copies that are noted have been stored to slots of their own. The
search for a register ends by itself. What it finds is a usable register that holds nothing; values
still needed have kept their registers or been stored. If it finds none, none was to be had. -/
theorem alloc_hands_out_safely (g : Generator) (mask : RegMask) (stored : NodeId → Int → Prop)
    (start : g.Matched) (steady : g.Steady) (housed : g.Housed)
    (noted : ∀ id slot, (g.pool.node id).spill = some slot → stored id slot) :
    (∀ g₁ tries, reap mask g = .ok () g₁ → g₁.held.length < tries →
      chooseRegister mask tries g₁ = chooseRegister mask (g₁.held.length + 1) g₁) ∧
    (∀ r g', alloc mask g = .ok r g' → ∃ new, g.HandsOut stored mask r new g') ∧
    ∀ candidates g', alloc mask g = .error (.invariant (.register (.noneAvailable candidates))) g' →
      candidates = mask ∧ g'.Exhausted mask := by
  have ends := (alloc_vacates start mask).and (alloc_search mask g)
  refine ⟨fun g₁ tries reaped enough => ?_, fun r g' run => ?_, fun candidates g' run => ?_⟩
  · obtain ⟨moved, -⟩ := (reap_vacates start mask).ok reaped
    have few : g₁.waiting ≤ g₁.held.length := List.countP_le_length
    exact chooseRegister_tries mask (by omega) enough
  · obtain ⟨⟨⟨new, moved⟩, empty⟩, usable⟩ := ends.ok run
    exact ⟨new, handsOut steady housed noted moved usable empty⟩
  · obtain ⟨same, exhausted⟩ := (ends.error run).2 rfl
    cases same
    exact ⟨rfl, exhausted⟩

theorem matched_of_listed
    (listed : ∀ r ∈ Reg.all, ∀ u ∈ g.regs.users r, g.register? u.node u.part = some r)
    (placed : ∀ k < g.pool.size, ∀ part < 2, ∀ r ∈ g.register? ⟨k⟩ part,
      ∃ u ∈ g.regs.users r, u.node = ⟨k⟩ ∧ u.part = part) : g.Matched := by
  intro r id part
  constructor
  · rintro ⟨u, inside, rfl, rfl⟩
    refine listed r (Reg.mem_all.mpr ?_) u inside
    by_contra outside
    simp [RegisterFile.users, RegisterFile.get, outside, default] at inside
  · intro found
    obtain ⟨lo, hi, place⟩ := inRegisters_of_register found
    refine placed id.index (InRegisters.issued ⟨lo, hi, place⟩) part ?_ r found
    rw [register?, place] at found
    rcases part with _ | _ | part
    · exact Nat.zero_lt_two
    · exact Nat.one_lt_two
    · cases found

/-- Values that are needed are in general registers, all of which are pinned; no value has a copy. -/
def pressed (values : List Reg) (pins : Reg → Nat) (held : List HeldValue) : Generator where
  options := {}
  symbols := {}
  pool :=
    { capacity := 8
      nodes := (values.map fun r =>
        { key := .leaf .load .int ⟨0⟩, lastRef := 9, pending := 1, loc := some (.single r) }).toArray }
  regs :=
    { regs := Vector.ofFn fun r =>
        let users := (values.zipIdx.filter (·.1 = ⟨r.val⟩)).map fun (_, k) => ⟨⟨k⟩, 0, 9⟩
        if users = [] then RegisterFile.init.regs[r]
        else { state := .inUse, users, maxLastRef := 9, pins := pins ⟨r.val⟩ } }
  frame := {}
  code := .empty
  seq := 3
  stats := {}
  held
  numbers := #[]
  enter := none

theorem pressed_uncopied (values : List Reg) (pins : Reg → Nat) (held : List HeldValue)
    (id : NodeId) : ((pressed values pins held).pool.node id).spill = none := by
  simp only [pressed, ValuePool.node, Array.getD_eq_getD_getElem?, List.getElem?_toArray,
    List.getElem?_map]
  cases values[id.index]? <;> rfl

theorem pressed_housed (values : List Reg) (pins : Reg → Nat) (held : List HeldValue) :
    (pressed values pins held).Housed where
  laid := ⟨[], FrameHistory.ordered_start _⟩
  own id slot _ copied := by
    rw [pressed_uncopied] at copied
    cases copied

/-- Six values, one of which waits where it is. -/
def crowded : Generator :=
  pressed [.eax, .edx, .ecx, .ebx, .esi, .edi] (fun _ => 1) [⟨⟨2⟩, .single .ecx, false⟩]

theorem crowded_hands_out_safely :
    ∃ g', alloc .general crowded = .ok .ecx g' ∧
      (∃ new, crowded.HandsOut (fun _ _ => False) .general .ecx new g') ∧
      (g'.pool.node ⟨2⟩).loc = some (slotOperand (-4)) := by
  have safe := alloc_hands_out_safely crowded .general (fun _ _ => False)
    (matched_of_listed (by decide +kernel) (by decide +kernel)) (by decide +kernel)
    (pressed_housed _ _ _) fun id slot noted => by
      cases (pressed_uncopied _ _ _ id).symm.trans noted
  have outcome : (match alloc .general crowded with
      | .ok r g' => decide (r = .ecx ∧ (g'.pool.node ⟨2⟩).loc = some (slotOperand (-4)))
      | .error .. => false) = true := by decide +kernel
  cases run : alloc .general crowded with
  | ok r g' =>
    rw [run] at outcome
    obtain ⟨rfl, place⟩ := of_decide_eq_true outcome
    exact ⟨g', rfl, safe.2.1 _ g' run, place⟩
  | error e g' =>
    rw [run] at outcome
    cases outcome

theorem exists_cell_of_emits {new : List Instr} {g' : Generator} (empty : g.code = .empty)
    (emits : g.Emits new g') {i : Instr} (inside : i ∈ new) :
    ∃ c ∈ g'.code.cells.toList, c.instr = some i := by
  obtain ⟨ids, -, listed⟩ := emits.code (empty ▸ InstrList.holds_empty)
  have here : some i ∈ ids.map g'.code.get? := listed ▸ List.mem_map_of_mem inside
  obtain ⟨k, -, found⟩ := List.mem_map.mp here
  obtain ⟨c, cell, instr⟩ := Option.bind_eq_some_iff.mp found
  exact ⟨c, Array.mem_toList_iff.mpr (Array.mem_of_getElem? cell), instr⟩

/-- One of the values is said to wait in a register that another has taken over, and a seventh value
shares the register it is in. -/
def overtaken : Generator :=
  pressed [.eax, .edx, .ecx, .ebx, .esi, .edi, .ecx] (fun r => if r = .edx then 2 else 1)
    [⟨⟨2⟩, .single .edx, false⟩, ⟨⟨6⟩, .single .ecx, false⟩]

/-- The register of a value that is needed is handed out, and the value said to be at a slot that it
has not been stored to. -/
theorem overtaken_value_lost : overtaken.Matched ∧ overtaken.Housed ∧
    (∀ id, (overtaken.pool.node id).spill = none) ∧
    (overtaken.pool.node ⟨2⟩).isLiveAt overtaken.seq = true ∧
    (overtaken.pool.node ⟨2⟩).loc = some (.single .ecx) ∧
    ∃ g', alloc .general overtaken = .ok .ecx g' ∧
      (g'.pool.node ⟨2⟩).loc = some (slotOperand (-4)) ∧
      ∀ new, overtaken.Emits new g' → ∀ i ∈ new, ¬overtaken.StoredBy ⟨2⟩ (-4) i := by
  refine ⟨matched_of_listed (by decide +kernel) (by decide +kernel), pressed_housed _ _ _,
    pressed_uncopied _ _ _, rfl, rfl, ?_⟩
  have outcome : (match alloc .general overtaken with
      | .ok r g' => decide (r = .ecx ∧ (g'.pool.node ⟨2⟩).loc = some (slotOperand (-4)) ∧
        ∀ c ∈ g'.code.cells.toList, ∀ i ∈ c.instr, i.dst = some (slotOperand (-4)) →
          i.src ≠ some (.single .ecx))
      | .error .. => false) = true := by decide +kernel
  cases run : alloc .general overtaken with
  | ok r g' =>
    rw [run] at outcome
    obtain ⟨rfl, place, others⟩ := of_decide_eq_true outcome
    refine ⟨g', rfl, place, fun new emits i inside => ?_⟩
    rintro ⟨src, stores, -, here⟩
    obtain ⟨c, listed, instr⟩ := exists_cell_of_emits rfl emits inside
    exact others c listed i instr stores.dst (stores.src.trans here.symm)
  | error e g' =>
    rw [run] at outcome
    cases outcome

end Gen

end CBackend
