import Mathlib.Logic.Relation
import CBackend.Proofs.FrameLayout
import CBackend.Proofs.Selection.Allocation
import CBackend.Proofs.Selection.Emission
import CBackend.Selection.Rules

/-!
Values make room for others: they are taken out of registers, and operands that wait in registers
are moved to memory. All the instructions this adds are stores to the frame. A value that is still
needed is afterwards where it was, or at a frame slot that it has been stored to.
-/

namespace CBackend

def ValueNode.IsRemade (v : ValueNode) : Prop := v.op = .const ∨ v.op = .addr

theorem SelectionTable.move_of_store {ty : ValueClass} {op : Opcode}
    (found : move.find? (SelectionKey.pack .ind .reg ty) = some op) : op = .mov ∨ op = .fst := by
  have all : ∀ ty, move.find? (SelectionKey.pack .ind .reg ty) ∈ [none, some .mov, some .fst] := by
    intro ty
    cases ty <;> decide +kernel
  have listed := all ty
  rw [found] at listed
  simpa using listed

/-- The instruction stores registers to a slot of the frame. -/
structure Instr.Stores (i : Instr) (src : Operand) (slot : Int) : Prop where
  op : i.op = .mov ∨ i.op = .fst
  registers : src.format = .reg
  src : i.src = some src
  dst : i.dst = some (slotOperand slot)

namespace Frame

variable {f f' : Frame} {seq : Nat} {slot : Int}

def HasTemp (f : Frame) (slot : Int) : Prop := ∃ t, .temp t ∈ f.entries ∧ t.offset = slot

/-- A temporary at the slot belongs to a value, has room for it, and stays its own up to the last
reference to it. -/
def Lodges (f : Frame) (slot : Int) (owner : NodeId) (size lastRef : Nat) : Prop :=
  ∃ t, .temp t ∈ f.entries ∧ t.offset = slot ∧ t.owner = owner ∧ size ≤ t.size ∧
    lastRef ≤ t.ownerLastRef

/-- Requests for temporaries at one place of the code lead from one frame to the other. -/
def Serves (seq : Nat) : Frame → Frame → Prop :=
  Relation.ReflTransGen fun f f' =>
    ∃ owner size lastRef, f' = (f.allocTemp seq owner size lastRef).2

theorem Lodges.hasTemp {owner : NodeId} {size lastRef : Nat}
    (lodges : f.Lodges slot owner size lastRef) : f.HasTemp slot := by
  obtain ⟨t, inside, place, -⟩ := lodges
  exact ⟨t, inside, place⟩

theorem lodges_allocTemp (f : Frame) (seq : Nat) (owner : NodeId) (size lastRef : Nat) :
    (f.allocTemp seq owner size lastRef).2.Lodges (f.allocTemp seq owner size lastRef).1 owner size
      lastRef := by
  rcases f.allocTemp_cases seq owner size lastRef with ⟨before, old, after, -, large, -, made⟩ | ⟨-, made⟩
  · rw [made]
    exact ⟨_, List.mem_append_right _ List.mem_cons_self, rfl, rfl,
      Nat.le_trans (le_roundToSlot size) large, Nat.le_refl _⟩
  · rw [made]
    exact ⟨_, List.mem_append_right _ List.mem_cons_self, rfl, rfl, le_roundToSlot size,
      Nat.le_refl _⟩

/-- A request takes a temporary from its owner only after the last reference to it, and leaves it at
its place. -/
theorem mem_allocTemp {t : TempSlot} (inside : .temp t ∈ f.entries) (seq : Nat) (owner : NodeId)
    (size lastRef : Nat) : .temp t ∈ (f.allocTemp seq owner size lastRef).2.entries ∨
      t.ownerLastRef < seq ∧ (f.allocTemp seq owner size lastRef).2.HasTemp t.offset := by
  rcases f.allocTemp_cases seq owner size lastRef with
    ⟨before, old, after, whole, -, spent, made⟩ | ⟨-, made⟩
  · rw [made]
    rw [whole, List.mem_append, List.mem_cons] at inside
    rcases inside with first | here | last
    · exact .inl (List.mem_append_left _ first)
    · cases here
      exact .inr ⟨spent, _, List.mem_append_right _ List.mem_cons_self, rfl⟩
    · exact .inl (List.mem_append_right _ (List.mem_cons_of_mem _ last))
  · rw [made]
    exact .inl (List.mem_append_left _ inside)

namespace Serves

theorem levels (serves : Serves seq f f') : f'.levels = f.levels := by
  induction serves with
  | refl => rfl
  | tail _ step ih =>
    obtain ⟨owner, size, lastRef, rfl⟩ := step
    exact (levels_allocTemp _ _ _ _).trans ih

theorem hasTemp (serves : Serves seq f f') (there : f.HasTemp slot) : f'.HasTemp slot := by
  induction serves with
  | refl => exact there
  | tail _ step ih =>
    obtain ⟨owner, size, lastRef, rfl⟩ := step
    obtain ⟨t, inside, rfl⟩ := ih
    rcases mem_allocTemp inside seq owner size lastRef with still | ⟨-, there⟩
    · exact ⟨t, still, rfl⟩
    · exact there

theorem lodges (serves : Serves seq f f') {owner : NodeId} {size lastRef : Nat}
    (needed : seq ≤ lastRef) (there : f.Lodges slot owner size lastRef) :
    f'.Lodges slot owner size lastRef := by
  obtain ⟨t, inside, place, whose, large, lasting⟩ := there
  refine ⟨t, ?_, place, whose, large, lasting⟩
  induction serves with
  | refl => exact inside
  | tail _ step ih =>
    obtain ⟨owner, size, lastRef, rfl⟩ := step
    refine (mem_allocTemp ih seq owner size lastRef).resolve_right fun ⟨spent, _⟩ => ?_
    omega

theorem ordered {s : FrameHistory} (start : s.Ordered) (serves : Serves seq s.frame f')
    (small : f'.cursor < 0x80000000) : FrameHistory.Ordered { s with frame := f' } := by
  induction serves with
  | refl => exact start
  | @tail f f' _ step ih =>
    obtain ⟨owner, size, lastRef, rfl⟩ := step
    have grows : f.cursor ≤ (f.allocTemp seq owner size lastRef).2.cursor := by
      rcases f.allocTemp_cases seq owner size lastRef with ⟨_, _, _, -, -, -, made⟩ | ⟨-, made⟩
      · rw [made]
      · rw [made]
        exact Nat.le_add_right _ _
    exact FrameHistory.ordered_allocTemp (ih (Nat.lt_of_le_of_lt grows small)) (if_pos small)

end Serves

end Frame

namespace Generator

/-- Registers list exactly the values located in them. -/
def Matched (g : Generator) : Prop :=
  ∀ r id part, g.regs.Holds r id part ↔ g.register? id part = some r

/-- The instruction stores a value from its registers to a slot. -/
def StoredBy (g : Generator) (id : NodeId) (slot : Int) (i : Instr) : Prop :=
  ∃ src, i.Stores src slot ∧ i.ty = (g.pool.node id).ty.valueClass ∧
    (g.pool.node id).loc = some src

/-- The instruction makes the first copy of a value: from its registers, or from those it is said to
wait in. -/
def CopiedBy (g : Generator) (id : NodeId) (slot : Int) (i : Instr) : Prop :=
  ∃ src, i.Stores src slot ∧ i.ty = (g.pool.node id).ty.valueClass ∧
    (g.pool.node id).spill = none ∧ ((g.pool.node id).loc = some src ∨ ⟨id, src, false⟩ ∈ g.held)

/-- The slot is the value's own, with room for it. -/
def Lodges (g : Generator) (id : NodeId) (slot : Int) : Prop :=
  g.frame.Lodges slot id (g.pool.node id).ty.size (g.pool.node id).lastRef

def waiting (g : Generator) : Nat := g.held.countP fun h => !h.demoted

/-- Values have been moved out of registers, and the instructions `new` written for it. -/
structure Vacates (g : Generator) (new : List Instr) (g' : Generator) : Prop where
  emits : g.Emits new g'
  stores : ∀ i ∈ new, ∃ id slot, g.CopiedBy id slot i ∧ g'.frame.HasTemp slot
  serves : Frame.Serves g.seq g.frame g'.frame
  matched : g'.Matched
  value : ∀ id, (g'.pool.node id).key = (g.pool.node id).key ∧
    (g'.pool.node id).pending = (g.pool.node id).pending ∧
    (g'.pool.node id).lastRef = (g.pool.node id).lastRef
  copies : ∀ id slot, (g'.pool.node id).spill = some slot →
    (g.pool.node id).spill = some slot ∨ (∃ i ∈ new, g.CopiedBy id slot i) ∧
      ((g.pool.node id).isLiveAt g.seq = true → g'.Lodges id slot)
  noted : ∀ id slot, (g.pool.node id).spill = some slot → (g'.pool.node id).spill = some slot
  registers : ∀ id lo hi, (g'.pool.node id).loc = some (.reg lo hi) →
    (g.pool.node id).loc = some (.reg lo hi)
  places : ∀ id op, (g.pool.node id).isLiveAt g.seq = true → ¬(g.pool.node id).IsRemade →
    (g.pool.node id).loc = some op → (g'.pool.node id).loc = some op ∨
      ∃ slot, (g'.pool.node id).spill = some slot ∧
        (g'.pool.node id).loc = some (slotOperand slot)
  held : ∀ h ∈ g'.held, h.demoted = false → h ∈ g.held
  reserved : ∀ r, g.regs.state r = .reserved → g.regs.users r = [] → g'.regs.state r = .reserved

def Vacated (g g' : Generator) : Prop := ∃ new, g.Vacates new g'

variable {g g₁ g₂ : Generator} {new more : List Instr} {id : NodeId}

theorem Vacates.isLiveAt (moved : g.Vacates new g₁) (id : NodeId) :
    (g₁.pool.node id).isLiveAt g₁.seq = (g.pool.node id).isLiveAt g.seq := by
  obtain ⟨-, pending, lastRef⟩ := moved.value id
  rw [ValueNode.isLiveAt, ValueNode.isLiveAt, pending, lastRef, moved.emits.seq]

theorem Vacates.isRemade (moved : g.Vacates new g₁) (id : NodeId) :
    (g₁.pool.node id).IsRemade ↔ (g.pool.node id).IsRemade := by
  rw [ValueNode.IsRemade, ValueNode.IsRemade, ValueNode.op, ValueNode.op, (moved.value id).1]

theorem Vacates.inRegisters (moved : g.Vacates new g₁) (inside : g₁.InRegisters id) :
    g.InRegisters id := by
  obtain ⟨lo, hi, place⟩ := inside
  exact ⟨lo, hi, moved.registers id lo hi place⟩

theorem Vacates.users_ne_nil (start : g.Matched) (moved : g.Vacates new g₁) {r : Reg}
    (some_ : g₁.regs.users r ≠ []) : g.regs.users r ≠ [] := by
  obtain ⟨k, part, held⟩ := RegisterFile.users_ne_nil_iff.mp some_
  have found := (moved.matched r k part).mp held
  obtain ⟨lo, hi, place⟩ := inRegisters_of_register found
  refine RegisterFile.Holds.users_ne_nil ((start r k part).mpr ?_)
  rw [register?, moved.registers k lo hi place]
  rwa [register?, place] at found

theorem Vacates.copiedBy (moved : g.Vacates new g₁) {slot : Int} {i : Instr}
    (copied : g₁.CopiedBy id slot i) : g.CopiedBy id slot i := by
  obtain ⟨src, stores, ty, fresh, source⟩ := copied
  rw [ValueNode.ty, (moved.value id).1] at ty
  refine ⟨src, stores, ty, ?_, ?_⟩
  · by_contra noted
    obtain ⟨slot', noted⟩ := Option.ne_none_iff_exists'.mp noted
    cases fresh.symm.trans (moved.noted id slot' noted)
  · rcases source with place | waits
    · have format := stores.registers
      cases src with
      | reg lo hi => exact .inl (moved.registers id lo hi place)
      | imm | mem | ind => cases format
    · exact .inr (moved.held _ waits rfl)

theorem Vacates.lodges (moved : g.Vacates new g₁) {slot : Int}
    (live : (g.pool.node id).isLiveAt g.seq = true) (there : g.Lodges id slot) :
    g₁.Lodges id slot := by
  obtain ⟨key, -, lastRef⟩ := moved.value id
  rw [Lodges, ValueNode.ty, key, lastRef]
  exact moved.serves.lodges (of_decide_eq_true live).2 there

theorem Vacates.refl (start : g.Matched) : g.Vacates [] g where
  emits := .refl g
  stores := List.forall_mem_nil _
  serves := .refl
  matched := start
  value _ := ⟨rfl, rfl, rfl⟩
  copies _ _ noted := .inl noted
  noted _ _ noted := noted
  registers _ _ _ place := place
  places _ _ _ _ place := .inl place
  held _ inside _ := inside
  reserved _ state _ := state

theorem Vacates.trans (start : g.Matched) (first : g.Vacates new g₁) (second : g₁.Vacates more g₂) :
    g.Vacates (new ++ more) g₂ where
  emits := first.emits.trans second.emits
  stores := by
    refine List.forall_mem_append.mpr ⟨fun i old => ?_, fun i later => ?_⟩
    · obtain ⟨id, slot, copied, there⟩ := first.stores i old
      exact ⟨id, slot, copied, second.serves.hasTemp there⟩
    · obtain ⟨id, slot, copied, there⟩ := second.stores i later
      exact ⟨id, slot, first.copiedBy copied, there⟩
  serves := first.serves.trans (first.emits.seq ▸ second.serves)
  matched := second.matched
  value id := by
    obtain ⟨key, pending, lastRef⟩ := first.value id
    obtain ⟨key', pending', lastRef'⟩ := second.value id
    exact ⟨key'.trans key, pending'.trans pending, lastRef'.trans lastRef⟩
  copies id slot noted := by
    rcases second.copies id slot noted with old | ⟨⟨i, later, copied⟩, lodged⟩
    · refine (first.copies id slot old).imp_right ?_
      rintro ⟨⟨i, inside, copied⟩, lodged⟩
      refine ⟨⟨i, List.mem_append_left _ inside, copied⟩, fun live => ?_⟩
      exact second.lodges ((first.isLiveAt id).trans live) (lodged live)
    · refine .inr ⟨⟨i, List.mem_append_right _ later, first.copiedBy copied⟩, fun live => ?_⟩
      exact lodged ((first.isLiveAt id).trans live)
  noted id slot noted := second.noted id slot (first.noted id slot noted)
  registers id lo hi place := first.registers id lo hi (second.registers id lo hi place)
  places id op live made place := by
    have live' := (first.isLiveAt id).trans live
    have made' := (first.isRemade id).not.mpr made
    rcases first.places id op live made place with same | ⟨slot, noted, there⟩
    · exact second.places id op live' made' same
    · have still := second.noted id slot noted
      rcases second.places id _ live' made' there with same | moved
      · exact .inr ⟨slot, still, same⟩
      · exact .inr moved
  held h inside waits := first.held h (second.held h inside waits) waits
  reserved r state none := by
    refine second.reserved r (first.reserved r state none) ?_
    by_contra some_
    exact first.users_ne_nil start some_ none

theorem Vacated.refl (start : g.Matched) : g.Vacated g := ⟨[], .refl start⟩

theorem Vacated.trans (start : g.Matched) (first : g.Vacated g₁) (second : g₁.Vacated g₂) :
    g.Vacated g₂ := by
  obtain ⟨_, first⟩ := first
  obtain ⟨_, second⟩ := second
  exact ⟨_, first.trans start second⟩

theorem Vacated.matched (moved : g.Vacated g₁) : g₁.Matched := by
  obtain ⟨_, moved⟩ := moved
  exact moved.matched

theorem Vacates.of_pool (start : g.Matched) (pool : g₁.pool = g.pool) (regs : g.regs.Alike g₁.regs)
    (seq : g₁.seq = g.seq) (numbers : g₁.numbers = g.numbers) (code : g₁.code = g.code)
    (serves : Frame.Serves g.seq g.frame g₁.frame)
    (held : ∀ h ∈ g₁.held, h.demoted = false → h ∈ g.held) : g.Vacates [] g₁ where
  emits := ⟨⟨numbers, pool ▸ List.prefix_refl _, fun holds => by rwa [List.append_nil, code]⟩, seq,
    serves.levels⟩
  stores := List.forall_mem_nil _
  serves := serves
  matched r id part := by
    rw [regs.holds, register?, pool]
    exact start r id part
  value id := by rw [pool]; exact ⟨rfl, rfl, rfl⟩
  copies id slot noted := .inl (pool ▸ noted)
  noted id slot noted := pool.symm ▸ noted
  registers id lo hi place := pool ▸ place
  places id op _ _ place := .inl (pool.symm ▸ place)
  held := held
  reserved r state _ := by rwa [(regs r).2]

theorem vacates_noted (start : g.Matched) {i : Instr} {slot : Int} (stats : FunctionStats)
    (copied : g.CopiedBy id slot { i with seq := g.seq }) (lodges : g.Lodges id slot) :
    g.Vacates [{ i with seq := g.seq }] { g with
      code := (g.code.append { i with seq := g.seq }).2
      stats
      pool := g.pool.modify id fun v => { v with spill := some slot } } := by
  have node (k : NodeId) :
      (g.pool.modify id fun v => { v with spill := some slot }).node k = g.pool.node k ∨
        k = id ∧ (g.pool.modify id fun v => { v with spill := some slot }).node k =
          { g.pool.node k with spill := some slot } := by
    rw [ValuePool.node_modify]
    split
    · rename_i here
      exact .inr ⟨here.1, rfl⟩
    · exact .inl rfl
  have place (k : NodeId) :
      ((g.pool.modify id fun v => { v with spill := some slot }).node k).loc =
        (g.pool.node k).loc := by
    rcases node k with same | ⟨-, changed⟩
    · rw [same]
    · rw [changed]
  refine
    { emits := ⟨⟨rfl, ?_, fun holds => holds.append _⟩, rfl, rfl⟩
      stores := List.forall_mem_singleton.mpr ⟨id, slot, copied, lodges.hasTemp⟩
      serves := .refl
      matched := fun r k part => ?_
      value := fun k => ?_
      copies := fun k slot' noted => ?_
      noted := fun k slot' noted => ?_
      registers := fun k lo hi there => (place k).symm.trans there
      places := fun k op _ _ there => .inl ((place k).trans there)
      held := fun h inside _ => inside
      reserved := fun _ state _ => state }
  · have keys : (g.pool.modify id fun v => { v with spill := some slot }).keys = g.pool.keys :=
      ValuePool.keys_modify _ _ fun _ => rfl
    exact keys ▸ List.prefix_refl _
  · rw [register?, place]
    exact start r k part
  · rcases node k with same | ⟨-, changed⟩
    · rw [same]
      exact ⟨rfl, rfl, rfl⟩
    · rw [changed]
      exact ⟨rfl, rfl, rfl⟩
  · rcases node k with same | ⟨rfl, changed⟩
    · exact .inl (same ▸ noted)
    · rw [changed] at noted
      cases noted
      refine .inr ⟨⟨_, List.mem_singleton_self _, copied⟩, fun _ => ?_⟩
      rw [Lodges]
      dsimp only
      rw [changed]
      exact lodges
  · rcases node k with same | ⟨rfl, -⟩
    · rwa [same]
    · obtain ⟨-, -, -, fresh, -⟩ := copied
      cases fresh.symm.trans noted

theorem vacates_left (start : g.Matched) {regs : RegisterFile}
    (sheds : g.regs.Sheds (fun _ k _ => k = id) regs)
    (fit : (g.pool.node id).isLiveAt g.seq = false ∨ (g.pool.node id).IsRemade ∨
      (g.pool.node id).spill.isSome = true) :
    g.Vacates [] (Gen.left g id regs) := by
  have node (k : NodeId) : (Gen.left g id regs).pool.node k = g.pool.node k ∨
      k = id ∧ (Gen.left g id regs).pool.node k =
        { g.pool.node k with loc := (g.pool.node k).spill.map slotOperand } := by
    simp only [Gen.left, ValuePool.node_modify]
    split
    · rename_i here
      exact .inr ⟨here.1, rfl⟩
    · exact .inl rfl
  refine
    { emits := ⟨⟨rfl, ?_, fun holds => by rwa [List.append_nil]⟩, rfl, rfl⟩
      stores := List.forall_mem_nil _
      serves := .refl
      matched := fun r k part => ?_
      value := fun k => ?_
      copies := fun k slot noted => .inl ?_
      noted := fun k slot noted => ?_
      registers := fun k lo hi there => ?_
      places := fun k op live made there => ?_
      held := fun h inside _ => inside
      reserved := fun r state empty => ?_ }
  · have keys : (Gen.left g id regs).pool.keys = g.pool.keys :=
      ValuePool.keys_modify _ _ fun _ => rfl
    exact keys ▸ List.prefix_refl _
  · change regs.Holds r k part ↔ _
    have nowhere (slot : Option Int) : (slot.map slotOperand).bind (·.part? part) = none := by
      cases slot <;> rfl
    rw [sheds.holds, start r k part, register?, register?]
    rcases node k with same | ⟨rfl, changed⟩
    · rw [same, and_iff_left_iff_imp]
      rintro found rfl
      have issued := (inRegisters_of_register found).issued
      simp only [Gen.left, ValuePool.node_modify, issued, and_self, if_true] at same
      rw [← congrArg ValueNode.loc same, nowhere] at found
      cases found
    · simp [changed, nowhere]
  · rcases node k with same | ⟨-, changed⟩
    · rw [same]
      exact ⟨rfl, rfl, rfl⟩
    · rw [changed]
      exact ⟨rfl, rfl, rfl⟩
  · rcases node k with same | ⟨-, changed⟩
    · rwa [same] at noted
    · rwa [changed] at noted
  · rcases node k with same | ⟨-, changed⟩
    · rwa [same]
    · rwa [changed]
  · rcases node k with same | ⟨-, changed⟩
    · rwa [same] at there
    · rw [changed] at there
      cases copy : (g.pool.node k).spill <;> simp [copy, slotOperand] at there
  · rcases node k with same | ⟨rfl, changed⟩
    · exact .inl (same ▸ there)
    · have copied : (g.pool.node k).spill.isSome = true := by
        rcases fit with dead | remade | copied
        · rw [live] at dead
          cases dead
        · exact absurd remade made
        · exact copied
      obtain ⟨slot, noted⟩ := Option.isSome_iff_exists.mp copied
      exact .inr ⟨slot, by rw [changed, noted], by rw [changed, noted]; rfl⟩
  · change regs.state r = _
    rcases sheds.state r with same | ⟨-, some_⟩
    · rwa [same]
    · exact absurd empty some_

end Generator

def CompileError.lacksRegister : CompileError → Bool
  | .invariant (.register (.noneAvailable _)) => true
  | _ => false

theorem CompileError.lacksRegister_of_mild {e : CompileError} (mild : e.grave = false) :
    e.lacksRegister = false := by
  unfold lacksRegister
  split
  · cases mild
  · rfl

namespace Gen

open Generator

variable {α : Type} {g : Generator} {id : NodeId} {src : Operand}

/-- A step that moves values out of registers and does not fail for want of one. -/
abbrev Vacating (g : Generator) (x : Gen α) (after : α → Generator → Prop) : Prop :=
  Ends x g (fun a g' => g.Vacated g' ∧ after a g') fun e _ => e.lacksRegister = false

theorem Vacating.bind {β : Type} {x : Gen α} {f : α → Gen β} {after : α → Generator → Prop}
    {after' : β → Generator → Prop} (start : g.Matched) (first : Vacating g x after)
    (rest : ∀ a g', g.Vacated g' → after a g' → Vacating g' (f a) after') :
    Vacating g (x >>= f) after' :=
  Ends.bind first fun a g' ⟨moved, here⟩ =>
    (rest a g' moved here).imp fun _ _ ⟨later, there⟩ => ⟨moved.trans start later, there⟩

theorem Vacating.forM {f : α → Gen PUnit} {as : List α} (done : α → Generator → Prop)
    (start : g.Matched)
    (round : ∀ a ∈ as, ∀ g', g.Vacated g' → Vacating g' (f a) fun _ g'' => done a g'')
    (lasts : ∀ a g₁ g₂, g₁.Vacated g₂ → done a g₁ → done a g₂) :
    Vacating g (as.forM f) fun _ g' => ∀ a ∈ as, done a g' := by
  induction as generalizing g with
  | nil => exact ⟨.refl start, List.forall_mem_nil _⟩
  | cons a as ih =>
    refine (round a List.mem_cons_self g (.refl start)).bind start fun _ g₁ moved here => ?_
    refine (ih moved.matched fun b later g' onward => ?_).imp fun _ g₂ ⟨onward, all⟩ => ?_
    · exact round b (List.mem_cons_of_mem _ later) g' (moved.trans start onward)
    · exact ⟨onward, List.forall_mem_cons.mpr ⟨lasts a g₁ g₂ onward here, all⟩⟩

theorem dropLocation_vacates (start : g.Matched)
    (fit : (g.pool.node id).isLiveAt g.seq = false ∨ (g.pool.node id).IsRemade ∨
      (g.pool.node id).spill.isSome = true) :
    Vacating g (dropLocation id) fun _ g' => ¬g'.InRegisters id := by
  rcases dropLocation_sheds start id with ⟨outside, run⟩ | ⟨regs, run, sheds, -⟩
  · exact .of_ok run ⟨.refl start, outside⟩
  · refine .of_ok run ⟨⟨[], vacates_left start sheds fit⟩, fun inside => ?_⟩
    have issued := inside.issued
    rw [left, ValuePool.size_modify] at issued
    exact not_inRegisters_left issued regs inside

theorem allocTemp_vacates (start : g.Matched) (owner : NodeId) (size lastRef : Nat) :
    Vacating g (allocTemp owner size lastRef) fun slot g' =>
      g'.frame.Lodges slot owner size lastRef ∧ g'.pool = g.pool ∧ g'.held = g.held :=
  ⟨⟨[], .of_pool start rfl (fun _ => ⟨rfl, rfl⟩) rfl rfl rfl
    (.single ⟨owner, size, lastRef, rfl⟩) fun _ inside _ => inside⟩,
    g.frame.lodges_allocTemp g.seq owner size lastRef, rfl, rfl⟩

theorem store_vacates (start : g.Matched) {i : Instr} {slot : Int} (stores : i.Stores src slot)
    (ty : i.ty = (g.pool.node id).ty.valueClass)
    (source : (g.pool.node id).loc = some src ∨ ⟨id, src, false⟩ ∈ g.held)
    (lodges : g.Lodges id slot) (fresh : (g.pool.node id).spill = none) {rest : Gen α}
    {after : α → Generator → Prop}
    (later : ∀ g', g.Vacated g' →
      (id.index < g.pool.size → (g'.pool.node id).spill = some slot) → Vacating g' rest after) :
    Vacating g (do emit' i; modifyNode id fun v => { v with spill := some slot }; rest) after := by
  have copied : g.CopiedBy id slot { i with seq := g.seq } :=
    ⟨src, ⟨stores.op, stores.registers, stores.src, stores.dst⟩, ty, fresh, source⟩
  refine .after_ok (x := emit' i) rfl (.after_ok (x := modifyNode id _) rfl ?_)
  have moved := vacates_noted start
    { g.stats with instructions := g.stats.instructions + 1 } copied lodges
  refine (later _ ⟨_, moved⟩ fun issued => ?_).imp fun _ _ ⟨onward, here⟩ =>
    ⟨.trans start ⟨_, moved⟩ onward, here⟩
  change ((g.pool.modify id _).node id).spill = _
  rw [ValuePool.node_modify, if_pos ⟨rfl, issued⟩]

theorem modifyStats_vacates (start : g.Matched) (f : FunctionStats → FunctionStats) :
    Vacating g (modifyStats f) fun _ g' => g'.pool = g.pool :=
  ⟨⟨[], .of_pool start rfl (fun _ => ⟨rfl, rfl⟩) rfl rfl rfl .refl fun _ inside _ => inside⟩, rfl⟩

theorem moveOpcode_ends (dst src : Format) (ty : ValueClass) (g : Generator) :
    Ends (moveOpcode dst src ty) g
      (fun op g' => g' = g ∧ SelectionTable.move.find? (SelectionKey.pack dst src ty) = some op)
      fun e _ => e.lacksRegister = false := by
  unfold moveOpcode
  cases result : SelectionTable.move.lookup (SelectionKey.pack dst src ty) with
  | ok op => exact ⟨rfl, SelectionTable.find?_of_lookup result⟩
  | error e =>
    unfold SelectionTable.lookup at result
    split at result
    · cases result
    · cases result
      rfl

theorem spill_vacates (start : g.Matched) (fresh : (g.pool.node id).spill = none) :
    Vacating g (spill id) fun _ g' => (g'.pool.node id).spill.isSome = true := by
  unfold spill
  refine .after_ok (x := node id) rfl ?_
  cases place : (g.pool.node id).loc with
  | none => exact rfl
  | some op =>
    cases op with
    | imm | mem | ind => exact rfl
    | reg lo hi =>
      refine (allocTemp_vacates start _ _ _).bind start fun slot g₁ moved ⟨lodges, pool, _⟩ => ?_
      refine (moveOpcode_ends _ _ _ g₁).bind ?_
      rintro op _ ⟨rfl, found⟩
      rw [← pool] at place fresh
      have issued := InRegisters.issued ⟨lo, hi, place⟩
      have stores : Instr.Stores
          { op, ty := (g.pool.node id).ty.valueClass, dst := some (slotOperand slot),
            src := some (.reg lo hi) } (.reg lo hi) slot :=
        ⟨SelectionTable.move_of_store found, rfl, rfl, rfl⟩
      refine store_vacates moved.matched stores (by rw [pool]) (.inl place)
        (by rwa [Lodges, pool]) fresh
        fun g₂ moved₂ noted => ?_
      refine (modifyStats_vacates moved₂.matched _).imp fun _ g₃ ⟨moved₃, pool₃⟩ => ?_
      refine ⟨moved₃, ?_⟩
      dsimp only
      rw [pool₃, noted issued]
      rfl

theorem evacuate_vacates (start : g.Matched) (id : NodeId) :
    Vacating g (evacuate id) fun _ g' => ¬g'.InRegisters id := by
  obtain ⟨constant, run, isConstant⟩ := isRematerializable_run g id
  unfold evacuate
  refine .after_ok (x := isLive id) rfl ?_
  refine .after_ok (x := node id) rfl ?_
  refine .after_ok run ?_
  dsimp only
  split
  · rename_i unsaved
    simp only [Bool.and_eq_true, Option.isNone_iff_eq_none] at unsaved
    refine (spill_vacates start unsaved.1.2).bind start fun _ g₁ moved copied => ?_
    exact dropLocation_vacates moved.matched (.inr (.inr copied))
  · rename_i saved
    refine dropLocation_vacates start ?_
    cases live : (g.pool.node id).isLiveAt g.seq with
    | false => exact .inl rfl
    | true =>
      cases copy : (g.pool.node id).spill with
      | some slot => exact .inr (.inr rfl)
      | none =>
        refine .inr (.inl (isConstant.mp ?_))
        simpa [live, copy] using saved

theorem free_vacates (start : g.Matched) (r : Reg) :
    Vacating g (free r) fun _ g' => g'.regs.users r = [] := by
  unfold free
  refine .after_ok (x := usersOf r) rfl ?_
  refine (Vacating.forM (fun id g' => ¬g'.InRegisters id) start
    (fun id _ g' moved => evacuate_vacates moved.matched id)
    fun id g₁ g₂ ⟨_, moved⟩ gone inside => gone (moved.inRegisters inside)).imp
    fun _ g' ⟨⟨new, moved⟩, gone⟩ => ⟨⟨new, moved⟩, ?_⟩
  by_contra some_
  obtain ⟨k, part, held⟩ := RegisterFile.users_ne_nil_iff.mp some_
  have found := (moved.matched r k part).mp held
  obtain ⟨lo, hi, place⟩ := inRegisters_of_register found
  have before : g.register? k part = some r := by
    rw [register?, place] at found
    rw [register?, moved.registers k lo hi place]
    exact found
  obtain ⟨u, listed, rfl, -⟩ := (start r k part).mpr before
  exact gone u.node (List.mem_map_of_mem listed) ⟨lo, hi, place⟩

theorem allM_run {test : α → Gen Bool} {holds : α → Bool} (run : ∀ a, test a g = .ok (holds a) g)
    (as : List α) : as.allM test g = .ok (as.all holds) g := by
  induction as with
  | nil => rfl
  | cons a as ih =>
    rw [List.allM, bind_run (run a), List.all_cons]
    cases holds a with
    | false => rfl
    | true => exact ih

theorem allDead_run (g : Generator) (ids : List NodeId) :
    (ids.allM (fun u => do return !(← isLive u)) : Gen Bool) g =
      .ok (ids.all fun u => !(g.pool.node u).isLiveAt g.seq) g := by
  refine allM_run (fun u => ?_) ids
  rfl

theorem reapRegister_vacates (start : g.Matched) (r : Reg) :
    Vacating g (reapRegister r) fun _ _ => True := by
  unfold reapRegister
  refine .after_ok (x := get) rfl ?_
  split
  · exact ⟨.refl start, trivial⟩
  refine .after_ok (x := usersOf r) rfl ?_
  refine .after_ok (allDead_run g _) ?_
  split
  · rename_i dead
    refine (Vacating.forM (fun _ _ => True) start (fun id user g' ⟨new, moved⟩ => ?_)
      fun _ _ _ _ _ => trivial).imp fun _ _ ⟨moved, _⟩ => ⟨moved, trivial⟩
    refine (dropLocation_vacates moved.matched (.inl ?_)).imp fun _ _ ⟨moved, _⟩ => ⟨moved, trivial⟩
    rw [moved.isLiveAt]
    simpa using List.all_eq_true.mp dead id user
  · exact ⟨.refl start, trivial⟩

theorem reap_vacates (start : g.Matched) (mask : RegMask) :
    Vacating g (reap mask) fun _ _ => True :=
  (Vacating.forM (fun _ _ => True) start
    (fun r _ _ moved => reapRegister_vacates moved.matched r) fun _ _ _ _ _ => trivial).imp
    fun _ _ ⟨moved, _⟩ => ⟨moved, trivial⟩

theorem onRegs_vacates (start : g.Matched) {step : RegisterFile → Except RegisterError RegisterFile}
    (ok : ∀ f f', step f = .ok f' → f.Alike f')
    (failed : ∀ f e, step f = .error e → (CompileError.invariant (.register e)).lacksRegister = false) :
    Vacating g (onRegs step) fun _ _ => True := by
  unfold onRegs
  refine .after_ok (x := get) rfl ?_
  cases done : step g.regs with
  | ok regs =>
    exact ⟨⟨[], .of_pool start rfl (ok _ _ done) rfl rfl rfl .refl fun _ inside _ => inside⟩, trivial⟩
  | error e => exact failed _ _ done

theorem release_vacates (start : g.Matched) (op : Operand) :
    Vacating g (release op) fun _ _ => True := by
  refine (Vacating.forM (fun _ _ => True) start (fun r _ g' moved => ?_)
    fun _ _ _ _ _ => trivial).imp fun _ _ ⟨moved, _⟩ => ⟨moved, trivial⟩
  refine onRegs_vacates moved.matched (fun f f' ok => RegisterFile.alike_of_unpin ok) ?_
  intro f e failed
  rw [RegisterFile.unpin_eq_error failed]
  rfl

theorem registersToMemory_vacates (start : g.Matched) (format : src.format = .reg)
    (waits : ⟨id, src, false⟩ ∈ g.held) :
    Vacating g (registersToMemory id src) fun _ _ => True := by
  unfold registersToMemory
  refine .after_ok (x := node id) rfl ?_
  cases copy : (g.pool.node id).spill with
  | some slot => exact ⟨.refl start, trivial⟩
  | none =>
    dsimp only
    split
    · rename_i op found
      refine (allocTemp_vacates start _ _ _).bind start fun slot g₁ moved ⟨lodges, pool, held⟩ => ?_
      have stores : Instr.Stores
          { op, ty := (g.pool.node id).ty.valueClass, dst := some (slotOperand slot),
            src := some src } src slot :=
        ⟨SelectionTable.move_of_store found, format, rfl, rfl⟩
      refine store_vacates moved.matched stores (by rw [pool]) (.inr (held ▸ waits))
        (by rwa [Lodges, pool]) (by rw [pool, copy]) fun g₂ moved₂ _ => ?_
      exact ⟨.refl moved₂.matched, trivial⟩
    · exact rfl

theorem waiting_set {pos : Nat} (bound : pos < g.held.length)
    (here : g.held[pos] = ⟨id, src, false⟩) (mem : Operand) :
    (g.held.set pos ⟨id, mem, true⟩).countP (fun h => !h.demoted) < g.waiting := by
  have one : 0 < g.waiting :=
    List.countP_pos_iff.mpr ⟨_, List.getElem_mem bound, by rw [here]; rfl⟩
  rw [List.countP_set bound, here]
  simp only [Bool.not_false, Bool.not_true, if_true, Bool.false_eq_true, if_false, waiting] at one ⊢
  omega

theorem demote_vacates (start : g.Matched) (mask : RegMask) :
    Ends (demote mask) g (fun moved g' => moved = true → g.Vacated g') fun _ _ => True := by
  refine demote_of (fun _ => nofun) fun pos id src bound here format => ?_
  have waits : ⟨id, src, false⟩ ∈ g.held := here ▸ List.getElem_mem bound
  refine (registersToMemory_vacates start format waits).mono (fun mem g₁ ⟨moved₁, _⟩ => ?_)
    fun _ _ _ => trivial
  refine (release_vacates moved₁.matched src).mono (fun _ g₂ ⟨moved₂, _⟩ stats _ => ?_)
    fun _ _ _ => trivial
  refine .trans start (moved₁.trans start moved₂) ⟨[], .of_pool moved₂.matched rfl
    (fun _ => ⟨rfl, rfl⟩) rfl rfl rfl .refl ?_⟩
  intro h inside waits
  dsimp only at inside
  rcases List.mem_or_eq_of_mem_set inside with old | rfl
  · exact old
  · cases waits

theorem Handles.keeps_held {fine : Operand → Prop} {x : Gen α} {result : α → Prop}
    (handles : Handles fine false x result) (held : List HeldValue) :
    Keeps (fun g => g.held = held) (fun e _ => e.lacksRegister = false) x result :=
  handles.keeps (fun _ _ mild _ => CompileError.lacksRegister_of_mild mild)
    (fun _ _ _ _ same _ here => same.trans here) (fun _ _ _ here => here)
    (fun _ _ _ _ _ here => here) nofun nofun

theorem keeps_held_release (op : Operand) (held : List HeldValue) :
    Keeps (fun g => g.held = held) (fun e _ => e.lacksRegister = false) (release op) fun _ => True :=
  .forM fun _ _ => .onRegs (fun _ _ _ same => same) fun _ _ failed _ => by
    rw [RegisterFile.unpin_eq_error failed]
    rfl

theorem demote_search (g : Generator) (mask : RegMask) :
    Ends (demote mask) g
      (fun moved g' => if moved then g'.waiting < g.waiting
        else g' = g ∧ ∀ h ∈ g.held, HeldValue.occupies h mask = false)
      fun e _ => e.lacksRegister = false := by
  refine demote_of (fun none => ⟨rfl, none⟩) fun pos id src bound here _ => ?_
  have stores := (@handles_registersToMemory (fun _ => False) false id src).keeps_held g.held
  refine (stores.ends g rfl).imp fun mem g₁ ⟨same, _⟩ => ?_
  refine ((keeps_held_release src g.held).ends g₁ same).imp fun _ g₂ ⟨same, _⟩ stats => ?_
  change (g₂.held.set pos _).countP _ < g.waiting
  rw [same]
  exact waiting_set bound here mem

end Gen

end CBackend
