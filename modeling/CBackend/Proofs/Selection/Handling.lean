import CBackend.Proofs.Registers
import CBackend.Proofs.Selection.Detachment

/-!
What handing out registers is made of. Values are looked up, moved and noted, and plain instructions
are written for it; every operation on registers and locations is put together from a few kinds of
steps. What these steps have in common is then proved once, by induction over how they are put
together.
-/

namespace CBackend

/-- Opcodes of instructions that neither change the flow of control nor call. -/
def Opcode.isPlain : Opcode → Bool
  | .enter | .leave | .ret | .call | .callind | .label | .jmp | .jcc _ => false
  | _ => true

theorem mem_of_lookup {α β : Type} [BEq α] [LawfulBEq α] {xs : List (α × β)} {a : α} {b : β}
    (found : xs.lookup a = some b) : (a, b) ∈ xs := by
  obtain ⟨before, after, split, -⟩ := List.lookup_eq_some_iff.mp found
  rw [split]
  simp

namespace SelectionTable

variable {t : SelectionTable}

def Plain (t : SelectionTable) : Prop := ∀ e ∈ t.entries, e.2.isPlain = true

instance (t : SelectionTable) : Decidable t.Plain := inferInstanceAs (Decidable (∀ _ ∈ _, _))

theorem Plain.find? (plain : t.Plain) {key : Nat} {op : Opcode} (found : t.find? key = some op) :
    op.isPlain = true :=
  plain _ (mem_of_lookup found)

theorem find?_of_lookup {key : Nat} {op : Opcode} (ok : t.lookup key = .ok op) :
    t.find? key = some op := by
  unfold lookup at ok
  split at ok
  · rename_i found
    cases ok
    exact found
  · cases ok

theorem plain_move : move.Plain := by decide +kernel

theorem plain_cmp : cmp.Plain := by decide +kernel

theorem plain_push : push.Plain := by decide +kernel

theorem plain_convert : convert.Plain := by decide +kernel

theorem plain_forOp {op : Op} (ok : forOp op = .ok t) : t.Plain := by
  cases op <;> cases ok <;> decide +kernel

theorem float_sources {op : Op} (ok : forOp op = .ok t) {ty : CType} (float : ty.isFloat = true)
    (reg : (t.srcFormats .reg ty.valueClass).contains .reg = true) :
    (t.srcFormats .reg ty.valueClass).contains .ind = true := by
  have all : ∀ t ∈ [add, sub, mul, div, mod, and, or, xor, shl, shr, neg, compl],
      ∀ ty ∈ [ValueClass.f32, .f64], (t.srcFormats .reg ty).contains .reg = true →
        (t.srcFormats .reg ty).contains .ind = true := by decide +kernel
  have listed : t ∈ [add, sub, mul, div, mod, and, or, xor, shl, shr, neg, compl] := by
    cases op <;> cases ok <;> simp
  have classes : ty.valueClass ∈ [ValueClass.f32, .f64] := by
    cases ty <;> simp [CType.valueClass, CType.isFloat] at float ⊢
  exact all t listed _ classes reg

end SelectionTable

/-- Failures that would show that blocks do not nest, that a label is missing or that the pins do not
add up, those for want of a register, and aborts. -/
def CompileError.grave : CompileError → Bool
  | .invariant (.noBlockMarker _) | .invariant (.unclosedBlock ..) => true
  | .invariant (.undefinedLabel _) | .invariant .nothingHeld => true
  | .invariant (.register (.pinUnderflow _)) | .invariant (.register (.pinOverflow _)) => true
  | .invariant (.register (.noneAvailable _)) | .invariant (.aborted _) => true
  | _ => false

namespace Gen

/-- Computations that move values about. They look at the state but not at its surroundings, note
where values are, which is in the frame or at a `fine` operand, change who is in which register and
write plain instructions. With `moves` they also move waiting operands to memory, and may lack a
register. -/
inductive Handles (fine : Operand → Prop) (moves : Bool) :
    {α : Type} → Gen α → (α → Prop) → Prop
  | pure {α : Type} {a : α} {result : α → Prop} (here : result a) :
      Handles fine moves (pure a) result
  | throw {α : Type} {e : CompileError} {result : α → Prop} (mild : e.grave = false) :
      Handles fine moves (throw e) result
  | look {α : Type} {k : Generator → Gen α} {result : α → Prop}
      (same : ∀ g s, k (Generator.within g s) = k g)
      (rest : ∀ g, Handles fine moves (k g) result) : Handles fine moves (get >>= k) result
  | bind {α β : Type} {x : Gen α} {f : α → Gen β} {middle : α → Prop} {result : β → Prop}
      (first : Handles fine moves x middle)
      (rest : ∀ a, middle a → Handles fine moves (f a) result) : Handles fine moves (x >>= f) result
  | allocTemp (owner : NodeId) (size lastRef : Nat) :
      Handles fine moves (allocTemp owner size lastRef) fun _ => True
  | emit {i : Instr} (plain : i.op.isPlain = true) : Handles fine moves (emit' i) fun _ => True
  | modifyStats (change : FunctionStats → FunctionStats) :
      Handles fine moves (modifyStats change) fun _ => True
  | modifyNode (id : NodeId) {change : ValueNode → ValueNode} (key : ∀ v, (change v).key = v.key)
      (place : ∀ v op, (change v).loc = some op →
        v.loc = some op ∨ (∃ slot, op = slotOperand slot) ∨ fine op) :
      Handles fine moves (modifyNode id change) fun _ => True
  | associate (r : Reg) (id : NodeId) (part lastRef : Nat) :
      Handles fine moves (onRegs (·.associate r id part lastRef)) fun _ => True
  | dissociate (r : Reg) (id : NodeId) (part : Nat) :
      Handles fine moves (onRegs (·.dissociate r id part)) fun _ => True
  | demote (allowed : moves = true) (mask : RegMask) :
      Handles fine moves (demote mask) fun _ => True
  | lack {α : Type} {result : α → Prop} (allowed : moves = true) (mask : RegMask) :
      Handles fine moves (throw (.invariant (.register (.noneAvailable mask)))) result

variable {α β : Type} {fine : Operand → Prop} {moves : Bool}

namespace Handles

variable {f : α → Gen β} {as : List α}

theorem imp {x : Gen α} {result result' : α → Prop} (handles : Handles fine moves x result)
    (weaker : ∀ a, result a → result' a) : Handles fine moves x result' := by
  rw [← bind_pure x]
  exact handles.bind fun a here => pure (weaker a here)

theorem forM {f : α → Gen PUnit} (round : ∀ a, Handles fine moves (f a) fun _ => True) :
    Handles fine moves (as.forM f) fun _ => True := by
  induction as with
  | nil => exact pure trivial
  | cons a as ih => exact (round a).bind fun _ _ => ih

theorem mapM (round : ∀ a, Handles fine moves (f a) fun _ => True) :
    Handles fine moves (as.mapM f) fun _ => True := by
  induction as with
  | nil => exact pure trivial
  | cons a as ih =>
    rw [List.mapM_cons]
    exact (round a).bind fun _ _ => ih.bind fun _ _ => pure trivial

theorem allM {test : α → Gen Bool} (round : ∀ a, Handles fine moves (test a) fun _ => True) :
    Handles fine moves (as.allM test) fun _ => True := by
  induction as with
  | nil => exact pure trivial
  | cons a as ih =>
    rw [List.allM]
    refine (round a).bind fun passed _ => ?_
    cases passed with
    | true => exact ih
    | false => exact pure trivial

end Handles

theorem handles_entry (t : SelectionTable) (key : Nat) :
    Handles fine moves (ofExcept (t.lookup key)) fun op => (key, op) ∈ t.entries := by
  cases result : t.lookup key with
  | ok op => exact .pure (mem_of_lookup (SelectionTable.find?_of_lookup result))
  | error e =>
    unfold SelectionTable.lookup at result
    split at result
    · cases result
    · cases result
      exact .throw rfl

theorem handles_lookup {t : SelectionTable} (plain : t.Plain) (key : Nat) :
    Handles fine moves (ofExcept (t.lookup key)) fun op => op.isPlain = true :=
  (handles_entry t key).imp fun _ entry => plain _ entry

theorem handles_forOp (op : Op) :
    Handles fine moves (ofExcept (SelectionTable.forOp op)) fun t => SelectionTable.forOp op = .ok t := by
  cases result : SelectionTable.forOp op with
  | ok t => exact .pure rfl
  | error e =>
    refine .throw ?_
    cases op <;> cases result <;> rfl

theorem handles_moveOpcode (dst src : Format) (ty : ValueClass) :
    Handles fine moves (moveOpcode dst src ty) fun op => op.isPlain = true :=
  handles_lookup SelectionTable.plain_move _

theorem handles_moveTo (ty : ValueClass) (dst src : Operand) :
    Handles fine moves (moveTo ty dst src) fun _ => True :=
  (handles_moveOpcode _ _ _).bind fun _ plain => .emit plain

theorem handles_node (id : NodeId) : Handles fine moves (node id) fun _ => True :=
  .look (fun _ _ => rfl) fun _ => .pure trivial

theorem handles_isLive (id : NodeId) : Handles fine moves (isLive id) fun _ => True :=
  (handles_node id).bind fun _ _ => .look (fun _ _ => rfl) fun _ => .pure trivial

theorem handles_usersOf (r : Reg) : Handles fine moves (usersOf r) fun _ => True :=
  .look (fun _ _ => rfl) fun _ => .pure trivial

theorem handles_isRematerializable (id : NodeId) :
    Handles fine moves (isRematerializable id) fun _ => True := by
  unfold isRematerializable
  refine (handles_node id).bind fun v _ => ?_
  split <;> exact .pure trivial

theorem handles_dropLocation (id : NodeId) :
    Handles fine moves (dropLocation id) fun _ => True := by
  unfold dropLocation
  have leave : Handles fine moves (modifyNode id fun v => { v with loc := v.spill.map slotOperand })
      fun _ => True := by
    refine .modifyNode id (fun _ => rfl) fun v op place => ?_
    obtain ⟨slot, -, same⟩ := Option.map_eq_some_iff.mp place
    exact .inr (.inl ⟨slot, same.symm⟩)
  refine (handles_node id).bind fun v _ => ?_
  split
  · refine (Handles.dissociate _ _ _).bind fun _ _ => ?_
    split
    · exact (Handles.dissociate _ _ _).bind fun _ _ => leave
    · exact leave
  · exact leave
  · exact .pure trivial

theorem handles_settle {op : Operand} (id : NodeId) (placed : fine op) :
    Handles fine moves (settle id op) fun _ => True := by
  unfold settle
  have place : Handles fine moves (modifyNode id fun v => { v with loc := some op })
      fun _ => True := by
    refine .modifyNode id (fun _ => rfl) fun v op' here => ?_
    cases here
    exact .inr (.inr placed)
  refine (handles_node id).bind fun v _ => ?_
  dsimp only
  split
  · refine (Handles.associate _ _ _ _).bind fun _ _ => ?_
    split
    · exact (Handles.associate _ _ _ _).bind fun _ _ => place
    · exact place
  · exact place

theorem handles_locate {op : Operand} (id : NodeId) (placed : fine op) :
    Handles fine moves (locate id op) fun _ => True := by
  unfold locate
  refine (handles_node id).bind fun v _ => ?_
  split
  · exact (handles_dropLocation id).bind fun _ _ => handles_settle id placed
  · exact handles_settle id placed

theorem handles_spilled (id : NodeId) (slot : Int) :
    Handles fine moves (modifyNode id fun v => { v with spill := some slot }) fun _ => True :=
  .modifyNode id (fun _ => rfl) fun _ _ place => .inl place

theorem handles_spill (id : NodeId) : Handles fine moves (spill id) fun _ => True := by
  unfold spill
  refine (handles_node id).bind fun v _ => ?_
  split
  · refine (Handles.allocTemp _ _ _).bind fun slot _ => ?_
    refine (handles_moveOpcode _ _ _).bind fun op plain => ?_
    refine (Handles.emit plain).bind fun _ _ => ?_
    exact (handles_spilled id slot).bind fun _ _ => .modifyStats _
  · exact .throw rfl

theorem handles_evacuate (id : NodeId) : Handles fine moves (evacuate id) fun _ => True := by
  unfold evacuate
  refine (handles_isLive id).bind fun live _ => ?_
  refine (handles_node id).bind fun v _ => ?_
  refine (handles_isRematerializable id).bind fun remade _ => ?_
  split
  · exact (handles_spill id).bind fun _ _ => handles_dropLocation id
  · exact handles_dropLocation id

theorem handles_saveAcrossCall (id : NodeId) :
    Handles fine moves (saveAcrossCall id) fun _ => True := by
  unfold saveAcrossCall
  refine (handles_isLive id).bind fun live _ => ?_
  refine (handles_node id).bind fun v _ => ?_
  split
  · exact handles_spill id
  · exact .pure trivial

theorem handles_free (r : Reg) : Handles fine moves (free r) fun _ => True :=
  (handles_usersOf r).bind fun _ _ => .forM handles_evacuate

theorem handles_flushRegisters : Handles fine moves flushRegisters fun _ => True :=
  .look (fun _ _ => rfl) fun _ => .forM handles_free

theorem handles_freeUnpinned (rs : List Reg) : Handles fine moves (rs.forM fun r => do
    if !(← get).regs.isPinned r then free r) fun _ => True := by
  refine .forM fun r => .look (fun _ _ => rfl) fun g => ?_
  split
  · exact handles_free r
  · exact .pure trivial

theorem handles_saveUsers (rs : List Reg) : Handles fine moves (rs.forM fun r => do
    (← usersOf r).forM saveAcrossCall) fun _ => True :=
  .forM fun r => (handles_usersOf r).bind fun _ _ => .forM handles_saveAcrossCall

theorem handles_allDead (ids : List NodeId) :
    Handles fine moves (ids.allM fun u => do return !(← isLive u)) fun _ => True :=
  .allM fun u => (handles_isLive u).bind fun _ _ => .pure trivial

theorem handles_reapRegister (r : Reg) : Handles fine moves (reapRegister r) fun _ => True := by
  refine .look (fun _ _ => rfl) fun g => ?_
  split
  · exact .pure trivial
  refine (handles_usersOf r).bind fun users _ => ?_
  refine (handles_allDead users).bind fun dead _ => ?_
  split
  · exact .forM handles_dropLocation
  · exact .pure trivial

theorem handles_reap (mask : RegMask) : Handles fine moves (reap mask) fun _ => True :=
  .forM handles_reapRegister

theorem handles_registersToMemory (id : NodeId) (src : Operand) :
    Handles fine moves (registersToMemory id src) fun mem => ∃ slot, mem = slotOperand slot := by
  unfold registersToMemory
  refine (handles_node id).bind fun v _ => ?_
  split
  · exact .pure ⟨_, rfl⟩
  dsimp only
  split
  · rename_i op found
    refine (Handles.allocTemp _ _ _).bind fun slot _ => ?_
    refine (Handles.emit (SelectionTable.plain_move.find? found)).bind fun _ _ => ?_
    exact (handles_spilled id slot).bind fun _ _ => .pure ⟨slot, rfl⟩
  · exact .throw rfl

theorem handles_chooseRegister (mask : RegMask) (tries : Nat) :
    Handles fine true (chooseRegister mask tries) fun choice => choice.reg.number < Reg.count := by
  induction tries with
  | zero => exact .lack rfl mask
  | succ tries ih =>
    refine .look (fun _ _ => rfl) fun g => .look (fun _ _ => rfl) fun g' => ?_
    split
    · rename_i choice ok
      obtain ⟨-, usable, -⟩ := RegisterFile.mem_usable_iff.mp (RegisterFile.choose_mem ok)
      exact .pure (RegisterFile.inside_of_state usable)
    rename_i e failed
    refine (Handles.demote rfl mask).bind fun moved _ => ?_
    split
    · exact (handles_reap mask).bind fun _ _ => ih
    · rw [RegisterFile.choose_error failed]
      exact .lack rfl mask

theorem handles_alloc (mask : RegMask) :
    Handles fine true (alloc mask) fun r => r.number < Reg.count := by
  unfold alloc
  refine (handles_reap mask).bind fun _ _ => ?_
  refine .look (fun _ _ => rfl) fun g => ?_
  refine (handles_chooseRegister mask _).bind fun choice inside => ?_
  cases choice with
  | available r => exact (handles_free r).bind fun _ _ => .pure inside
  | evict r =>
    refine (Handles.modifyStats _).bind fun _ _ => ?_
    exact (handles_free r).bind fun _ _ => .pure inside

section Detached

variable {x : Gen α} {result : α → Prop}

theorem Handles.detached_of (handles : Handles fine moves x result)
    (demotes : moves = true → ∀ mask, Detached (Gen.demote mask)) :
    Detached x ∧ ∀ g a g', x g = .ok a g' → result a := by
  have all {β : Type} {y : Gen β} (detached : Detached y) :
      Detached y ∧ ∀ g a g', y g = .ok a g' → True := ⟨detached, fun _ _ _ _ => trivial⟩
  induction handles with
  | pure here =>
    refine ⟨.pure _, fun g a g' run => ?_⟩
    obtain ⟨rfl, -⟩ := pure_eq_ok.mp run
    exact here
  | throw | lack => exact ⟨.throw _, fun _ _ _ run => absurd run throw_ne_ok⟩
  | look same _ ih => exact ⟨.get_bind same fun g => (ih g).1, fun g => (ih g).2 g⟩
  | bind _ _ ih ih' =>
    refine ⟨ih.1.andThen fun g a g' run => (ih' a (ih.2 g a g' run)).1, fun g b g' run => ?_⟩
    obtain ⟨a, g₁, first, second⟩ := bind_eq_ok.mp run
    exact (ih' a (ih.2 g a g₁ first)).2 g₁ b g' second
  | allocTemp => exact all (.modifyGet fun _ _ => rfl)
  | emit => exact all ((detached_emit _).bind fun _ => .pure _)
  | modifyStats | modifyNode => exact all (.modify fun _ _ => rfl)
  | associate | dissociate => exact all (detached_onRegs _)
  | demote allowed => exact all (demotes allowed _)

theorem detached_hold (op : Operand) : Detached (hold op) := .forM fun _ => detached_onRegs _

theorem detached_release (op : Operand) : Detached (release op) := .forM fun _ => detached_onRegs _

theorem detached_demote (mask : RegMask) : Detached (demote mask) := by
  apply Detached.get_bind (fun _ _ => rfl)
  intro g
  split
  · exact .pure _
  apply Detached.get_bind (fun _ _ => rfl)
  intro g
  apply (detached_node _).bind
  intro n
  apply ((@handles_registersToMemory (fun _ => False) false _ _).detached_of nofun).1.bind
  intro mem
  apply (detached_release _).bind
  intro _
  apply Detached.bind (.modify fun _ _ => rfl)
  intro _
  exact (detached_modifyStats _).bind fun _ => .pure _

theorem Handles.detached (handles : Handles fine moves x result) : Detached x :=
  (handles.detached_of fun _ => detached_demote).1

theorem detached_allocValue (ty : CType) : Detached (allocValue ty) := by
  have alloc (mask : RegMask) : Detached (alloc mask) :=
    (@handles_alloc (fun _ => False) mask).detached
  unfold allocValue
  apply Detached.ite ((alloc _).bind fun _ => .pure _)
  apply (alloc _).bind
  intro lo
  apply Detached.ite (.pure _)
  apply (detached_onRegs _).bind
  intro _
  exact ((alloc _).tryFinally (detached_onRegs _)).bind fun _ => .pure _

end Detached

end Gen

end CBackend
