import CBackend.Selection.Generator

/-!
Registers are handed out while instructions are selected. A register can be taken as soon as no
value in it is needed. If every candidate holds a needed value, the one needed furthest ahead is
stored to a frame temporary; if every candidate is pinned, the oldest waiting operand is moved to
memory instead.
-/

namespace CBackend.Gen

/-- Whether the value is just a constant or an address, which needs no storing. -/
def isRematerializable (id : NodeId) : Gen Bool := do
  match (← node id).op with
  | .const | .addr => return true
  | _ => return false

def isLive (id : NodeId) : Gen Bool := return (← node id).isLiveAt (← get).seq

def usersOf (r : Reg) : Gen (List NodeId) := return ((← get).regs.users r).map RegUser.node

/-- Takes a value out of its registers; it is then where its copy in the frame is, if it has one. -/
def dropLocation (id : NodeId) : Gen Unit := do
  match (← node id).loc with
  | some (.reg lo hi) =>
    onRegs (·.dissociate lo id 0)
    match hi with
    | some hi => onRegs (·.dissociate hi id 1)
    | none => pure ()
    modifyNode id fun n => { n with loc := n.spill.map slotOperand }
  | none => modifyNode id fun n => { n with loc := n.spill.map slotOperand }
  | some _ => pure ()

def settle (id : NodeId) (op : Operand) : Gen Unit := do
  let lastRef := (← node id).lastRef
  match op with
  | .reg lo hi =>
    onRegs (·.associate lo id 0 lastRef)
    match hi with
    | some hi => onRegs (·.associate hi id 1 lastRef)
    | none => pure ()
  | _ => pure ()
  modifyNode id fun n => { n with loc := some op }

def locate (id : NodeId) (op : Operand) : Gen Unit := do
  match (← node id).loc with
  | some (.reg ..) => dropLocation id
  | _ => pure ()
  settle id op

def hold (op : Operand) : Gen Unit := op.regs.forM fun r => onRegs (·.pin r)

def release (op : Operand) : Gen Unit := op.regs.forM fun r => onRegs (·.unpin r)

def spill (id : NodeId) : Gen Unit := do
  let n ← node id
  match n.loc with
  | some (.reg lo hi) =>
    let slot ← allocTemp id n.ty.size n.lastRef
    let ty := n.ty.valueClass
    let op ← moveOpcode .ind .reg ty
    emit' { op, ty, dst := some (slotOperand slot), src := some (.reg lo hi) }
    modifyNode id fun n => { n with spill := some slot }
    modifyStats fun s => { s with spills := s.spills + 1 }
  | _ => throw (.invariant (.spillOutsideRegister id))

/-- Empties a register of one value, storing it first if it is needed and has no copy. -/
def evacuate (id : NodeId) : Gen Unit := do
  if (← isLive id) && (← node id).spill.isNone && !(← isRematerializable id) then spill id
  dropLocation id

def free (r : Reg) : Gen Unit := do (← usersOf r).forM evacuate

/-- Empties all registers that are ever handed out. -/
def flushRegisters : Gen Unit := do (← get).regs.allocatable.toList.forM free

def reapRegister (r : Reg) : Gen Unit := do
  if (← get).regs.isPinned r then return
  let users ← usersOf r
  if ← users.allM fun u => return !(← isLive u) then users.forM dropLocation

def reap (mask : RegMask) : Gen Unit := mask.toList.forM reapRegister

/-- Moves a value from registers to memory: to its copy, or else to a new temporary. A class whose
registers cannot be stored cannot be moved between registers either. -/
def registersToMemory (id : NodeId) (src : Operand) : Gen Operand := do
  let n ← node id
  match n.spill with
  | some slot => return slotOperand slot
  | none =>
    let ty := n.ty.valueClass
    match SelectionTable.move.find? (SelectionKey.pack .ind .reg ty) with
    | some op =>
      let slot ← allocTemp id n.ty.size n.lastRef
      emit' { op, ty, dst := some (slotOperand slot), src := some src }
      modifyNode id fun n => { n with spill := some slot }
      return slotOperand slot
    | none =>
      throw (.selectionMiss SelectionTable.move.name (SelectionKey.pack .reg .reg ty))

def HeldValue.occupies (h : HeldValue) (mask : RegMask) : Bool :=
  !h.demoted && h.operand.format == .reg && h.operand.regs.any mask.contains

/-- Moves the oldest waiting operand in registers of the mask to memory and unpins it; false if
there is none. -/
def demote (mask : RegMask) : Gen Bool := do
  match (← get).held.findIdx? (HeldValue.occupies · mask) with
  | none => return false
  | some pos =>
    let h := (← get).held.getD pos default
    let unsaved := (← node h.node).spill.isNone
    let mem ← registersToMemory h.node h.operand
    release h.operand
    modify fun g => { g with held := g.held.set pos { h with operand := mem, demoted := true } }
    modifyStats fun s => { s with
      evictions := s.evictions + 1
      spills := if unsaved then s.spills + 1 else s.spills }
    return true

/-- Chooses a register, moving waiting operands out of the way as long as there are any. -/
def chooseRegister (mask : RegMask) : (tries : Nat) → Gen RegChoice
  | 0 => throw (.invariant (.register (.noneAvailable mask)))
  | tries + 1 => do
    match (← get).regs.choose mask (← get).seq with
    | .ok choice => return choice
    | .error e =>
      if ← demote mask then
        reap mask
        chooseRegister mask tries
      else throw (.invariant (.register e))

def alloc (mask : RegMask) : Gen Reg := do
  reap mask
  match ← chooseRegister mask ((← get).held.length + 1) with
  | .available r =>
    free r
    return r
  | .evict r =>
    modifyStats fun s => { s with evictions := s.evictions + 1 }
    free r
    return r

/-- Registers for a value: a floating one, a general one or, for a wide integer, two. -/
def allocValue (ty : CType) : Gen Operand := do
  if ty.isFloat then return .single (← alloc .floating)
  let lo ← alloc .general
  if !ty.isWide then return .single lo
  onRegs (·.pin lo)
  let hi ← try alloc .general finally onRegs (·.unpin lo)
  return .pair lo hi

def loadRegisters (id : NodeId) (src : Operand) : Gen Operand := do
  let n ← node id
  let ty := n.ty.valueClass
  let op ← moveOpcode .reg src.format ty
  hold src
  let dst ← allocValue n.ty
  release src
  emit' { op, ty, dst := some dst, src := some src }
  if n.spill.map slotOperand = some src then
    modifyStats fun s => { s with reloads := s.reloads + 1 }
  locate id dst
  return dst

/-- A copy of the value in memory, stored to a frame temporary if there is none. -/
def toMemory (id : NodeId) (op : Operand) : Gen Operand := do
  let n ← node id
  match n.spill with
  | some slot => return slotOperand slot
  | none =>
    let ty := n.ty.valueClass
    let storable := (SelectionTable.move.find? (SelectionKey.pack .ind op.format ty)).isSome
    let src ← if storable then pure op else loadRegisters id op
    let opcode ← moveOpcode .ind src.format ty
    let slot ← allocTemp id n.ty.size n.lastRef
    emit' { op := opcode, ty, dst := some (slotOperand slot), src := some src }
    modifyNode id fun n => { n with spill := some slot }
    return slotOperand slot

/-- Brings the value of a node into one of the formats asked for. -/
def coerce (id : NodeId) (op : Operand) (mask : Format) : Gen Operand := do
  if mask.contains op.format then return op
  else if mask.contains .reg then loadRegisters id op
  else if mask.contains .ind then toMemory id op
  else
    let ty := (← node id).ty.valueClass
    throw (.selectionMiss "coerce" (SelectionKey.pack mask op.format ty))

/-- Lets an operand wait: pinned, but free to be moved to memory if registers run out. -/
def holdValue (id : NodeId) (op : Operand) : Gen Unit := do
  hold op
  modify fun g => { g with held := g.held ++ [⟨id, op, false⟩] }

/-- Takes back the operand that began to wait last, in one of the formats asked for and pinned. -/
def takeHeld (mask : Format) : Gen Operand := do
  match (← get).held.getLast? with
  | none => throw (.invariant .nothingHeld)
  | some h =>
    modify fun g => { g with held := g.held.dropLast }
    if !h.demoted then return h.operand
    let op ← coerce h.node h.operand mask
    hold op
    return op

/-- Turns registers into a destination that may be overwritten: themselves if no value in them is
needed, else new ones with a copy. -/
def claim (op : Operand) (ty : CType) : Gen Operand := do
  let users ← op.regs.mapM usersOf
  if ← users.flatten.allM fun u => return !(← isLive u) then
    op.regs.forM fun r => do (← usersOf r).forM dropLocation
    return op
  else
    let dst ← allocValue ty
    let opcode ← moveOpcode .reg .reg ty.valueClass
    emit' { op := opcode, ty := ty.valueClass, dst := some dst, src := some op }
    return dst

end CBackend.Gen
