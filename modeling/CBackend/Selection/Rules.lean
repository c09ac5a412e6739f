import CBackend.Selection.Allocation

/-!
Instruction selection. A consumer asks for a value in one of a set of formats; the value is computed
the first time it is asked for, from operands that are asked for in the formats its table accepts,
and is then brought into a format the consumer takes. Leaves, loads and conversions that do not
widen produce operands and no code, so they are computed anew at each use.
-/

namespace CBackend.Gen

def pointerFormats : Format := .union .reg .mem

/-- How operands are selected: a value in one of the given formats. -/
abbrev Selector := NodeId → Format → Gen Operand

def firstKid (id : NodeId) : Gen NodeId := do
  match (← node id).key.left with
  | some k => return k
  | none => throw (.invariant (.missingOperand id))

def bothKids (id : NodeId) : Gen (NodeId × NodeId) := do
  let key := (← node id).key
  match key.left, key.right with
  | some l, some r => return (l, r)
  | _, _ => throw (.invariant (.needsTwoOperands id))

def leafSymbol (id : NodeId) : Gen Symbol := do
  match (← node id).key.sym with
  | some s => return s
  | none => throw (.invariant .leafWithoutSymbol)

/-- The address of a variable: from the frame pointer for what lives in the frame, else by name. -/
def addressOf (sym : Symbol) : Gen Address := do
  let symbols := (← get).symbols
  if symbols.isFrameResident sym then
    match symbols.offset sym with
    | some offset => return .based .ebp offset
    | none => throw (.invariant (.slotUnassigned (symbols.name sym)))
  else return .symbol sym

def derefAddress : Operand → Gen Address
  | .mem a => return a
  | .reg lo _ => return .based lo 0
  | op => throw (.invariant (.notAnAddress op))

def moveTo (ty : ValueClass) (dst src : Operand) : Gen Unit := do
  let op ← moveOpcode dst.format src.format ty
  emit' { op, ty, dst := some dst, src := some src }

/-- The right side is selected first and waits while the left side is brought into a register that
may be overwritten. -/
def selectBinary (select : Selector) (id : NodeId) : Gen Operand := do
  let n ← node id
  let (l, r) ← bothKids id
  let ty := n.ty.valueClass
  let table ← ofExcept (SelectionTable.forOp n.op)
  let srcFormats := table.srcFormats .reg ty
  let rhs ← select r srcFormats
  holdValue r rhs
  let lhs ← select l .reg
  hold lhs
  let dst ← claim lhs n.ty
  hold dst
  let rhs ← takeHeld srcFormats
  release dst
  let op ← ofExcept (table.lookup (SelectionKey.pack .reg rhs.format ty))
  emit' { op, ty, dst := some dst, src := some rhs }
  release lhs
  release rhs
  locate id dst
  return dst

def selectUnary (select : Selector) (id : NodeId) : Gen Operand := do
  let n ← node id
  let ty := n.ty.valueClass
  let table ← ofExcept (SelectionTable.forOp n.op)
  let op ← ofExcept (table.lookup (SelectionKey.pack .reg .none ty))
  let kid ← firstKid id
  let v ← select kid .reg
  hold v
  let dst ← claim v n.ty
  release v
  emit' { op, ty, dst := some dst }
  locate id dst
  return dst

/-- Emits the comparison of a node's operands. A right side in a register may come back from
memory, so the left side has to go with both. -/
def compareKids (select : Selector) (id : NodeId) : Gen Unit := do
  let (l, r) ← bothKids id
  let ty := (← node l).ty.valueClass
  let table := SelectionTable.cmp
  let rhs ← select r ((table.srcFormats .reg ty).union (table.srcFormats .ind ty))
  let dstFormats :=
    match rhs with
    | .reg .. => (table.dstFormats .reg ty).inter (table.dstFormats .ind ty)
    | _ => table.dstFormats rhs.format ty
  holdValue r rhs
  let lhs ← select l dstFormats
  hold lhs
  let rhs ← takeHeld (table.srcFormats lhs.format ty)
  let op ← ofExcept (table.lookup (SelectionKey.pack lhs.format rhs.format ty))
  emit' { op, ty, dst := some lhs, src := some rhs }
  release lhs
  release rhs

def selectComparison (select : Selector) (id : NodeId) (cond : Cond) : Gen Operand := do
  compareKids select id
  let dst := Operand.single (← alloc .general)
  emit' { op := .set cond, ty := .i32, dst := some dst }
  locate id dst
  return dst

/-- A conversion on the way to another one, used once by the current code. -/
def stage (kid : NodeId) (ty : CType) : Gen NodeId :=
  modifyGet fun g =>
    let (id, pool) := g.pool.fresh (.unary .cvt ty kid) 0
    (id, { g with pool := pool.modify id fun n => { n with lastRef := g.seq, pending := 1 } })

def convert (select : Selector) (id kid : NodeId) (ty srcTy : CType) : Gen Operand := do
  let table := SelectionTable.convert
  let cls := ty.valueClass
  let srcCls := srcTy.valueClass
  let formats := table.conversionFormats cls srcCls
  if formats.isEmpty then
    throw (.selectionMiss table.name (SelectionKey.packConversion .reg cls .none srcCls))
  let v ← select kid formats
  hold v
  let dst ← allocValue ty
  release v
  let op ← ofExcept (table.lookup (SelectionKey.packConversion .reg cls v.format srcCls))
  emit' { op, ty := cls, dst := some dst, src := some v, bytes := srcCls.width }
  locate id dst
  return dst

/-- Integers narrower than a register's signed width become floating by way of a wider signed
integer. -/
def integerStage? : CType → Option CType := fun srcTy =>
  match srcTy.valueClass with
  | .i8 | .u8 | .i16 | .u16 => some .int
  | .u32 => some .llong
  | _ => none

def floatingStage? : CType → Option CType := fun ty =>
  match ty.valueClass with
  | .i32 | .i64 | .u64 => none
  | .u32 => some .llong
  | _ => some .int

def lowPart (ty : CType) : Operand → Operand
  | .reg lo hi => if ty.isWide then .reg lo hi else .single lo
  | op => op

def selectConversion (select : Selector) (id : NodeId) : Gen Operand := do
  let ty := (← node id).ty
  let kid ← firstKid id
  let srcTy := (← node kid).ty
  if srcTy.isInteger && ty.isInteger then
    -- What does not widen reads the low part in place.
    if ty.size ≤ srcTy.size then return lowPart ty (← select kid .any)
    else convert select id kid ty srcTy
  else if ty.isFloat && srcTy.isInteger then
    match integerStage? srcTy with
    | some via => convert select id (← stage kid via) ty via
    | none => convert select id kid ty srcTy
  else if ty.isInteger && srcTy.isFloat then
    match floatingStage? ty with
    | none => convert select id kid ty srcTy
    | some via =>
      let dst := lowPart ty (← select (← stage kid via) .reg)
      locate id dst
      return dst
  else if ty.isFloat && srcTy.isFloat then convert select id kid ty srcTy
  else throw (.unsupported (.conversion srcTy ty))

def compute (select : Selector) (id : NodeId) : Gen Operand := do
  match (← node id).op with
  | .const => return .imm (← leafSymbol id)
  | .addr => return .mem (← addressOf (← leafSymbol id))
  | .load => return .ind (← derefAddress (← select (← firstKid id) pointerFormats))
  | .neg | .compl => selectUnary select id
  | .cmp cond => selectComparison select id cond
  | .cvt => selectConversion select id
  | .add | .sub | .mul | .div | .mod | .and | .or | .xor | .shl | .shr => selectBinary select id
  | .assign => throw (.invariant (.effectNotEvaluated .assign id))
  | .call => throw (.invariant (.effectNotEvaluated .call id))

/-- The value of a node in one of the formats asked for; uses up one pending use. -/
def selectWithin : (fuel : Nat) → Selector
  | 0, id, _ => throw (.invariant (.cyclicValue id))
  | fuel + 1, id, mask => do
    modifyNode id fun n => { n with pending := n.pending - 1 }
    let op ←
      match (← node id).loc with
      | some loc => pure loc
      | none => compute (selectWithin fuel) id
    coerce id op mask

/-- Operands have smaller numbers than their values, and a conversion puts at most one stage in
between, so two levels for each number suffice. -/
def select : Selector := fun id mask => selectWithin (2 * id.index + 2) id mask

/-- A conditional jump; the comparison is always made anew. -/
def selectBranch (select : Selector) (id : NodeId) (target : Symbol) : Gen Unit := do
  match (← node id).op with
  | .cmp cond =>
    compareKids select id
    flushRegisters
    emit' { op := .jcc cond, ty := .void, target := some target }
  | _ => throw (.invariant .branchOnNonComparison)

def selectJump (target : Symbol) : Gen Unit := do
  flushRegisters
  emit' { op := .jmp, ty := .void, target := some target }

def selectLabel (label : Symbol) : Gen Unit := do
  flushRegisters
  emit' { op := .label, ty := .void, target := some label }

/-- A store: the value is selected first and waits for the address. -/
def selectAssign (select : Selector) (id : NodeId) : Gen Unit := do
  let ty := (← node id).ty
  let (a, v) ← bothKids id
  let cls := ty.valueClass
  let srcFormats := if ty.isStruct then .ind else SelectionTable.move.srcFormats .ind cls
  let src ← select v srcFormats
  holdValue v src
  let target := Operand.ind (← derefAddress (← select a pointerFormats))
  hold target
  let src ← takeHeld srcFormats
  release target
  if ty.isStruct then
    emit' { op := .copy, ty := cls, dst := some target, src := some src, bytes := ty.size }
  else moveTo cls target src
  release src

/-- Stores a value still needed after a call that is also an operand of it. -/
def saveAcrossCall (id : NodeId) : Gen Unit := do
  if (← isLive id) && (← node id).spill.isNone then spill id

/-- A call clobbers every register; its result arrives where the calling convention puts it. -/
def selectCall (select : Selector) (id : NodeId) : Gen Unit := do
  let n ← node id
  let callee ← firstKid id
  let target ← select callee .any
  let op ← ofExcept (SelectionTable.call.lookup (SelectionKey.pack .none target.format .u32))
  hold target
  (← get).regs.allocatable.toList.forM fun r => do
    if !(← get).regs.isPinned r then free r
  (← get).regs.allocatable.toList.forM fun r => do (← usersOf r).forM saveAcrossCall
  emit' { op, ty := .u32, src := some target }
  release target
  flushRegisters
  if 0 < n.aux then
    let bytes ← onSymbols (·.intConst n.aux .uint)
    emit' { op := .add, ty := .u32, dst := some (.single .esp), src := some (.imm bytes) }
  if n.ty = .void then
    let zero ← onSymbols (·.intConst 0 .int)
    locate id (.imm zero)
  else if n.ty.isFloat then locate id (.single .f0)
  else if n.ty.isWide then locate id (.pair .eax .edx)
  else if n.ty.isStruct then throw (.invariant .structInRegisters)
  else locate id (.single .eax)

def selectEffect (select : Selector) (id : NodeId) : Gen Unit := do
  match (← node id).op with
  | .assign => selectAssign select id
  | .call => selectCall select id
  | op => throw (.invariant (.notAStatement op))

def pushArg (select : Selector) (id : NodeId) : Gen Unit := do
  let ty := (← node id).ty
  let cls := ty.valueClass
  let table := SelectionTable.push
  let v ← select id (table.srcFormats .none cls)
  let op ← ofExcept (table.lookup (SelectionKey.pack .none v.format cls))
  emit' { op, ty := cls, src := some v, bytes := roundToSlot ty.size }

def returnOperand (ty : CType) : Operand :=
  if ty.isFloat then .single .f0 else if ty.isWide then .pair .eax .edx else .single .eax

def returnValue (select : Selector) (id : NodeId) : Gen Unit := do
  let ty := (← node id).ty
  if ty = .void then return
  let cls := ty.valueClass
  let target := returnOperand ty
  let v ← select id (SelectionTable.move.srcFormats .reg cls)
  if v = target then return
  let v ← if v.regs.any target.regs.contains then toMemory id v else pure v
  hold v
  target.regs.forM free
  release v
  moveTo cls target v

def selectZeroFill (select : Selector) (addr : NodeId) (bytes : Nat) : Gen Unit := do
  let a ← derefAddress (← select addr pointerFormats)
  emit' { op := .zerofill, ty := .blk, dst := some (.ind a), bytes }

end CBackend.Gen
