import CBackend.Instr
import CBackend.Machine.Cpu

/-!
What each instruction does to registers, flags and memory. Jumps, calls and returns change where
execution goes on and are left to the run.
-/

namespace CBackend

/-- Whether a condition holds of the flags; of unordered operands only inequality does. -/
def Cond.test (c : Cond) : Option Ordering → Bool
  | some o => c.holds o
  | none => c == .ne

inductive IntOp where
  | add | sub | mul | div | udiv | mod | umod | and | or | xor | shl | shr | sar
  deriving DecidableEq, Repr

namespace IntOp

/-- Division by zero is an error, and so is the one signed quotient that does not fit where
the operation is not meant to wrap. -/
def divide (quotient : Word → Word → Word) (wraps : Bool) (a b : Word) :
    Except MachineError Word :=
  if b = 0 then .error .divideByZero
  else if !wraps && a = .intMin 64 && b = -1 then .error (.aborted .quotientOverflow)
  else .ok (quotient a b)

def apply (op : IntOp) (ty : ValueClass) (a b : Word) : Except MachineError Word :=
  match op with
  | add => .ok (a + b)
  | sub => .ok (a - b)
  | mul => .ok (a * b)
  | div => divide .sdiv true a b
  | mod => divide .srem true a b
  | udiv => if ty = .u64 then divide .udiv true a b else divide .sdiv false a b
  | umod => if ty = .u64 then divide .umod true a b else divide .srem false a b
  | and => .ok (a &&& b)
  | or => .ok (a ||| b)
  | xor => .ok (a ^^^ b)
  | shl => .ok (a <<< (b.toNat % 64))
  | shr => .ok (a >>> (b.toNat % 64))
  | sar => .ok (a.sshiftRight (b.toNat % 64))

end IntOp

/-- The order of two words; unsigned at the widest unsigned class, where extension does not
decide. -/
def compareWords (ty : ValueClass) (a b : Word) : Ordering :=
  if ty = .u64 then compare a.toNat b.toNat else compare a.toInt b.toInt

namespace Exec

def operand : Option Operand → Exec Operand
  | some op => return op
  | none => malformed .missingOperand

def readOperand (l : Layout) (op : Option Operand) (ty : ValueClass) : Exec Value := do
  read l (← operand op) ty

def writeOperand (l : Layout) (op : Option Operand) (ty : ValueClass) (v : Value) : Exec Unit := do
  write l (← operand op) ty v

def intBinary (l : Layout) (i : Instr) (op : IntOp) : Exec Unit := do
  let dst ← operand i.dst
  let a ← read l dst i.ty
  let b ← readOperand l i.src i.ty
  let r ← ofExcept (op.apply i.ty a.toWord b.toWord)
  write l dst i.ty (.int r)

def floatBinary (l : Layout) (i : Instr) (op : Double → Double → Double) : Exec Unit := do
  let dst ← operand i.dst
  let a ← read l dst i.ty
  let b ← readOperand l i.src i.ty
  write l dst i.ty (.float (op a.toDouble b.toDouble))

def intUnary (l : Layout) (i : Instr) (op : Word → Word) : Exec Unit := do
  let dst ← operand i.dst
  let a ← read l dst i.ty
  write l dst i.ty (.int (op a.toWord))

/-- Reads the source at one class and writes what it is turned into at the class of the
instruction. -/
def convert (l : Layout) (i : Instr) (source : ValueClass) (f : Value → Value) : Exec Unit := do
  let v ← readOperand l i.src source
  writeOperand l i.dst i.ty (f v)

def setFlags (flags : Option Ordering) : Exec Unit := modify fun c => { c with flags }

def push (l : Layout) (i : Instr) : Exec Unit := do
  let src ← operand i.src
  if i.ty = .blk then
    match src with
    | .ind a =>
      let source ← resolve l a
      let target ← lowerStack i.bytes
      copyBytes target source i.bytes
    | _ => malformed .blockPushOfNonMemory
  else
    let v ← read l src i.ty
    pushValue v i.ty i.bytes

/-- Saves the frame pointer and reserves the frame. -/
def enterFrame (bytes : Nat) : Exec Unit := do
  pushWord (← readGeneral .ebp)
  setGeneral .ebp (← readGeneral .esp)
  let _ ← lowerStack bytes

def leaveFrame : Exec Unit := do
  setGeneral .esp (← readGeneral .ebp)
  setGeneral .ebp (← popWord)

def copy (l : Layout) (i : Instr) : Exec Unit := do
  let dst ← operand i.dst
  let src ← operand i.src
  match dst, src with
  | .ind target, .ind source =>
    let target ← resolve l target
    let source ← resolve l source
    copyBytes target source i.bytes
  | _, _ => malformed .copyOfNonMemory

def zeroFill (l : Layout) (i : Instr) : Exec Unit := do
  match ← operand i.dst with
  | .ind a => clearBytes (← resolve l a) i.bytes
  | _ => malformed .fillOfNonMemory

def lea (l : Layout) (i : Instr) : Exec Unit := do
  match ← operand i.src with
  | .mem a =>
    let address ← resolve l a
    writeOperand l i.dst i.ty (.ofNat address)
  | _ => malformed .leaOfNonAddress

def execute (l : Layout) (i : Instr) : Exec Unit :=
  match i.op with
  | .mov | .fld | .fst => convert l i i.ty id
  | .lea => lea l i
  | .movsx => convert l i (.ofIntWidth i.bytes true) id
  | .movzx => convert l i (.ofIntWidth i.bytes false) id
  | .add => intBinary l i .add
  | .sub => intBinary l i .sub
  | .mul => intBinary l i .mul
  | .div => intBinary l i .div
  | .udiv => intBinary l i .udiv
  | .mod => intBinary l i .mod
  | .umod => intBinary l i .umod
  | .and => intBinary l i .and
  | .or => intBinary l i .or
  | .xor => intBinary l i .xor
  | .shl => intBinary l i .shl
  | .shr => intBinary l i .shr
  | .sar => intBinary l i .sar
  | .neg => intUnary l i (- ·)
  | .not => intUnary l i (~~~ ·)
  | .fadd => floatBinary l i .add
  | .fsub => floatBinary l i .sub
  | .fmul => floatBinary l i .mul
  | .fdiv => floatBinary l i .div
  | .fchs => do
    let dst ← operand i.dst
    let a ← read l dst i.ty
    write l dst i.ty (.float a.toDouble.neg)
  | .cmp => do
    let a ← readOperand l i.dst i.ty
    let b ← readOperand l i.src i.ty
    setFlags (some (compareWords i.ty a.toWord b.toWord))
  | .fcmp => do
    let a ← readOperand l i.dst i.ty
    let b ← readOperand l i.src i.ty
    setFlags (a.toDouble.compare? b.toDouble)
  | .set cond => do
    let holds := cond.test (← get).flags
    writeOperand l i.dst .i32 (.int (if holds then 1 else 0))
  | .push => push l i
  | .enter => enterFrame i.bytes
  | .leave => leaveFrame
  | .fild => convert l i (.ofIntWidth i.bytes true) fun v => .float (.ofInt v.toWord.toInt)
  | .ufild => convert l i .u64 fun v => .float (.ofInt v.toWord.toNat)
  | .fist => convert l i (.ofFloatWidth i.bytes) fun v => .ofInt v.toDouble.toSigned
  | .ufist => convert l i (.ofFloatWidth i.bytes) fun v => .ofInt v.toDouble.toUnsigned
  | .fcvt => convert l i (.ofFloatWidth i.bytes) id
  | .copy => copy l i
  | .zerofill => zeroFill l i
  | .label | .jmp | .jcc _ | .call | .callind | .ret => pure ()

end Exec

end CBackend
