import CBackend.Frame
import CBackend.Machine.Error
import CBackend.Machine.Memory
import CBackend.Machine.Value
import CBackend.SymbolTable

/-!
Registers, flags and memory of the reference machine, and the access to operands. General registers
hold 32 bits; reading at a class narrows or extends, so a narrowing conversion needs no code.
-/

namespace CBackend

structure Cpu where
  gp : Vector (BitVec 32) 8
  fp : Vector Double 2
  flags : Option Ordering
  memory : Memory
  deriving DecidableEq

def Cpu.init : Cpu where
  gp := Vector.replicate 8 0
  fp := Vector.replicate 2 .zero
  flags := none
  memory := {}

instance : Inhabited Cpu := ⟨.init⟩

/-- Where the symbols of a program are in memory. -/
structure Layout where
  symbols : SymbolTable
  globals : List (Symbol × Nat)
  deriving Inhabited

namespace Layout

def globalBase : Nat := 0x100

/-- Functions have addresses far above the memory, one for each symbol. -/
def functionBase : Nat := 0xF0000000

def placeGlobals (symbols : SymbolTable) : (next : Nat) → List Symbol → List (Symbol × Nat)
  | _, [] => []
  | next, g :: rest =>
    (g, next) :: placeGlobals symbols (next + roundToSlot (symbols.ty g).size) rest

def ofSymbols (symbols : SymbolTable) : Layout :=
  ⟨symbols, placeGlobals symbols globalBase symbols.globals⟩

def globalAddress? (l : Layout) (sym : Symbol) : Option Nat := l.globals.lookup sym

def functionAddress (sym : Symbol) : Nat := functionBase + sym.index

def globalAddress (l : Layout) (sym : Symbol) : Except MachineError Nat :=
  match l.globalAddress? sym with
  | some a => .ok a
  | none => .error (.malformed (.notAGlobal (l.symbols.name sym)))

def symbolAddress (l : Layout) (sym : Symbol) : Except MachineError Nat :=
  match l.symbols.kind sym with
  | .global => l.globalAddress sym
  | .function => .ok (functionAddress sym)
  | _ => .error (.malformed (.noStaticAddress (l.symbols.name sym)))

end Layout

/-- Steps on registers and memory; what a failing step has done stays done. -/
abbrev Exec := EStateM MachineError Cpu

namespace Exec

def ofExcept {α : Type} : Except MachineError α → Exec α
  | .ok a => pure a
  | .error e => throw e

def malformed {α : Type} (cause : Malformed) : Exec α := throw (.malformed cause)

def readGeneral (r : Reg) : Exec (BitVec 32) := do
  match (← get).gp[r.number]? with
  | some w => return w
  | none => malformed (.notGeneral r)

def setGeneral (r : Reg) (w : BitVec 32) : Exec Unit :=
  modify fun c => { c with gp := c.gp.setIfInBounds r.number w }

def floatingSlot (r : Reg) : Exec (Fin 2) :=
  match r.number with
  | 8 => return 0
  | 9 => return 1
  | _ => malformed (.notFloating r)

def checkRange (address length : Nat) : Exec Unit :=
  if Memory.inside address length then pure () else throw (.badAddress address length)

def readBytes (address length : Nat) : Exec (List Byte) := do
  checkRange address length
  return (← get).memory.read address length

def writeBytes (address : Nat) (bytes : List Byte) : Exec Unit := do
  checkRange address bytes.length
  modify fun c => { c with memory := c.memory.write address bytes }

def decode (bytes : List Byte) : ValueClass → Value
  | .f32 => .float (Single.toDouble ⟨.ofNat 32 (ofBytes bytes)⟩)
  | .f64 => .float ⟨.ofNat 64 (ofBytes bytes)⟩
  | ty => .int (Word.extend (.ofNat 64 (ofBytes bytes)) ty)

def encode (v : Value) : ValueClass → List Byte
  | .f32 => toBytes 4 v.toDouble.toSingle.bits.toNat
  | .f64 => toBytes 8 v.toDouble.bits.toNat
  | ty => toBytes ty.width v.toWord.toNat

def readMemory (address : Nat) (ty : ValueClass) : Exec Value := do
  if ty.width = 0 then malformed (.readOfClass ty)
  return decode (← readBytes address ty.width) ty

def writeMemory (address : Nat) (ty : ValueClass) (v : Value) : Exec Unit := do
  if ty.width = 0 then malformed (.writeOfClass ty)
  writeBytes address (encode v ty)

/-- Copies bytes as they were before the copy. -/
def copyBytes (target source length : Nat) : Exec Unit := do
  let bytes ← readBytes source length
  writeBytes target bytes

def clearBytes (address length : Nat) : Exec Unit := do
  checkRange address length
  modify fun c => { c with memory := c.memory.write address (List.replicate length 0) }

/-- The address an operand names, modulo 2^32. -/
def resolve (l : Layout) (a : Address) : Exec Nat := do
  let base ←
    match a.base with
    | some r => (fun w => (w.toNat : Int)) <$> readGeneral r
    | none => pure 0
  let sym ←
    match a.sym with
    | some s => (fun n => (n : Int)) <$> ofExcept (l.symbolAddress s)
    | none => pure 0
  return (BitVec.ofInt 32 (a.disp + base + sym)).toNat

/-- The word in a register or a pair. A single register read at a wide class is extended as the
class says. -/
def registerWord (lo : BitVec 32) (hi : Option (BitVec 32)) (ty : ValueClass) : Word :=
  match hi with
  | some hi => hi ++ lo
  | none => if ty = .i64 then lo.signExtend 64 else lo.setWidth 64

def readConstant (l : Layout) (sym : Symbol) (ty : ValueClass) : Exec Value :=
  match l.symbols.kind sym with
  | .intConst n =>
    return if ty.isFloat then .float (.ofInt n) else .int (Word.extend (.ofInt 64 n) ty)
  | .floatConst d => return if ty.isFloat then .float (d.narrow ty) else .ofInt d.toSigned
  | _ => .ofNat <$> ofExcept (l.symbolAddress sym)

def read (l : Layout) (op : Operand) (ty : ValueClass) : Exec Value := do
  match op with
  | .reg lo hi =>
    if ty.isFloat then
      let slot ← floatingSlot lo
      return .float (((← get).fp.get slot).narrow ty)
    else
      let low ← readGeneral lo
      let high ←
        match hi with
        | some hi => some <$> readGeneral hi
        | none => pure none
      return .int ((registerWord low high ty).extend ty)
  | .imm sym => readConstant l sym ty
  | .mem a => return .ofNat (← resolve l a)
  | .ind a => readMemory (← resolve l a) ty

def write (l : Layout) (op : Operand) (ty : ValueClass) (v : Value) : Exec Unit := do
  match op with
  | .reg lo hi =>
    if ty.isFloat then
      let slot ← floatingSlot lo
      modify fun c => { c with fp := c.fp.set slot (v.toDouble.narrow ty) slot.isLt }
    else
      let _ ← readGeneral lo
      let w := v.toWord
      setGeneral lo (w.setWidth 32)
      match hi with
      | some hi =>
        let _ ← readGeneral hi
        setGeneral hi ((w >>> 32).setWidth 32)
      | none => pure ()
  | .ind a => writeMemory (← resolve l a) ty v
  | op => malformed (.writeTo op)

/-- Takes bytes off the stack pointer, which must not fall below zero. -/
def lowerStack (bytes : Nat) : Exec Nat := do
  let sp := (← readGeneral .esp).toNat
  if sp < bytes then throw (.aborted .stackUnderrun)
  setGeneral .esp (.ofNat 32 (sp - bytes))
  return sp - bytes

/-- Pushes a value as `bytes` bytes, in its class or a whole slot if that is narrower. -/
def pushValue (v : Value) (ty : ValueClass) (bytes : Nat) : Exec Unit := do
  let sp := (← readGeneral .esp).toNat
  if sp < bytes then throw (.badAddress 0 bytes)
  setGeneral .esp (.ofNat 32 (sp - bytes))
  writeMemory (sp - bytes) ty.pushed v

def pushWord (w : BitVec 32) : Exec Unit := pushValue (.ofNat w.toNat) .u32 4

def popWord : Exec (BitVec 32) := do
  let sp := (← readGeneral .esp).toNat
  let v ← readMemory sp .u32
  setGeneral .esp (.ofNat 32 (sp + 4))
  return v.toWord.setWidth 32

end Exec

end CBackend
