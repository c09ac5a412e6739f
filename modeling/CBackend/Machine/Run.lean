import CBackend.Compile
import CBackend.Machine.Execute

/-!
Running compiled functions. Functions have addresses, so a direct call, a call through a pointer and
a call of a host function are one thing. A host function takes part in a world of its own, which is
carried through the run. The number of steps is bounded over the life of a machine.
-/

namespace CBackend

/-- The arguments of a host call, read from the stack. -/
structure HostArgs where
  memory : Memory
  sp : Nat

namespace HostArgs

def bytes (a : HostArgs) (slot length : Nat) : List Byte :=
  let start := a.sp + 4 * slot
  if Memory.inside start length then a.memory.read start length else List.replicate length 0

def word (a : HostArgs) (slot : Nat) : BitVec 32 := .ofNat 32 (ofBytes (a.bytes slot 4))

def int (a : HostArgs) (slot : Nat) : Int := (a.word slot).toInt

def double (a : HostArgs) (slot : Nat) : Double := ⟨.ofNat 64 (ofBytes (a.bytes slot 8))⟩

end HostArgs

/-- A host function in a world `W`. -/
abbrev HostFunction (W : Type) := HostArgs → W → Value × W

structure LoadedFunction where
  code : Array Instr
  labels : List (Symbol × Nat)
  ret : CType
  params : List Symbol
  deriving Inhabited

namespace LoadedFunction

def labelPlaces (code : List Instr) : List (Symbol × Nat) :=
  (code.zipIdx.filterMap fun (i, pos) =>
    if i.op = .label then i.target.map fun t => (t, pos) else none).reverse

def ofCompiled (f : CompiledFunction) : LoadedFunction where
  code := f.instrs.toArray
  labels := labelPlaces f.instrs
  ret := f.ret
  params := f.params

end LoadedFunction

structure Machine (W : Type) where
  layout : Layout
  cpu : Cpu
  functions : List (Symbol × LoadedFunction)
  hosts : List (Symbol × HostFunction W)
  world : W
  stepLimit : Nat
  steps : Nat

/-- Where a run is: the function, the next instruction and the places to return to. -/
structure Control where
  function : Symbol
  pc : Nat
  callers : List (Symbol × Nat)
  deriving DecidableEq, Repr

namespace Machine

variable {W : Type}

def defaultStepLimit : Nat := 1000000

/-- What a call pushes for its return address. -/
def returnToken : BitVec 32 := 0xFFFFFFF0

def init (symbols : SymbolTable) (world : W) : Machine W where
  layout := .ofSymbols symbols
  cpu := .init
  functions := []
  hosts := []
  world
  stepLimit := defaultStepLimit
  steps := 0

def withStepLimit (m : Machine W) (limit : Nat) : Machine W := { m with stepLimit := limit }

def load (m : Machine W) (f : CompiledFunction) : Machine W :=
  { m with functions := (f.name, .ofCompiled f) :: m.functions }

/-- Binds a function symbol to a host function, which goes before a loaded one. -/
def host (m : Machine W) (sym : Symbol) (f : HostFunction W) : Machine W :=
  { m with hosts := (sym, f) :: m.hosts }

def function? (m : Machine W) (sym : Symbol) : Option LoadedFunction := m.functions.lookup sym

def host? (m : Machine W) (sym : Symbol) : Option (HostFunction W) := m.hosts.lookup sym

def callee? (m : Machine W) (address : Nat) : Option Symbol :=
  let sym : Symbol := ⟨address - Layout.functionBase⟩
  if Layout.functionAddress sym = address && ((m.host? sym).isSome || (m.function? sym).isSome)
  then some sym else none

end Machine

/-- Steps of a machine; what a failing step has done stays done. -/
abbrev RunM (W : Type) := EStateM MachineError (Machine W)

namespace RunM

variable {W : Type}

def onCpu {α : Type} (step : Exec α) : RunM W α := fun m =>
  match step m.cpu with
  | .ok a cpu => .ok a { m with cpu }
  | .error e cpu => .error e { m with cpu }

def fetch (c : Control) : RunM W Instr := do
  let m ← get
  match (m.function? c.function).bind (·.code[c.pc]?) with
  | some i => return i
  | none => throw (.malformed (.ranOffEnd (m.layout.symbols.name c.function)))

def jumpTarget (c : Control) (i : Instr) : RunM W Nat := do
  match i.target with
  | none => throw (.malformed .jumpWithoutTarget)
  | some target =>
    let m ← get
    match (m.function? c.function).bind (·.labels.lookup target) with
    | some pc => return pc
    | none => throw (.undefinedLabel (m.layout.symbols.name target))

def returnFromHost (v : Value) : Exec Unit :=
  match v with
  | .int w => do
    Exec.setGeneral .eax (w.setWidth 32)
    Exec.setGeneral .edx ((w >>> 32).setWidth 32)
  | .float d => modify fun c => { c with fp := c.fp.set 0 d Nat.zero_lt_two }
  | .void => pure ()

def callHost (f : HostFunction W) : RunM W Unit := do
  let m ← get
  let sp ← onCpu (Exec.readGeneral .esp)
  let (v, world) := f ⟨m.cpu.memory, sp.toNat⟩ m.world
  modify fun m => { m with world }
  onCpu (returnFromHost v)

/-- Calls what a source operand points to; `c` is already behind the call. -/
def callThrough (c : Control) (i : Instr) : RunM W Control := do
  let m ← get
  let v ← onCpu (Exec.readOperand m.layout i.src .u32)
  let address := (v.toWord.setWidth 32).toNat
  match m.callee? address with
  | none => throw (.unknownFunction address)
  | some callee =>
    match m.host? callee with
    | some f =>
      callHost f
      return c
    | none =>
      onCpu (Exec.pushWord Machine.returnToken)
      return ⟨callee, 0, (c.function, c.pc) :: c.callers⟩

/-- Executes one instruction; none once the outermost function has returned. -/
def step (c : Control) : RunM W (Option Control) := do
  let i ← fetch c
  let c := { c with pc := c.pc + 1 }
  match i.op with
  | .ret =>
    let _ ← onCpu Exec.popWord
    match c.callers with
    | (function, pc) :: callers => return some ⟨function, pc, callers⟩
    | [] => return none
  | .jmp => return some { c with pc := ← jumpTarget c i }
  | .jcc cond =>
    if cond.test (← get).cpu.flags then return some { c with pc := ← jumpTarget c i }
    else return some c
  | .call | .callind => return some (← callThrough c i)
  | _ =>
    onCpu (Exec.execute (← get).layout i)
    return some c

def countStep : RunM W Unit := modify fun m => { m with steps := m.steps + 1 }

/-- Runs until the outermost function returns, for at most `fuel` steps; the attempt at one more
is counted too. -/
def run : (fuel : Nat) → Control → RunM W Unit
  | 0, _ => do
    countStep
    throw (.stepLimit (← get).stepLimit)
  | fuel + 1, c => do
    countStep
    match ← step c with
    | some c => run fuel c
    | none => return

def pushArgs (symbols : SymbolTable) : List (Symbol × Value) → Exec Unit
  | [] => pure ()
  | (param, v) :: rest => do
    pushArgs symbols rest
    let ty := symbols.ty param
    Exec.pushValue v ty.valueClass (roundToSlot ty.size)

/-- Prepares registers and stack for a call from outside; returns the address of the buffer for a
struct result. -/
def prepareCall (symbols : SymbolTable) (ret : CType) (args : List (Symbol × Value)) :
    Exec Nat := do
  modify fun c => { c with gp := Vector.replicate 8 0 }
  Exec.setGeneral .esp (.ofNat 32 Memory.size)
  if ret.isStruct then
    let out ← Exec.lowerStack (roundToSlot ret.size)
    pushArgs symbols args
    Exec.pushValue (.ofNat out) .u32 4
    Exec.pushWord Machine.returnToken
    return out
  else
    pushArgs symbols args
    Exec.pushWord Machine.returnToken
    return 0

/-- The result of a function of a type; for a struct the address of its buffer. -/
def result (c : Cpu) (ret : CType) (out : Nat) : Value :=
  if ret = .void then .void
  else if ret.isStruct then .ofNat out
  else if ret.isFloat then .float ((c.fp.get ⟨0, by decide⟩).narrow ret.valueClass)
  else if ret.isWide then .int (c.gp.get ⟨1, by decide⟩ ++ c.gp.get ⟨0, by decide⟩)
  else .int (Word.extend ((c.gp.get ⟨0, by decide⟩).setWidth 64) ret.valueClass)

/-- Calls a loaded function with arguments in source order. -/
def call (sym : Symbol) (args : List Value) : RunM W Value := do
  let m ← get
  match m.function? sym with
  | none => throw (.notLoaded (m.layout.symbols.name sym))
  | some f =>
    if f.ret.isStruct && f.params.isEmpty then throw (.aborted .missingOutput)
    let params := if f.ret.isStruct then f.params.tail else f.params
    if params.length ≠ args.length then throw (.argCount params.length args.length)
    let out ← onCpu (prepareCall m.layout.symbols f.ret (params.zip args))
    run (m.stepLimit - m.steps) ⟨sym, 0, []⟩
    return result (← get).cpu f.ret out

def readGlobal (sym : Symbol) : RunM W Value := do
  let l := (← get).layout
  onCpu do
    let a ← Exec.ofExcept (l.globalAddress sym)
    Exec.readMemory a (l.symbols.ty sym).valueClass

def writeGlobal (sym : Symbol) (v : Value) : RunM W Unit := do
  let l := (← get).layout
  onCpu do
    let a ← Exec.ofExcept (l.globalAddress sym)
    Exec.writeMemory a (l.symbols.ty sym).valueClass v

def readBytes (address length : Nat) : RunM W (List Byte) := onCpu (Exec.readBytes address length)

end RunM

end CBackend
