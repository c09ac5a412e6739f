import CBackend.Frame
import CBackend.InstrList
import CBackend.Selection.Table
import CBackend.SymbolTable
import CBackend.ValuePool

/-!
The state of code generation for one function: the numbered values, the register file, the frame
and the instructions so far. It can be used for one function after another, each starting afresh;
only the symbol table is carried on.
-/

namespace CBackend

structure CompileOptions where
  prune : Bool := true
  poolCapacity : Nat := ValuePool.defaultCapacity
  deriving DecidableEq, Repr, Inhabited

structure FunctionStats where
  instructions : Nat := 0
  sharedValues : Nat := 0
  poolResets : Nat := 0
  spills : Nat := 0
  reloads : Nat := 0
  evictions : Nat := 0
  prunedBlocks : Nat := 0
  deriving DecidableEq, Repr, Inhabited

/-- An operand that waits, pinned, while the other operands of its instruction are selected. -/
structure HeldValue where
  node : NodeId
  operand : Operand
  demoted : Bool := false
  deriving DecidableEq, Repr, Inhabited

structure Generator where
  options : CompileOptions
  symbols : SymbolTable
  pool : ValuePool
  regs : RegisterFile
  frame : Frame
  code : InstrList
  seq : Nat
  stats : FunctionStats
  held : List HeldValue
  numbers : Array (Option NodeId)
  enter : Option InstrId
  deriving Inhabited

/-- Steps of code generation; what a failing step has done stays done. -/
abbrev Gen := EStateM CompileError Generator

namespace Generator

def init (options : CompileOptions) (symbols : SymbolTable) : Generator where
  options
  symbols
  pool := .init options.poolCapacity
  regs := .init
  frame := {}
  code := .empty
  seq := 0
  stats := {}
  held := []
  numbers := #[]
  enter := none

def reset (g : Generator) : Generator :=
  { g with
    pool := g.pool.clear
    regs := g.regs.reset
    frame := {}
    code := .empty
    seq := 0
    stats := {}
    held := []
    numbers := #[]
    enter := none }

end Generator

namespace Gen

def ofExcept {α : Type} : Except CompileError α → Gen α
  | .ok a => pure a
  | .error e => throw e

def node (id : NodeId) : Gen ValueNode := return (← get).pool.node id

def modifyNode (id : NodeId) (f : ValueNode → ValueNode) : Gen Unit :=
  modify fun g => { g with pool := g.pool.modify id f }

def modifyStats (f : FunctionStats → FunctionStats) : Gen Unit :=
  modify fun g => { g with stats := f g.stats }

def onRegs (step : RegisterFile → Except RegisterError RegisterFile) : Gen Unit := do
  match step (← get).regs with
  | .ok regs => modify fun g => { g with regs }
  | .error e => throw (.invariant (.register e))

def onSymbols {α : Type} (step : SymbolTable → α × SymbolTable) : Gen α :=
  modifyGet fun g => let (a, symbols) := step g.symbols; (a, { g with symbols })

def allocTemp (owner : NodeId) (size lastRef : Nat) : Gen Int :=
  modifyGet fun g =>
    let (offset, frame) := g.frame.allocTemp g.seq owner size lastRef
    (offset, { g with frame })

/-- Aborts if a counter of the frame has overflowed. -/
def checkFrame : Gen Unit := do
  if (← get).frame.overflowed then throw (.invariant (.aborted .frameOverflow))

def emit (instr : Instr) : Gen InstrId :=
  modifyGet fun g =>
    let (id, code) := g.code.append { instr with seq := g.seq }
    (id, { g with code, stats := { g.stats with instructions := g.stats.instructions + 1 } })

def emit' (instr : Instr) : Gen Unit := do
  let _ ← emit instr

/-- The opcode that moves between two formats. -/
def moveOpcode (dst src : Format) (ty : ValueClass) : Gen Opcode :=
  ofExcept (SelectionTable.move.lookup (SelectionKey.pack dst src ty))

end Gen

def slotOperand (offset : Int) : Operand := .ind (.based .ebp offset)

end CBackend
