import CBackend.CType
import CBackend.Operand
import CBackend.Operator
import CBackend.RegisterFile

/-!
Why a function cannot be compiled. None of these is the fault of the program being compiled: trees
arrive accepted by the type checker. Aborts are kept apart from the errors: they are the end of the
compiler itself, and nothing is reported.
-/

namespace CBackend

/-- States in which the compiler cannot go on at all: a counter has left its range, or linear code
evaluates a node that it does not have. -/
inductive CompileAbort where
  | frameOverflow
  | argumentOverflow
  | danglingNode (lin : LinId)
  deriving DecidableEq, Repr

/-- Internal agreements that turned out broken. -/
inductive Violation where
  | noBlockMarker (level : Nat)
  | unclosedBlock (level inner : Nat)
  | branchWithoutTarget
  | undefinedLabel (label : Symbol)
  | malformedNode (op : Op)
  | neverNumbered (lin : LinId)
  | notAStatement (op : Op)
  | effectNotEvaluated (op : Op) (node : NodeId)
  | missingOperand (node : NodeId)
  | needsTwoOperands (node : NodeId)
  | leafWithoutSymbol
  | slotUnassigned (name : String)
  | branchOnNonComparison
  | structInRegisters
  | notAnAddress (operand : Operand)
  | noOperatorTable (op : Op)
  | spillOutsideRegister (node : NodeId)
  | nothingHeld
  | register (error : RegisterError)
  | cyclicValue (node : NodeId)
  | aborted (cause : CompileAbort)
  deriving DecidableEq, Repr

/-- Trees the back end does not lower. -/
inductive Unsupported where
  | nesting (limit : Nat)
  | structCondition
  | breakOutsideLoop
  | continueOutsideLoop
  | conversion (source target : CType)
  deriving DecidableEq, Repr

inductive CompileError where
  | resourceExhausted (bytes : Nat)
  | selectionMiss (table : String) (key : Nat)
  | invariant (cause : Violation)
  | unsupported (what : Unsupported)
  deriving DecidableEq, Repr

def CompileAbort.message : CompileAbort → String
  | frameOverflow => "frame counter out of range"
  | argumentOverflow => "argument bytes out of range"
  | danglingNode lin => s!"no linear node {lin.index}"

def Violation.message : Violation → String
  | noBlockMarker level => s!"no block marker for level {level}"
  | unclosedBlock level inner => s!"leaving level {level} across unclosed level {inner}"
  | branchWithoutTarget => "branch without any target"
  | undefinedLabel label => s!"jump to undefined label {label.display}"
  | malformedNode op => s!"malformed linear node {op.diagnostic}"
  | neverNumbered lin => s!"linear node {lin.index} was never numbered"
  | notAStatement op => s!"{op.diagnostic} selected as a statement"
  | effectNotEvaluated op node =>
    s!"{op.diagnostic} node {node.diagnostic} used before it was evaluated"
  | missingOperand node => s!"{node.diagnostic} is missing an operand"
  | needsTwoOperands node => s!"{node.diagnostic} needs two operands"
  | leafWithoutSymbol => "leaf without a symbol"
  | slotUnassigned name => s!"{name} used before its frame slot was assigned"
  | branchOnNonComparison => "branch on a non-comparison"
  | structInRegisters => "struct call result in registers"
  | notAnAddress operand => s!"{operand.diagnostic} cannot be used as an address"
  | noOperatorTable op => s!"no operator table for {op.diagnostic}"
  | spillOutsideRegister node => s!"spilling {node.diagnostic} which is not in a register"
  | nothingHeld => "take_held without a held value"
  | register error => error.message
  | cyclicValue node => s!"{node.diagnostic} is its own operand"
  | aborted cause => s!"aborted: {cause.message}"

def Unsupported.message : Unsupported → String
  | nesting limit => s!"expression nesting deeper than {limit}"
  | structCondition => "struct value used as a condition"
  | breakOutsideLoop => "break outside of a loop"
  | continueOutsideLoop => "continue outside of a loop"
  | conversion source target =>
    s!"conversion from {source.diagnostic} to {target.diagnostic}"

/-- Hexadecimal text with `0x` and at least `width` characters in all. -/
def hexText (width n : Nat) : String :=
  let digits := Nat.toDigits 16 n
  "0x" ++ String.ofList (List.replicate (width - 2 - digits.length) '0' ++ digits)

def CompileError.message : CompileError → String
  | resourceExhausted bytes => s!"memory limit exceeded: arena holds {bytes} bytes"
  | selectionMiss table key => s!"no {table} table entry for key {hexText 6 key}"
  | invariant cause => s!"internal invariant violated: {cause.message}"
  | unsupported what => s!"unsupported construct: {what.message}"

end CBackend
