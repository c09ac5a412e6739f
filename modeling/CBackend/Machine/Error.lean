import CBackend.CompileError

/-!
Why a run of the reference machine stops without a result.
-/

namespace CBackend

/-- Instructions and requests that make no sense. -/
inductive Malformed where
  | notAGlobal (name : String)
  | noStaticAddress (name : String)
  | ranOffEnd (name : String)
  | jumpWithoutTarget
  | missingOperand
  | leaOfNonAddress
  | blockPushOfNonMemory
  | copyOfNonMemory
  | fillOfNonMemory
  | notGeneral (r : Reg)
  | notFloating (r : Reg)
  | writeTo (operand : Operand)
  | readOfClass (ty : ValueClass)
  | writeOfClass (ty : ValueClass)
  deriving DecidableEq, Repr

/-- States in which the machine cannot go on at all. -/
inductive Abort where
  | stackUnderrun
  | missingOutput
  | quotientOverflow
  deriving DecidableEq, Repr

inductive MachineError where
  | badAddress (address length : Nat)
  | unknownFunction (address : Nat)
  | notLoaded (name : String)
  | undefinedLabel (name : String)
  | divideByZero
  | stepLimit (limit : Nat)
  | argCount (expected got : Nat)
  | malformed (cause : Malformed)
  | aborted (cause : Abort)
  deriving DecidableEq, Repr

def Malformed.message : Malformed → String
  | notAGlobal name => s!"{name} is not a global"
  | noStaticAddress name => s!"{name} has no static address"
  | ranOffEnd name => s!"ran off the end of {name}"
  | jumpWithoutTarget => "jump without a target"
  | missingOperand => "missing operand"
  | leaOfNonAddress => "lea of a non-address"
  | blockPushOfNonMemory => "block push of a non-memory operand"
  | copyOfNonMemory => "copy between non-memory operands"
  | fillOfNonMemory => "fill of a non-memory operand"
  | notGeneral r => s!"{r.diagnostic} is not a general register"
  | notFloating r => s!"{r.diagnostic} is not a floating register"
  | writeTo operand => s!"write to {operand.diagnostic}"
  | readOfClass ty => s!"memory read of class {ty.diagnostic}"
  | writeOfClass ty => s!"memory write of class {ty.diagnostic}"

def Abort.message : Abort → String
  | stackUnderrun => "stack pointer below zero"
  | missingOutput => "struct result without an output parameter"
  | quotientOverflow => "quotient out of range"

def MachineError.message : MachineError → String
  | badAddress address length =>
    s!"access of {length} bytes at {hexText 0 address} is outside memory"
  | unknownFunction address => s!"call of unknown function address {hexText 0 address}"
  | notLoaded name => s!"function {name} has not been loaded"
  | undefinedLabel name => s!"undefined label {name}"
  | divideByZero => "division by zero"
  | stepLimit limit => s!"step limit of {limit} instructions exceeded"
  | argCount expected got => s!"expected {expected} arguments, got {got}"
  | malformed cause => s!"malformed instruction: {cause.message}"
  | aborted cause => s!"aborted: {cause.message}"

end CBackend
