/-!
Operators: comparison conditions, the operators of trees and the operators of linear code and
numbered values.
-/

namespace CBackend

inductive Cond where
  | eq | ne | lt | le | gt | ge
  deriving DecidableEq, Repr, Inhabited

namespace Cond

def all : List Cond := [eq, ne, lt, le, gt, ge]

@[simp] theorem mem_all (c : Cond) : c ∈ all := by cases c <;> decide

/-- The condition that holds of an order exactly when the given one does not. -/
def negate : Cond → Cond
  | eq => ne
  | ne => eq
  | lt => ge
  | le => gt
  | gt => le
  | ge => lt

def holds : Cond → Ordering → Bool
  | eq, o => o == .eq
  | ne, o => o != .eq
  | lt, o => o == .lt
  | le, o => o != .gt
  | gt, o => o == .gt
  | ge, o => o != .lt

@[simp] theorem negate_negate (c : Cond) : c.negate.negate = c := by cases c <;> rfl

theorem holds_negate (c : Cond) (o : Ordering) : c.negate.holds o = !c.holds o := by
  cases c <;> cases o <;> rfl

def name : Cond → String
  | eq => "eq"
  | ne => "ne"
  | lt => "lt"
  | le => "le"
  | gt => "gt"
  | ge => "ge"

def diagnostic : Cond → String
  | eq => "Eq"
  | ne => "Ne"
  | lt => "Lt"
  | le => "Le"
  | gt => "Gt"
  | ge => "Ge"

end Cond

inductive UnaryOp where
  | neg | compl | not
  deriving DecidableEq, Repr, Inhabited

/-- Operators of linear code and of numbered values. A load reads through its first operand, an
assignment stores its second operand through the first, a call takes its callee first. -/
inductive Op where
  | const | addr | load | assign
  | add | sub | mul | div | mod | and | or | xor | shl | shr
  | neg | compl
  | cmp (cond : Cond)
  | cvt | call
  deriving DecidableEq, Repr, Inhabited

namespace Op

/-- Operators that run exactly where they stand and are never unified. -/
def hasSideEffect : Op → Bool
  | assign | call => true
  | _ => false

def isBinary : Op → Bool
  | add | sub | mul | div | mod | and | or | xor | shl | shr => true
  | _ => false

def diagnostic : Op → String
  | const => "Const"
  | addr => "Addr"
  | load => "Load"
  | assign => "Assign"
  | add => "Add"
  | sub => "Sub"
  | mul => "Mul"
  | div => "Div"
  | mod => "Mod"
  | and => "And"
  | or => "Or"
  | xor => "Xor"
  | shl => "Shl"
  | shr => "Shr"
  | neg => "Neg"
  | compl => "Compl"
  | cmp cond => s!"Cmp({cond.diagnostic})"
  | cvt => "Cvt"
  | call => "Call"

end Op

inductive BinaryOp where
  | add | sub | mul | div | mod | and | or | xor | shl | shr
  | eq | ne | lt | le | gt | ge
  | logAnd | logOr
  deriving DecidableEq, Repr, Inhabited

namespace BinaryOp

def cond? : BinaryOp → Option Cond
  | eq => some .eq
  | ne => some .ne
  | lt => some .lt
  | le => some .le
  | gt => some .gt
  | ge => some .ge
  | _ => none

def isRelational (op : BinaryOp) : Bool := op.cond?.isSome

def isLogical : BinaryOp → Bool
  | logAnd | logOr => true
  | _ => false

end BinaryOp

end CBackend
