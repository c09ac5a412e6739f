import CBackend.CType
import CBackend.Identifier
import CBackend.Operator

/-!
Linear code: the operators of a function in evaluation order, with control flow by labels and
jumps. An operator is evaluated where its code stands and its value is referred to by number.
-/

namespace CBackend

structure LinNode where
  op : Op
  ty : CType
  left : Option LinId := none
  right : Option LinId := none
  sym : Option Symbol := none
  aux : Int := 0
  deriving DecidableEq, Repr, Inhabited

namespace LinNode

def kids (n : LinNode) : List LinId := n.left.toList ++ n.right.toList

end LinNode

inductive Code where
  | arg (lin : LinId)
  | eval (lin : LinId)
  | jump (target : Symbol)
  | branch (cond : LinId) (target : Symbol)
  | label (label : Symbol)
  | blockEnter (level : Nat)
  | blockLeave (level : Nat)
  | declare (sym : Symbol)
  | ret (value : Option LinId)
  | zeroFill (addr : LinId) (bytes : Nat)
  | frameEnter
  | frameExit
  deriving DecidableEq, Repr, Inhabited

namespace Code

/-- Codes that end a block. -/
def isJump : Code → Bool
  | jump _ | branch .. | ret _ => true
  | _ => false

def isLabel : Code → Bool
  | label _ => true
  | _ => false

/-- Codes that only shape the frame. -/
def isStructural : Code → Bool
  | blockEnter _ | blockLeave _ | declare _ => true
  | _ => false

end Code

structure LinearFunction where
  name : Symbol
  ret : CType
  params : List Symbol
  codes : Array Code
  nodes : Array LinNode
  exit : Symbol
  deriving DecidableEq, Repr, Inhabited

namespace LinearFunction

def node (f : LinearFunction) (id : LinId) : LinNode := f.nodes.getD id.index default

def labelCount (f : LinearFunction) : Nat := f.codes.countP Code.isLabel

def jumpCount (f : LinearFunction) : Nat := f.codes.countP Code.isJump

end LinearFunction

end CBackend
