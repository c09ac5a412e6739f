import CBackend.CType
import CBackend.Identifier
import CBackend.Operator

/-!
Type-checked trees. Every expression carries its type, names are bound to symbols and conversions
are explicit. A node has a number: two occurrences of one number are the same node with several
parents. A variable used as a value is a dereference of its address.
-/

namespace CBackend

/-- What every expression node carries. -/
structure NodeTag where
  number : Nat
  ty : CType
  deriving DecidableEq, Repr, Inhabited

inductive Expr where
  | const (tag : NodeTag) (sym : Symbol)
  | addr (tag : NodeTag) (sym : Symbol)
  | deref (tag : NodeTag) (address : Expr)
  | unary (tag : NodeTag) (op : UnaryOp) (operand : Expr)
  | binary (tag : NodeTag) (op : BinaryOp) (lhs rhs : Expr)
  | assign (tag : NodeTag) (address value : Expr)
  | cond (tag : NodeTag) (test then' else' : Expr)
  | call (tag : NodeTag) (callee : Expr) (args : List Expr)
  | cast (tag : NodeTag) (value : Expr)
  | comma (tag : NodeTag) (first second : Expr)
  deriving Repr, Inhabited

namespace Expr

def tag : Expr → NodeTag
  | const tag _ | addr tag _ | deref tag _ | unary tag .. | binary tag .. | assign tag ..
  | cond tag .. | call tag .. | cast tag _ | comma tag .. => tag

def ty (e : Expr) : CType := e.tag.ty

def number (e : Expr) : Nat := e.tag.number

end Expr

structure Decl where
  sym : Symbol
  init : Option Expr
  zeroFill : Bool
  deriving Repr, Inhabited

inductive Stmt where
  | expr (e : Expr)
  | when (test : Expr) (body : Stmt)
  | ifElse (test : Expr) (then' else' : Stmt)
  | while (test : Expr) (body : Stmt)
  | block (decls : List Decl) (body : List Stmt)
  | ret (value : Option Expr)
  | break
  | continue
  deriving Repr, Inhabited

structure FunctionDef where
  name : Symbol
  ret : CType
  params : List Symbol
  output : Option Symbol
  body : Stmt
  deriving Repr, Inhabited

end CBackend
