import CBackend.SymbolTable
import CBackend.Tree

/-!
Building trees. The builder numbers the nodes, enters the constants in the symbol table and works
out the type of each expression from its parts.
-/

namespace CBackend

structure TreeBuilder where
  symbols : SymbolTable := {}
  expressions : Nat := 0
  statements : Nat := 0
  deriving Inhabited

/-- Bytes of storage that one tree node is charged with. -/
def treeNodeBytes : Nat := 64

def TreeBuilder.bytesHeld (b : TreeBuilder) : Nat :=
  (b.expressions + b.statements) * treeNodeBytes

abbrev Build := StateM TreeBuilder

namespace Build

def onSymbols {α : Type} (step : SymbolTable → α × SymbolTable) : Build α :=
  modifyGet fun b => let (a, symbols) := step b.symbols; (a, { b with symbols })

def tag (ty : CType) : Build NodeTag :=
  modifyGet fun b => (⟨b.expressions, ty⟩, { b with expressions := b.expressions + 1 })

def intOf (value : Int) (ty : CType) : Build Expr := do
  let sym ← onSymbols (·.intConst value ty)
  return .const (← tag ty) sym

def int (value : Int) : Build Expr := intOf value .int

def float (value : Double) : Build Expr := do
  let sym ← onSymbols (·.floatConst value .double)
  return .const (← tag .double) sym

def addr (sym : Symbol) : Build Expr := return .addr (← tag .pointer) sym

def var (sym : Symbol) : Build Expr := do
  let ty := (← get).symbols.ty sym
  let address ← addr sym
  return .deref (← tag ty) address

def deref (address : Expr) (ty : CType) : Build Expr := return .deref (← tag ty) address

def unary (op : UnaryOp) (operand : Expr) : Build Expr :=
  return .unary (← tag (if op = .not then .int else operand.ty)) op operand

/-- Comparisons and `&&`, `||` yield `int`, other operators the type of their left side. -/
def binary (op : BinaryOp) (lhs rhs : Expr) : Build Expr :=
  return .binary (← tag (if op.isRelational || op.isLogical then .int else lhs.ty)) op lhs rhs

/-- Assignment to a dereferenced address, or through an address. -/
def assign (target value : Expr) : Build Expr :=
  match target with
  | .deref t address => return .assign (← tag t.ty) address value
  | _ => return .assign (← tag value.ty) target value

def cond (test then' else' : Expr) : Build Expr := return .cond (← tag then'.ty) test then' else'

def call (callee : Expr) (args : List Expr) (ret : CType) : Build Expr :=
  return .call (← tag ret) callee args

def callFunction (function : Symbol) (args : List Expr) : Build Expr := do
  let ret := (← get).symbols.ty function
  let callee ← addr function
  call callee args ret

def cast (value : Expr) (ty : CType) : Build Expr := return .cast (← tag ty) value

def comma (first second : Expr) : Build Expr := return .comma (← tag second.ty) first second

def stmt (s : Stmt) : Build Stmt :=
  modifyGet fun b => (s, { b with statements := b.statements + 1 })

/-- A function; one that returns a struct gets a hidden output parameter. -/
def function (name : Symbol) (params : List Symbol) (body : Stmt) : Build FunctionDef := do
  let ret := (← get).symbols.ty name
  let output ← if ret.isStruct then some <$> onSymbols (·.param ".sret" .pointer) else pure none
  modifyGet fun b =>
    (⟨name, ret, params, output, body⟩, { b with statements := b.statements + 1 })

end Build

end CBackend
