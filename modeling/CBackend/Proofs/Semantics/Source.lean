import CBackend.Frame
import CBackend.Proofs.Lowering.Rules
import CBackend.Proofs.Semantics.Words
import CBackend.SymbolTable
import CBackend.Tree

/-!
What trees over integer types mean. A function acts on a world: a memory of any kind and the calls
made so far. How memory is read and written, where variables and functions are and what called
functions do is a setting that is left open, so a statement about every setting speaks of every
memory and of every behaviour of the callees. An execution ends, is stuck, or runs out of the fuel
that bounds the rounds of each loop.
-/

namespace CBackend

structure Call where
  callee : Word
  args : List Word
  deriving DecidableEq, Repr

structure World (M : Type) where
  memory : M
  calls : List Call
  deriving DecidableEq

inductive Halt where
  | stuck | timeout
  deriving DecidableEq

abbrev Action (M : Type) := StateT (World M) (Except Halt)

structure Setting (M : Type) where
  place : Symbol → BitVec 32
  load : CType → (address : Word) → M → Option Word
  store : CType → (address value : Word) → M → Option M
  clear : (address : Word) → (bytes : Nat) → M → Option M
  call : Call → World M → Option (Word × M)

namespace Action

variable {M : Type}

def ofOption {α : Type} (result : Option α) : Action M α := fun w =>
  match result with
  | some a => .ok (a, w)
  | none => .error .stuck

def onMemory (step : M → Option M) : Action M Unit := fun w =>
  match step w.memory with
  | some memory => .ok ((), { w with memory })
  | none => .error .stuck

end Action

namespace Setting

variable {M : Type} (σ : Setting M)

def address (sym : Symbol) : Word := (σ.place sym).setWidth 64

def read (ty : CType) (a : Word) : Action M Word := do
  let x ← Action.ofOption (σ.load ty a (← get).memory)
  return x.extend ty.valueClass

def write (ty : CType) (a x : Word) : Action M Unit := .onMemory (σ.store ty a x)

def fill (a : Word) (bytes : Nat) : Action M Unit := .onMemory (σ.clear a bytes)

def invoke (ty : CType) (c : Call) : Action M Word := do
  let (x, memory) ← Action.ofOption (σ.call c (← get))
  set (⟨memory, (← get).calls ++ [c]⟩ : World M)
  return x.extend ty.valueClass

end Setting

section

variable {M : Type} (σ : Setting M) (t : SymbolTable)

def SymbolTable.constant? (sym : Symbol) : Option Word :=
  match t.kind sym with
  | .intConst v => some (.ofInt 64 v)
  | _ => none

mutual

/-- Evaluates an expression: operands left to right, arguments last to first, then the callee. The
value of a `void` expression means nothing. -/
def Expr.eval : Expr → Action M Word
  | .const _ sym => .ofOption (t.constant? sym)
  | .addr _ sym => return σ.address sym
  | .deref tag a => do σ.read tag.ty (← a.eval)
  | .unary tag op x => do return op.word tag.ty.valueClass (← x.eval)
  | .binary tag op a b =>
    match op with
    | .logAnd => do
      if (← a.eval) = 0 then return Word.ofBool false
      return Word.ofBool ((← b.eval) != 0)
    | .logOr => do
      if (← a.eval) ≠ 0 then return Word.ofBool true
      return Word.ofBool ((← b.eval) != 0)
    | op => do
      let x ← a.eval
      let y ← b.eval
      if op.isRelational then return Word.ofBool (op.relates a.ty.valueClass x y)
      else .ofOption (op.word tag.ty.valueClass x y)
  | .assign tag a v => do
    let address ← a.eval
    let x ← v.eval
    σ.write tag.ty address x
    return x.extend tag.ty.valueClass
  | .cond _ c a b => do if (← c.eval) ≠ 0 then a.eval else b.eval
  | .call tag callee args => do
    let xs ← Expr.evalArgs args
    let f ← callee.eval
    σ.invoke tag.ty ⟨f, xs⟩
  | .cast tag x => do return (← x.eval).extend tag.ty.valueClass
  | .comma _ a b => do
    let _ ← a.eval
    b.eval

def Expr.evalArgs : List Expr → Action M (List Word)
  | [] => return []
  | e :: es => do
    let xs ← Expr.evalArgs es
    return (← e.eval) :: xs

end

/-- A local is cleared, if it is to be, before its initial value is computed. -/
def Decl.exec (d : Decl) : Action M Unit := do
  if d.zeroFill then σ.fill (σ.address d.sym) (roundToSlot (t.ty d.sym).size)
  if let some e := d.init then σ.write (t.ty d.sym) (σ.address d.sym) (← e.eval σ t)

end

inductive Flow where
  | normal | broke | continued
  | returned (value : Option Word)
  deriving DecidableEq

def Flow.value : Flow → Option Word
  | .returned value => value
  | _ => none

/-- Runs a body as long as a test holds, for less than `fuel` rounds. -/
def loop {M : Type} (test : Action M Word) (body : Action M Flow) : (fuel : Nat) → Action M Flow
  | 0 => throw .timeout
  | fuel + 1 => do
    if (← test) = 0 then return .normal
    match ← body with
    | .normal | .continued => loop test body fuel
    | .broke => return .normal
    | .returned value => return .returned value

section

variable {M : Type} (σ : Setting M) (t : SymbolTable) (fuel : Nat)

mutual

/-- Executes a statement, with less than `fuel` rounds of each loop at a time. -/
def Stmt.exec : Stmt → Action M Flow
  | .expr e => do
    let _ ← e.eval σ t
    return .normal
  | .when c body => do if (← c.eval σ t) ≠ 0 then body.exec else return .normal
  | .ifElse c a b => do if (← c.eval σ t) ≠ 0 then a.exec else b.exec
  | .while c body => loop (c.eval σ t) body.exec fuel
  | .block decls body => do
    decls.forM (Decl.exec σ t)
    Stmt.execAll body
  | .ret none => return .returned none
  | .ret (some e) => do return .returned (some (← e.eval σ t))
  | .break => return .broke
  | .continue => return .continued

def Stmt.execAll : List Stmt → Action M Flow
  | [] => return .normal
  | s :: ss => do
    match ← s.exec with
    | .normal => Stmt.execAll ss
    | flow => return flow

end

def FunctionDef.Ends (d : FunctionDef) (start : World M) (value : Option Word)
    (world : World M) : Prop :=
  ∃ fuel flow, d.body.exec σ t fuel start = .ok (flow, world) ∧ flow.value = value

end

end CBackend
