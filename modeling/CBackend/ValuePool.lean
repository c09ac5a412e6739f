import CBackend.CType
import CBackend.Operand
import CBackend.Operator

/-!
The pool of numbered values. Two computations with the same operator, type, symbol and operands get
one number as long as nothing in between forgets the first: a reset forgets all, a store forgets
the loads it may change, and a full table forgets everything before it takes the next entry. Nodes
themselves stay, so a value numbered before a reset can still be used after it.
-/

namespace CBackend

/-- What makes two computations the same. -/
structure ValueKey where
  op : Op
  ty : CType
  sym : Option Symbol
  left : Option NodeId
  right : Option NodeId
  deriving DecidableEq, Repr, Inhabited

namespace ValueKey

def leaf (op : Op) (ty : CType) (sym : Symbol) : ValueKey := ⟨op, ty, some sym, none, none⟩

def unary (op : Op) (ty : CType) (operand : NodeId) : ValueKey :=
  ⟨op, ty, none, some operand, none⟩

def binary (op : Op) (ty : CType) (left right : NodeId) (sym : Option Symbol) : ValueKey :=
  ⟨op, ty, sym, some left, some right⟩

def kids (k : ValueKey) : List NodeId := k.left.toList ++ k.right.toList

end ValueKey

structure ValueNode where
  key : ValueKey
  aux : Int := 0
  lastRef : Nat := 0
  pending : Nat := 0
  loc : Option Operand := none
  spill : Option Int := none
  generation : Nat := 0
  deriving DecidableEq, Repr, Inhabited

namespace ValueNode

def op (n : ValueNode) : Op := n.key.op

def ty (n : ValueNode) : CType := n.key.ty

/-- Whether a code from `seq` on may still need the value. -/
def isLiveAt (n : ValueNode) (seq : Nat) : Bool := decide (0 < n.pending ∧ seq ≤ n.lastRef)

end ValueNode

structure ValuePool where
  capacity : Nat
  nodes : Array ValueNode := #[]
  table : List (ValueKey × NodeId) := []
  generation : Nat := 0
  hits : Nat := 0
  misses : Nat := 0
  resets : Nat := 0
  deriving DecidableEq, Repr, Inhabited

namespace ValuePool

def defaultCapacity : Nat := 512

/-- A pool always has room for one entry. -/
def init (capacity : Nat) : ValuePool := { capacity := max capacity 1 }

def size (p : ValuePool) : Nat := p.nodes.size

def isEmpty (p : ValuePool) : Bool := p.nodes.isEmpty

def node (p : ValuePool) (id : NodeId) : ValueNode := p.nodes.getD id.index default

def modify (p : ValuePool) (id : NodeId) (f : ValueNode → ValueNode) : ValuePool :=
  { p with nodes := p.nodes.modify id.index f }

def lookup? (p : ValuePool) (key : ValueKey) : Option NodeId :=
  (p.table.find? fun entry => decide (entry.1 = key)).map Prod.snd

def push (p : ValuePool) (key : ValueKey) (aux : Int) : NodeId × ValuePool :=
  (⟨p.size⟩, { p with nodes := p.nodes.push { key, aux, generation := p.generation } })

/-- A node that is never unified with any other. -/
def fresh (p : ValuePool) (key : ValueKey) (aux : Int) : NodeId × ValuePool := p.push key aux

def reset (p : ValuePool) : ValuePool :=
  { p with table := [], generation := p.generation + 1, resets := p.resets + 1 }

/-- The number of a computation, issued at its first occurrence in a generation. -/
def intern (p : ValuePool) (key : ValueKey) : NodeId × ValuePool :=
  match p.lookup? key with
  | some id => (id, { p with hits := p.hits + 1 })
  | none =>
    let p := if p.capacity ≤ p.table.length then p.reset else p
    let (id, p) := { p with misses := p.misses + 1 }.push key 0
    (id, { p with table := (key, id) :: p.table })

/-- Whether a store to `sym` leaves a computation unchanged: all but the loads from `sym` and the
loads through addresses that are not known. -/
def survives (p : ValuePool) (sym : Symbol) (key : ValueKey) : Bool :=
  if key.op = .load then
    match key.left with
    | some a => (p.node a).op == .addr && (p.node a).key.sym != some sym
    | none => false
  else true

/-- Forgets the loads that a store to `sym` may have changed. -/
def invalidate (p : ValuePool) (sym : Symbol) : ValuePool :=
  { p with table := p.table.filter fun entry => p.survives sym entry.1 }

/-- Nodes that selection recomputes at every use unless they are in a register: leaves, loads and
integer conversions that do not widen. -/
def passesThrough (p : ValuePool) (id : NodeId) : Bool :=
  let n := p.node id
  match n.op with
  | .const | .addr | .load => true
  | .cvt =>
    match n.key.left with
    | some k =>
      let source := (p.node k).ty
      source.isInteger && n.ty.isInteger && decide (n.ty.size ≤ source.size)
    | none => false
  | _ => false

def clear (p : ValuePool) : ValuePool := { capacity := p.capacity }

end ValuePool

end CBackend
