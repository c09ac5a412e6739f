import CBackend.Instr

/-!
An ordered list of instructions that keeps the identity of each one. Cells know their neighbours,
so an instruction can be inserted beside another or removed without moving the rest; a removed
cell is given out again, the last one removed first.
-/

namespace CBackend

structure InstrId where
  index : Nat
  deriving DecidableEq, Repr, Inhabited

structure InstrCell where
  instr : Option Instr
  prev : Option InstrId := none
  next : Option InstrId := none
  deriving DecidableEq, Repr, Inhabited

structure InstrList where
  cells : Array InstrCell := #[]
  head : Option InstrId := none
  tail : Option InstrId := none
  free : List InstrId := []
  size : Nat := 0
  deriving DecidableEq, Repr, Inhabited

namespace InstrList

def empty : InstrList := {}

def isEmpty (l : InstrList) : Bool := l.size == 0

def cell? (l : InstrList) (id : InstrId) : Option InstrCell := l.cells[id.index]?

def get? (l : InstrList) (id : InstrId) : Option Instr := (l.cell? id).bind InstrCell.instr

def modifyCell (l : InstrList) (id : InstrId) (f : InstrCell → InstrCell) : InstrList :=
  { l with cells := l.cells.modify id.index f }

def modify (l : InstrList) (id : InstrId) (f : Instr → Instr) : InstrList :=
  l.modifyCell id fun c => { c with instr := c.instr.map f }

/-- Gives out a cell that has no neighbours yet. -/
def alloc (l : InstrList) (instr : Instr) : InstrId × InstrList :=
  match l.free with
  | id :: free =>
    (id, { l with
      cells := l.cells.setIfInBounds id.index { instr := some instr }
      free
      size := l.size + 1 })
  | [] =>
    (⟨l.cells.size⟩, { l with cells := l.cells.push { instr := some instr }, size := l.size + 1 })

/-- Makes `next` follow `prev`, where none stands for the end of the list on that side. -/
def join (l : InstrList) (prev next : Option InstrId) : InstrList :=
  let l :=
    match prev with
    | some p => l.modifyCell p fun c => { c with next }
    | none => { l with head := next }
  match next with
  | some n => l.modifyCell n fun c => { c with prev }
  | none => { l with tail := prev }

def link (l : InstrList) (id : InstrId) (prev next : Option InstrId) : InstrList :=
  (l.join prev (some id)).join (some id) next

def append (l : InstrList) (instr : Instr) : InstrId × InstrList :=
  let (id, l) := l.alloc instr
  (id, l.link id l.tail none)

def insertBefore (l : InstrList) (at' : InstrId) (instr : Instr) : InstrId × InstrList :=
  let (id, l) := l.alloc instr
  (id, l.link id ((l.cell? at').bind InstrCell.prev) (some at'))

def insertAfter (l : InstrList) (at' : InstrId) (instr : Instr) : InstrId × InstrList :=
  let (id, l) := l.alloc instr
  (id, l.link id (some at') ((l.cell? at').bind InstrCell.next))

/-- Takes an instruction out; its neighbours close the gap. -/
def remove (l : InstrList) (id : InstrId) : Option Instr × InstrList :=
  match l.cell? id with
  | some ⟨some instr, prev, next⟩ =>
    let l := l.modifyCell id fun c => { c with instr := none }
    let l := l.join prev next
    (some instr, { l with free := id :: l.free, size := l.size - 1 })
  | _ => (none, l)

/-- Follows the cells from one on, at most `count` of them. -/
def follow (l : InstrList) (step : InstrCell → Option InstrId) :
    (count : Nat) → Option InstrId → List InstrId
  | 0, _ => []
  | _, none => []
  | count + 1, some id => id :: l.follow step count ((l.cell? id).bind step)

def ids (l : InstrList) : List InstrId := l.follow InstrCell.next l.cells.size l.head

def idsReversed (l : InstrList) : List InstrId := l.follow InstrCell.prev l.cells.size l.tail

def toList (l : InstrList) : List Instr := l.ids.filterMap l.get?

end InstrList

end CBackend
