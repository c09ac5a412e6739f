/-!
Physical registers and sets of them. Six general registers, the frame and stack pointer and two
floating registers are numbered from zero; a number beyond them names no register.
-/

namespace CBackend

structure Reg where
  number : Nat
  deriving DecidableEq, Repr, Inhabited

namespace Reg

def eax : Reg := ⟨0⟩
def edx : Reg := ⟨1⟩
def ecx : Reg := ⟨2⟩
def ebx : Reg := ⟨3⟩
def esi : Reg := ⟨4⟩
def edi : Reg := ⟨5⟩
def ebp : Reg := ⟨6⟩
def esp : Reg := ⟨7⟩
def f0 : Reg := ⟨8⟩
def f1 : Reg := ⟨9⟩

def count : Nat := 10

def all : List Reg := (List.range count).map Reg.mk

def name (r : Reg) : String :=
  match r.number with
  | 0 => "eax"
  | 1 => "edx"
  | 2 => "ecx"
  | 3 => "ebx"
  | 4 => "esi"
  | 5 => "edi"
  | 6 => "ebp"
  | 7 => "esp"
  | 8 => "f0"
  | 9 => "f1"
  | _ => "?"

def diagnostic (r : Reg) : String := toString r.number

theorem mem_all {r : Reg} : r ∈ all ↔ r.number < count := by
  cases r; simp [all]

end Reg

/-- A set of registers. -/
structure RegMask where
  bits : BitVec 32
  deriving DecidableEq, Repr, Inhabited

namespace RegMask

def empty : RegMask := ⟨0⟩

def general : RegMask := ⟨0xff⟩

def floating : RegMask := ⟨0x300⟩

def of (r : Reg) : RegMask := ⟨1#32 <<< r.number⟩

def contains (m : RegMask) (r : Reg) : Bool := m.bits.getLsbD r.number

def union (m n : RegMask) : RegMask := ⟨m.bits ||| n.bits⟩

def insert (m : RegMask) (r : Reg) : RegMask := m.union (of r)

def erase (m : RegMask) (r : Reg) : RegMask := ⟨m.bits &&& ~~~(of r).bits⟩

def isEmpty (m : RegMask) : Bool := m.bits == 0

def count (m : RegMask) : Nat := (List.range 32).countP m.bits.getLsbD

/-- The registers of a set in ascending order. -/
def toList (m : RegMask) : List Reg := Reg.all.filter m.contains

def ofList (rs : List Reg) : RegMask := rs.foldl insert empty

def diagnostic (m : RegMask) : String := s!"RegMask({m.bits.toNat})"

theorem contains_of (r s : Reg) (small : r.number < 32) :
    (of r).contains s = decide (s = r) := by
  obtain ⟨r⟩ := r
  obtain ⟨s⟩ := s
  simp only [contains, of, BitVec.getLsbD_shiftLeft, BitVec.getLsbD_one, Reg.mk.injEq] at small ⊢
  by_cases same : s = r
  · subst same; simp [small]
  · have apart : ¬(¬ s < r ∧ s - r = 0) := by omega
    simp only [same, decide_false]
    by_cases below : s < r
    · simp [below]
    · have : s - r ≠ 0 := fun h => apart ⟨below, h⟩
      simp [this]

theorem contains_union (m n : RegMask) (r : Reg) :
    (m.union n).contains r = (m.contains r || n.contains r) := by
  simp [contains, union]

theorem contains_insert (m : RegMask) (r s : Reg) (small : r.number < 32) :
    (m.insert r).contains s = (m.contains s || decide (s = r)) := by
  rw [insert, contains_union, contains_of r s small]

end RegMask

end CBackend
