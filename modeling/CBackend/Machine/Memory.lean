/-!
The memory of the reference machine: 64 KiB of bytes, zero at first. It is kept as a tree that
branches on the bits of an address, lowest bit first, so that a fresh memory is one leaf and a store
touches one path.
-/

namespace CBackend

abbrev Byte := BitVec 8

/-- A tree of bytes over addresses. -/
inductive ByteTree where
  | zeros
  | byte (b : Byte)
  | fork (even odd : ByteTree)
  deriving DecidableEq, Repr, Inhabited

namespace ByteTree

def get : ByteTree → Nat → Byte
  | zeros, _ => 0
  | byte b, _ => b
  | fork even odd, a => if a % 2 = 0 then even.get (a / 2) else odd.get (a / 2)

/-- The two subtrees below a node; a leaf stands for any depth of itself. -/
def halves : ByteTree → ByteTree × ByteTree
  | zeros => (zeros, zeros)
  | byte b => (byte b, byte b)
  | fork even odd => (even, odd)

def set : (depth : Nat) → ByteTree → Nat → Byte → ByteTree
  | 0, _, _, b => byte b
  | depth + 1, t, a, b =>
    let (even, odd) := t.halves
    if a % 2 = 0 then fork (set depth even (a / 2) b) odd
    else fork even (set depth odd (a / 2) b)

theorem get_halves (t : ByteTree) (a : Nat) :
    t.get a = if a % 2 = 0 then t.halves.1.get (a / 2) else t.halves.2.get (a / 2) := by
  cases t <;> simp [get, halves]

theorem get_set_self (depth : Nat) (t : ByteTree) (a : Nat) (b : Byte) :
    (set depth t a b).get a = b := by
  induction depth generalizing t a with
  | zero => rfl
  | succ depth ih =>
    simp only [set]
    by_cases even : a % 2 = 0 <;> simp [even, get, ih]

theorem get_set_other (depth : Nat) (t : ByteTree) (a c : Nat) (b : Byte)
    (apart : a % Nat.pow 2 depth ≠ c % Nat.pow 2 depth) : (set depth t a b).get c = t.get c := by
  induction depth generalizing t a c with
  | zero => simp [Nat.mod_one] at apart
  | succ depth ih =>
    rw [get_halves t c]
    have split (n : Nat) :
        n % Nat.pow 2 (depth + 1) = n % 2 + 2 * (n / 2 % Nat.pow 2 depth) := by
      change n % (Nat.pow 2 depth * 2) = _
      rw [Nat.mul_comm, Nat.mod_mul]
    rw [split a, split c] at apart
    simp only [set]
    by_cases evenA : a % 2 = 0 <;> by_cases evenC : c % 2 = 0
    · simp only [evenA, evenC, if_true, get]
      exact ih _ _ _ (by omega)
    · simp [evenA, evenC, get]
    · simp [evenA, evenC, get]
    · simp only [evenA, evenC, if_false, get]
      exact ih _ _ _ (by omega)

end ByteTree

structure Memory where
  bytes : ByteTree := .zeros
  deriving DecidableEq, Repr, Inhabited

namespace Memory

def addressBits : Nat := 16

def size : Nat := Nat.pow 2 addressBits

def inside (address length : Nat) : Bool := decide (address + length ≤ size)

def get (m : Memory) (address : Nat) : Byte := m.bytes.get address

def set (m : Memory) (address : Nat) (b : Byte) : Memory := ⟨m.bytes.set addressBits address b⟩

def read (m : Memory) (address : Nat) : (length : Nat) → List Byte
  | 0 => []
  | length + 1 => m.get address :: m.read (address + 1) length

def write (m : Memory) (address : Nat) : List Byte → Memory
  | [] => m
  | b :: rest => (m.set address b).write (address + 1) rest

@[simp] theorem get_set_self (m : Memory) (a : Nat) (b : Byte) : (m.set a b).get a = b :=
  ByteTree.get_set_self ..

theorem get_set_other (m : Memory) {a c : Nat} (b : Byte) (insideA : a < size) (insideC : c < size)
    (apart : a ≠ c) : (m.set a b).get c = m.get c := by
  apply ByteTree.get_set_other
  change a % size ≠ c % size
  rwa [Nat.mod_eq_of_lt insideA, Nat.mod_eq_of_lt insideC]

@[simp] theorem length_read (m : Memory) (a n : Nat) : (m.read a n).length = n := by
  induction n generalizing a with
  | zero => rfl
  | succ n ih => simp [read, ih]

end Memory

/-- The number a list of bytes stands for, the lowest byte first. -/
def ofBytes : List Byte → Nat
  | [] => 0
  | b :: rest => b.toNat + 256 * ofBytes rest

def toBytes : (width : Nat) → Nat → List Byte
  | 0, _ => []
  | width + 1, n => BitVec.ofNat 8 n :: toBytes width (n / 256)

@[simp] theorem length_toBytes (width n : Nat) : (toBytes width n).length = width := by
  induction width generalizing n with
  | zero => rfl
  | succ width ih => simp [toBytes, ih]

theorem ofBytes_toBytes (width n : Nat) : ofBytes (toBytes width n) = n % Nat.pow 256 width := by
  induction width generalizing n with
  | zero => simp [toBytes, ofBytes, Nat.mod_one]
  | succ width ih =>
    change _ = n % (Nat.pow 256 width * 256)
    rw [toBytes, ofBytes, ih, Nat.mul_comm (Nat.pow 256 width), Nat.mod_mul]
    simp

end CBackend
