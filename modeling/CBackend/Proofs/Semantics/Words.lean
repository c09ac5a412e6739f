import Mathlib
import CBackend.Machine.Execute
import CBackend.Operator

/-!
Integer arithmetic on words. A value of an integer class is the word that extends its bits, so an
operation computes on whole words and the result is brought back into the class. Division by zero
has no result.
-/

namespace CBackend

namespace CType

def least (ty : CType) : Int := if ty.isSigned then -2 ^ (8 * ty.size - 1) else 0

def bound (ty : CType) : Int := 2 ^ (8 * ty.size - if ty.isSigned then 1 else 0)

def holds (ty : CType) (v : Int) : Bool := decide (ty.least ≤ v ∧ v < ty.bound)

theorem range_of_holds {ty : CType} {v : Int} (inside : ty.holds v = true) :
    ty.least ≤ v ∧ v < ty.bound := of_decide_eq_true inside

end CType

namespace Word

theorem setWidth_signExtend (w : Word) {n : Nat} (narrow : n ≤ 64) :
    BitVec.setWidth n ((w.setWidth n).signExtend 64) = w.setWidth n := by
  ext i
  grind [BitVec.getLsbD_setWidth]

@[simp] theorem extend_extend (w : Word) (c : ValueClass) :
    Word.extend (w.extend c) c = w.extend c := by
  cases c with
  | i8 | i16 | i32 => simp only [extend, setWidth_signExtend, Nat.reduceLeDiff]
  | u8 | u16 | u32 => simp [extend]
  | _ => rfl

theorem extend_ofInt {ty : CType} {v : Int} (integer : ty.isInteger = true)
    (inside : ty.holds v = true) :
    Word.extend (.ofInt 64 v) ty.valueClass = .ofInt 64 v := by
  have range := CType.range_of_holds inside
  cases ty with
  | void | float | double | struct => simp [CType.isInteger] at integer
  | char | short | int =>
    simp [CType.least, CType.bound, CType.isSigned, CType.size] at range
    simp only [CType.valueClass, extend, BitVec.signExtend]
    congr 1
    simp only [BitVec.toInt_setWidth, BitVec.toNat_ofInt, Int.bmod_def]
    omega
  | uchar | ushort | uint | pointer =>
    simp [CType.least, CType.bound, CType.isSigned, CType.size] at range
    apply BitVec.eq_of_toNat_eq
    simp only [CType.valueClass, extend, BitVec.toNat_setWidth, BitVec.toNat_ofInt]
    omega
  | llong | ullong => rfl

theorem ofInt_eq_zero {ty : CType} {v : Int} (integer : ty.isInteger = true)
    (inside : ty.holds v = true) : BitVec.ofInt 64 v = 0 ↔ v = 0 := by
  have range := CType.range_of_holds inside
  constructor
  · intro zero
    have mod : (BitVec.ofInt 64 v).toNat = 0 := by rw [zero]; rfl
    rw [BitVec.toNat_ofInt] at mod
    cases ty <;> simp [CType.isInteger] at integer <;>
      simp [CType.least, CType.bound, CType.isSigned, CType.size] at range <;> omega
  · rintro rfl
    rfl

def ofBool (b : Bool) : Word := if b then 1 else 0

@[simp] theorem ofBool_eq_zero (b : Bool) : ofBool b = 0#64 ↔ b = false := by
  cases b <;> decide

theorem extend_ofBool (b : Bool) : Word.extend (ofBool b) .i32 = ofBool b := by
  cases b <;> decide

def divide (c : ValueClass) (signed unsigned : Word → Word → Word) (a b : Word) : Option Word :=
  if b = 0 then none else some (if c.isSigned then signed a b else unsigned a b)

def shiftRight (c : ValueClass) (a : Word) (n : Nat) : Word :=
  if c.isSigned then a.sshiftRight n else a >>> n

end Word

def UnaryOp.word (op : UnaryOp) (c : ValueClass) (a : Word) : Word :=
  match op with
  | .neg => (-a).extend c
  | .compl => (~~~a).extend c
  | .not => Word.ofBool (a == 0)

namespace BinaryOp

/-- What an arithmetic operator of trees computes. Shifts count modulo the bits of a word. -/
def word (op : BinaryOp) (c : ValueClass) (a b : Word) : Option Word :=
  (·.extend c) <$>
    match op with
    | .add => some (a + b)
    | .sub => some (a - b)
    | .mul => some (a * b)
    | .div => Word.divide c .sdiv .udiv a b
    | .mod => Word.divide c .srem .umod a b
    | .and => some (a &&& b)
    | .or => some (a ||| b)
    | .xor => some (a ^^^ b)
    | .shl => some (a <<< (b.toNat % 64))
    | .shr => some (Word.shiftRight c a (b.toNat % 64))
    | _ => none

/-- Whether a relational operator of trees holds of two words of a class. -/
def relates (op : BinaryOp) (c : ValueClass) (a b : Word) : Bool :=
  match op with
  | .eq => compareWords c a b == .eq
  | .ne => compareWords c a b != .eq
  | .lt => compareWords c a b == .lt
  | .le => compareWords c a b != .gt
  | .gt => compareWords c a b == .gt
  | .ge => compareWords c a b != .lt
  | _ => false

end BinaryOp

namespace Op

def word₁ (op : Op) (c : ValueClass) (a : Word) : Option Word :=
  match op with
  | .neg => some ((-a).extend c)
  | .compl => some ((~~~a).extend c)
  | .cvt => some (a.extend c)
  | _ => none

def word₂ (op : Op) (c : ValueClass) (a b : Word) : Option Word :=
  (·.extend c) <$>
    match op with
    | .add => some (a + b)
    | .sub => some (a - b)
    | .mul => some (a * b)
    | .div => Word.divide c .sdiv .udiv a b
    | .mod => Word.divide c .srem .umod a b
    | .and => some (a &&& b)
    | .or => some (a ||| b)
    | .xor => some (a ^^^ b)
    | .shl => some (a <<< (b.toNat % 64))
    | .shr => some (Word.shiftRight c a (b.toNat % 64))
    | _ => none

end Op

end CBackend
