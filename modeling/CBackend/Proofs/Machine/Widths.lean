import Mathlib.Algebra.Ring.Nat
import CBackend.Proofs.Machine.Stack

/-!
Arithmetic at the width of a class. The machine has one set of operations, on words of 64 bits. What
is read at a class has been extended to a word, and of a result only the bits of the class are kept;
here it is shown that this is arithmetic on as many bits as the class has.
-/

namespace CBackend

namespace Widths

variable {n m k : Nat}

theorem setWidth_sub (le : n ≤ m) (x y : BitVec m) :
    (x - y).setWidth n = x.setWidth n - y.setWidth n := by
  rw [BitVec.sub_eq_add_neg, BitVec.setWidth_add _ _ le, BitVec.setWidth_neg_of_le le,
    BitVec.sub_eq_add_neg]

theorem setWidth_signExtend (le : n ≤ m) (x : BitVec n) : (x.signExtend m).setWidth n = x := by
  rw [← BitVec.signExtend_eq_setWidth_of_le _ le]
  apply BitVec.eq_of_toInt_eq
  rw [BitVec.toInt_signExtend, BitVec.toInt_signExtend_of_le le, Nat.min_eq_left le,
    BitVec.toInt_bmod_cancel]

theorem toInt_setWidth (le : n ≤ m) (x : BitVec m) :
    (x.setWidth n).toInt = x.toInt.bmod (2 ^ n) := by
  rw [BitVec.toInt_setWidth, BitVec.toInt_eq_toNat_bmod, Int.bmod_bmod_of_dvd (Nat.pow_dvd_pow 2 le)]

theorem sdiv_signExtend (le : n ≤ m) (a b : BitVec n) :
    ((a.signExtend m).sdiv (b.signExtend m)).setWidth n = a.sdiv b := by
  apply BitVec.eq_of_toInt_eq
  rw [toInt_setWidth le, BitVec.toInt_sdiv, BitVec.toInt_sdiv, BitVec.toInt_signExtend_of_le le,
    BitVec.toInt_signExtend_of_le le, Int.bmod_bmod_of_dvd (Nat.pow_dvd_pow 2 le)]

theorem srem_signExtend (le : n ≤ m) (a b : BitVec n) :
    ((a.signExtend m).srem (b.signExtend m)).setWidth n = a.srem b := by
  apply BitVec.eq_of_toInt_eq
  rw [toInt_setWidth le, BitVec.toInt_srem, BitVec.toInt_signExtend_of_le le,
    BitVec.toInt_signExtend_of_le le, ← BitVec.toInt_srem, BitVec.toInt_bmod_cancel]

theorem udiv_setWidth (le : n ≤ m) (a b : BitVec n) :
    ((a.setWidth m).udiv (b.setWidth m)).setWidth n = a.udiv b := by
  have small : a.toNat / b.toNat < 2 ^ n := Nat.lt_of_le_of_lt (Nat.div_le_self _ _) a.isLt
  apply BitVec.eq_of_toNat_eq
  simp [BitVec.toNat_setWidth_of_le le, Nat.mod_eq_of_lt small]

theorem umod_setWidth (le : n ≤ m) (a b : BitVec n) :
    ((a.setWidth m).umod (b.setWidth m)).setWidth n = a.umod b := by
  have small : a.toNat % b.toNat < 2 ^ n := Nat.lt_of_le_of_lt (Nat.mod_le _ _) a.isLt
  apply BitVec.eq_of_toNat_eq
  simp [BitVec.toNat_setWidth_of_le le, Nat.mod_eq_of_lt small]

theorem msb_setWidth (lt : n < m) (a : BitVec n) : (a.setWidth m).msb = false := by
  rw [BitVec.msb_setWidth]
  exact Bool.and_eq_false_imp.mpr fun _ => BitVec.getLsbD_of_ge _ _ (by omega)

theorem sdiv_setWidth (lt : n < m) (a b : BitVec n) :
    ((a.setWidth m).sdiv (b.setWidth m)).setWidth n = a.udiv b := by
  simp only [BitVec.sdiv_eq, msb_setWidth lt]
  exact udiv_setWidth (Nat.le_of_lt lt) a b

theorem srem_setWidth (lt : n < m) (a b : BitVec n) :
    ((a.setWidth m).srem (b.setWidth m)).setWidth n = a.umod b := by
  simp only [BitVec.srem_eq, msb_setWidth lt]
  exact umod_setWidth (Nat.le_of_lt lt) a b

theorem ushiftRight_signExtend (room : n + k ≤ m) (a : BitVec n) :
    (a.signExtend m >>> k).setWidth n = a.sshiftRight k := by
  apply BitVec.eq_of_getLsbD_eq
  intro i bound
  have inside : k + i < m := by omega
  simp only [BitVec.getLsbD_setWidth, BitVec.getLsbD_ushiftRight, BitVec.getLsbD_signExtend,
    BitVec.getLsbD_sshiftRight, bound, inside, decide_true, Bool.true_and]
  simp [bound]

theorem sshiftRight_signExtend (le : n ≤ m) (a : BitVec n) :
    ((a.signExtend m).sshiftRight k).setWidth n = a.sshiftRight k := by
  apply BitVec.eq_of_toInt_eq
  rw [toInt_setWidth le, BitVec.toInt_sshiftRight, BitVec.toInt_signExtend_of_le le,
    ← BitVec.toInt_sshiftRight, BitVec.toInt_bmod_cancel]

theorem ushiftRight_setWidth (le : n ≤ m) (a : BitVec n) :
    (a.setWidth m >>> k).setWidth n = a >>> k := by
  apply BitVec.eq_of_toNat_eq
  rw [BitVec.toNat_setWidth, BitVec.toNat_ushiftRight, BitVec.toNat_setWidth_of_le le,
    ← BitVec.toNat_ushiftRight, Nat.mod_eq_of_lt (a >>> k).isLt]

theorem sshiftRight_setWidth (lt : n < m) (a : BitVec n) :
    ((a.setWidth m).sshiftRight k).setWidth n = a >>> k := by
  rw [BitVec.sshiftRight_eq_of_msb_false (msb_setWidth lt a), ushiftRight_setWidth (Nat.le_of_lt lt)]

end Widths

namespace ValueClass

def bits (ty : ValueClass) : Nat := 8 * ty.width

/-- The word that the bits of a class are extended to. -/
def word (ty : ValueClass) (b : BitVec ty.bits) : Word :=
  if ty.isSigned then b.signExtend 64 else b.setWidth 64

variable {ty : ValueClass}

theorem bits_le (ty : ValueClass) : ty.bits ≤ 64 := by cases ty <;> decide

theorem bits_le_of_narrow (integer : ty.isInteger = true) (narrow : ty.isWide = false) :
    ty.bits ≤ 32 := by
  cases ty with
  | i64 | u64 => cases narrow
  | f32 | f64 | blk | void => cases integer
  | _ => decide

theorem bits_lt_of_unsigned (integer : ty.isInteger = true) (unsigned : ty.isSigned = false)
    (other : ty ≠ .u64) : ty.bits < 64 := by
  cases ty with
  | u64 => cases other rfl
  | i8 | i16 | i32 | i64 => cases unsigned
  | f32 | f64 | blk | void => cases integer
  | _ => decide

theorem le_bits_of_wide (wide : ty.isWide = true) : 64 ≤ ty.bits := by
  cases ty with
  | i64 | u64 => decide
  | _ => cases wide

theorem word_of_signed (signed : ty.isSigned = true) (b : BitVec ty.bits) :
    ty.word b = b.signExtend 64 := if_pos signed

theorem word_of_unsigned (unsigned : ty.isSigned = false) (b : BitVec ty.bits) :
    ty.word b = b.setWidth 64 := if_neg (by simp [unsigned])

theorem word_of_wide (wide : ty.isWide = true) (b : BitVec ty.bits) :
    ty.word b = b.setWidth 64 ∧ ty.word b = b.signExtend 64 := by
  have same := BitVec.signExtend_eq_setWidth_of_le b (le_bits_of_wide wide)
  unfold word
  split
  · exact ⟨same, rfl⟩
  · exact ⟨rfl, same.symm⟩

theorem setWidth_word (b : BitVec ty.bits) : (ty.word b).setWidth ty.bits = b := by
  unfold word
  split
  · exact Widths.setWidth_signExtend ty.bits_le b
  · rw [BitVec.setWidth_setWidth_of_le _ ty.bits_le, BitVec.setWidth_eq]

theorem word_inj {a b : BitVec ty.bits} (same : ty.word a = ty.word b) : a = b := by
  rw [← setWidth_word a, same, setWidth_word]

theorem word_zero : ty.word 0 = 0 := by
  unfold word
  split
  · exact (BitVec.signExtend_eq_setWidth_of_msb_false (by simp)).trans (by simp)
  · simp

theorem extend_eq_word (integer : ty.isInteger = true) (w : Word) :
    w.extend ty = ty.word (w.setWidth ty.bits) := by
  cases ty with
  | i64 => exact ((BitVec.signExtend_eq _).trans (BitVec.setWidth_eq w)).symm
  | u64 => exact ((BitVec.setWidth_eq _).trans (BitVec.setWidth_eq w)).symm
  | f32 | f64 | blk | void => cases integer
  | _ => rfl

def Fits (ty : ValueClass) (w : Word) : Prop := ty.word (w.setWidth ty.bits) = w

instance (ty : ValueClass) (w : Word) : Decidable (ty.Fits w) := inferInstanceAs (Decidable (_ = _))

theorem fits_word (b : BitVec ty.bits) : ty.Fits (ty.word b) := by
  rw [Fits, setWidth_word]

/-- Which right shift it is at a class. Below 64 bits the class decides: what the bits were extended
with is shifted in, so both shifts keep the sign at a signed class and neither does at an unsigned
one. -/
def shiftRight (ty : ValueClass) (arithmetic : Bool) (a : BitVec ty.bits) (count : Nat) :
    BitVec ty.bits :=
  if (if ty.isWide then arithmetic else ty.isSigned) then a.sshiftRight count else a >>> count

end ValueClass

namespace IntOp

def divideBits {n : Nat} (quotient : BitVec n → BitVec n → BitVec n) (a b : BitVec n) :
    Except MachineError (BitVec n) :=
  if b = 0 then .error .divideByZero else .ok (quotient a b)

/-- The result of an operation on the bits of a class. -/
def exact (op : IntOp) (ty : ValueClass) (a b : BitVec ty.bits) :
    Except MachineError (BitVec ty.bits) :=
  match op with
  | add => .ok (a + b)
  | sub => .ok (a - b)
  | mul => .ok (a * b)
  | div => divideBits .sdiv a b
  | mod => divideBits .srem a b
  | udiv => divideBits .udiv a b
  | umod => divideBits .umod a b
  | and => .ok (a &&& b)
  | or => .ok (a ||| b)
  | xor => .ok (a ^^^ b)
  | shl => .ok (a <<< b.toNat)
  | shr => .ok (ty.shiftRight false a b.toNat)
  | sar => .ok (ty.shiftRight true a b.toNat)

/-- Where an operation is used: a division at classes of its signedness and with a divisor of the
class, a shift with a count below the width. -/
def Suits (op : IntOp) (ty : ValueClass) (w : Word) : Prop :=
  match op with
  | div | mod => ty.isSigned = true ∧ ty.Fits w
  | udiv | umod => ty.isSigned = false ∧ ty.Fits w
  | shl | shr | sar => (w.setWidth ty.bits).toNat < ty.bits
  | add | sub | mul | and | or | xor => True

variable {ty : ValueClass} {a b : BitVec ty.bits} {w : Word}

theorem map_divide {quotient : Word → Word → Word}
    {quotient' : BitVec ty.bits → BitVec ty.bits → BitVec ty.bits} {wraps : Bool}
    (bounded : wraps = true ∨ ty.word a ≠ .intMin 64)
    (same : (quotient (ty.word a) (ty.word b)).setWidth ty.bits = quotient' a b) :
    Except.map (BitVec.setWidth ty.bits) (divide quotient wraps (ty.word a) (ty.word b)) =
      divideBits quotient' a b := by
  have zero : ty.word b = 0 ↔ b = 0 :=
    ⟨fun zero => ValueClass.word_inj (zero.trans ValueClass.word_zero.symm),
      fun zero => zero ▸ ValueClass.word_zero⟩
  have bounded :
      ¬ (!wraps && decide (ty.word a = .intMin 64) && decide (ty.word b = -1)) = true := by
    rcases bounded with rfl | other
    · simp
    · simp [other]
  unfold divide divideBits
  by_cases none : b = 0
  · rw [if_pos (zero.mpr none), if_pos none]
    rfl
  · rw [if_neg (mt zero.mp none), if_neg bounded, if_neg none]
    exact congrArg Except.ok same

theorem map_signed_divide {quotient : Word → Word → Word}
    {quotient' : BitVec ty.bits → BitVec ty.bits → BitVec ty.bits} (signed : ty.isSigned = true)
    (fits : ty.Fits w)
    (same : ∀ x y : BitVec ty.bits,
      (quotient (x.signExtend 64) (y.signExtend 64)).setWidth ty.bits = quotient' x y) :
    Except.map (BitVec.setWidth ty.bits) (divide quotient true (ty.word a) w) =
      divideBits quotient' a (w.setWidth ty.bits) := by
  conv => lhs; rw [← fits]
  apply map_divide (.inl rfl)
  rw [ValueClass.word_of_signed signed, ValueClass.word_of_signed signed, same]

theorem map_unsigned_divide {narrow wide : Word → Word → Word}
    {quotient : BitVec ty.bits → BitVec ty.bits → BitVec ty.bits} (integer : ty.isInteger = true)
    (unsigned : ty.isSigned = false) (fits : ty.Fits w)
    (below : ty.bits < 64 → ∀ x y : BitVec ty.bits,
      (narrow (x.setWidth 64) (y.setWidth 64)).setWidth ty.bits = quotient x y)
    (full : ∀ x y : BitVec ty.bits,
      (wide (x.setWidth 64) (y.setWidth 64)).setWidth ty.bits = quotient x y) :
    Except.map (BitVec.setWidth ty.bits)
        (if ty = .u64 then divide wide true (ty.word a) w else divide narrow false (ty.word a) w) =
      divideBits quotient a (w.setWidth ty.bits) := by
  have word := ValueClass.word_of_unsigned unsigned
  rw [← fits]
  conv => rhs; rw [ValueClass.setWidth_word]
  split
  · apply map_divide (.inl rfl)
    rw [word, word, full]
  · rename_i other
    have lt := ValueClass.bits_lt_of_unsigned integer unsigned other
    apply map_divide
    · right
      intro least
      have sign := Widths.msb_setWidth lt a
      rw [← word, least] at sign
      cases sign
    · rw [word, word, below lt]

theorem count_of_lt (integer : ty.isInteger = true) (count : (w.setWidth ty.bits).toNat < ty.bits) :
    w.toNat % 64 = (w.setWidth ty.bits).toNat := by
  have le := ty.bits_le
  have least : 6 ≤ ty.bits := by
    cases ty with
    | f32 | f64 | blk | void => cases integer
    | _ => decide
  have divides : 64 ∣ 2 ^ ty.bits := Nat.pow_dvd_pow 2 least
  rw [BitVec.toNat_setWidth] at count ⊢
  rw [← Nat.mod_mod_of_dvd _ divides]
  exact Nat.mod_eq_of_lt (Nat.lt_of_lt_of_le count le)

theorem setWidth_shiftRight (integer : ty.isInteger = true) {k : Nat} (count : k < ty.bits) :
    (ty.word a >>> k).setWidth ty.bits = ty.shiftRight false a k ∧
      ((ty.word a).sshiftRight k).setWidth ty.bits = ty.shiftRight true a k := by
  have le := ty.bits_le
  unfold ValueClass.shiftRight
  cases wide : ty.isWide with
  | true =>
    obtain ⟨plain, signed⟩ := ValueClass.word_of_wide wide a
    constructor
    · rw [plain]
      exact Widths.ushiftRight_setWidth le a
    · rw [signed]
      exact Widths.sshiftRight_signExtend le a
  | false =>
    have narrow := ValueClass.bits_le_of_narrow integer wide
    cases sign : ty.isSigned with
    | true =>
      rw [ValueClass.word_of_signed sign]
      exact ⟨Widths.ushiftRight_signExtend (by omega) a, Widths.sshiftRight_signExtend le a⟩
    | false =>
      rw [ValueClass.word_of_unsigned sign]
      exact ⟨Widths.ushiftRight_setWidth le a, Widths.sshiftRight_setWidth (by omega) a⟩

theorem map_apply (op : IntOp) (integer : ty.isInteger = true) (suits : op.Suits ty w) :
    Except.map (BitVec.setWidth ty.bits) (op.apply ty (ty.word a) w) =
      op.exact ty a (w.setWidth ty.bits) := by
  have le := ty.bits_le
  have back := ValueClass.setWidth_word a
  cases op with
  | add => exact congrArg Except.ok ((BitVec.setWidth_add _ _ le).trans (by rw [back]))
  | sub => exact congrArg Except.ok ((Widths.setWidth_sub le _ _).trans (by rw [back]))
  | mul => exact congrArg Except.ok ((BitVec.setWidth_mul _ _ le).trans (by rw [back]))
  | and => exact congrArg Except.ok (BitVec.setWidth_and.trans (by rw [back]))
  | or => exact congrArg Except.ok (BitVec.setWidth_or.trans (by rw [back]))
  | xor => exact congrArg Except.ok (BitVec.setWidth_xor.trans (by rw [back]))
  | div => exact map_signed_divide suits.1 suits.2 (Widths.sdiv_signExtend le)
  | mod => exact map_signed_divide suits.1 suits.2 (Widths.srem_signExtend le)
  | udiv =>
    exact map_unsigned_divide integer suits.1 suits.2 Widths.sdiv_setWidth (Widths.udiv_setWidth le)
  | umod =>
    exact map_unsigned_divide integer suits.1 suits.2 Widths.srem_setWidth (Widths.umod_setWidth le)
  | shl =>
    refine congrArg Except.ok ?_
    rw [count_of_lt integer suits, BitVec.setWidth_shiftLeft_of_le le, back]
  | shr =>
    refine congrArg Except.ok ?_
    rw [count_of_lt integer suits, (setWidth_shiftRight integer suits).1]
  | sar =>
    refine congrArg Except.ok ?_
    rw [count_of_lt integer suits, (setWidth_shiftRight integer suits).2]

end IntOp

namespace ValueClass

variable {ty : ValueClass}

def compareBits (ty : ValueClass) (a b : BitVec ty.bits) : Ordering :=
  if ty.isSigned then compare a.toInt b.toInt else compare a.toNat b.toNat

theorem compareWords_word (integer : ty.isInteger = true) (a b : BitVec ty.bits) :
    compareWords ty (ty.word a) (ty.word b) = ty.compareBits a b := by
  have le := ty.bits_le
  unfold compareWords compareBits
  cases sign : ty.isSigned with
  | true =>
    have other : ty ≠ .u64 := by
      rintro rfl
      cases sign
    rw [if_neg other, if_pos rfl, word_of_signed sign, word_of_signed sign,
      BitVec.toInt_signExtend_of_le le, BitVec.toInt_signExtend_of_le le]
  | false =>
    rw [if_neg Bool.false_ne_true, word_of_unsigned sign, word_of_unsigned sign]
    split
    · rw [BitVec.toNat_setWidth_of_le le, BitVec.toNat_setWidth_of_le le]
    · rename_i other
      have lt := bits_lt_of_unsigned integer sign other
      -- with the top bit clear the two orders agree
      rw [BitVec.toInt_eq_toNat_of_msb (Widths.msb_setWidth lt a),
        BitVec.toInt_eq_toNat_of_msb (Widths.msb_setWidth lt b),
        BitVec.toNat_setWidth_of_le le, BitVec.toNat_setWidth_of_le le]
      simp only [compare, compareOfLessAndEq, Int.ofNat_lt, Int.ofNat_inj]

end ValueClass

namespace Exec

variable {ty : ValueClass}

theorem decode_integer (integer : ty.isInteger = true) (bytes : List Byte) :
    decode bytes ty = .int (ty.word (BitVec.setWidth ty.bits (.ofNat 64 (ofBytes bytes)))) := by
  rw [← ValueClass.extend_eq_word integer]
  cases ty <;> first | rfl | cases integer

theorem decode_written (integer : ty.isInteger = true) {m : Memory} {n : Nat}
    (inside : n + ty.width ≤ Memory.size) (w : Word) :
    decode ((m.write n (encode (.int w) ty)).read n ty.width) ty =
      .int (ty.word (w.setWidth ty.bits)) := by
  have size := length_encode integer (.int w)
  have bytes := decode_encode ty ty integer integer (Nat.le_refl _) (.int w)
  rw [List.take_of_length_le (Nat.le_of_eq size)] at bytes
  rw [← size] at inside ⊢
  rw [Memory.read_write inside, bytes]
  exact congrArg Value.int (ValueClass.extend_eq_word integer w)

end Exec

end CBackend
