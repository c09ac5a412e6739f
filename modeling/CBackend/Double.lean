/-!
Double-precision numbers as bit patterns. Conversions to and from integers, the order and the
classification are exact functions of the bits; sums, differences, products and quotients round
in hardware. A result is always determined: an operand that is not a number is passed on with its
quiet bit set, the left one first, and an invalid operation gives the default not-a-number, whose
sign is set.
-/

namespace CBackend

structure Double where
  bits : BitVec 64
  deriving DecidableEq, Inhabited

/-- Single-precision numbers, the form a `float` object has in memory. -/
structure Single where
  bits : BitVec 32
  deriving DecidableEq, Inhabited

namespace Double

def zero : Double := ⟨0⟩

def magnitude (d : Double) : Nat := d.bits.toNat % 0x8000000000000000

def isNegative (d : Double) : Bool := d.bits.msb

def infinityMagnitude : Nat := 0x7ff0000000000000

def isNaN (d : Double) : Bool := infinityMagnitude < d.magnitude

def isInfinite (d : Double) : Bool := d.magnitude == infinityMagnitude

def isZero (d : Double) : Bool := d.magnitude == 0

def leadingBit : Nat := 0x10000000000000

/-- The integer significand `m` and exponent `q` of a finite number, whose absolute value is
`m * 2 ^ (q - 1074)`. -/
def parts (d : Double) : Nat × Nat :=
  let biased := d.magnitude >>> 52
  let fraction := d.magnitude % leadingBit
  if biased = 0 then (fraction, 0) else (fraction + leadingBit, biased - 1)

def neg (d : Double) : Double := ⟨d.bits ^^^ (1#64 <<< 63)⟩

def quiet (d : Double) : Double := ⟨d.bits ||| 0x0008000000000000⟩

def invalid : Double := ⟨0xfff8000000000000⟩

def toFloat (d : Double) : Float := Float.ofBits (UInt64.ofBitVec d.bits)

def ofFloat (x : Float) : Double := if x.isNaN then invalid else ⟨x.toBits.toBitVec⟩

def arith (f : Float → Float → Float) (a b : Double) : Double :=
  if a.isNaN then a.quiet
  else if b.isNaN then b.quiet
  else ofFloat (f a.toFloat b.toFloat)

def add : Double → Double → Double := arith (· + ·)

def sub : Double → Double → Double := arith (· - ·)

def mul : Double → Double → Double := arith (· * ·)

def div : Double → Double → Double := arith (· / ·)

/-- The integer that orders the numbers: signed magnitude, so both zeros coincide. -/
def rank (d : Double) : Int := if d.isNegative then -(d.magnitude : Int) else d.magnitude

/-- The order of two numbers; none if either is not a number. -/
def compare? (a b : Double) : Option Ordering :=
  if a.isNaN || b.isNaN then none else some (compare a.rank b.rank)

def truncate? (d : Double) : Option Int :=
  if infinityMagnitude ≤ d.magnitude then none
  else
    let (m, q) := d.parts
    let whole : Nat := if 1074 ≤ q then m <<< (q - 1074) else m >>> (1074 - q)
    some (if d.isNegative then -whole else whole)

/-- The integer part clamped to a range; not-a-number gives zero. -/
def clamp (low high : Int) (d : Double) : Int :=
  match d.truncate? with
  | some n => max low (min high n)
  | none => if d.isNaN then 0 else if d.isNegative then low else high

def toSigned : Double → Int := clamp (-0x8000000000000000) 0x7fffffffffffffff

def toUnsigned : Double → Int := clamp 0 0xffffffffffffffff

/-- The closest double to a natural number below `2 ^ 1000`, ties to even. -/
def roundNat (n : Nat) : Nat :=
  if n = 0 then 0
  else
    let length := n.log2 + 1
    let (significand, exponent) :=
      if length ≤ 53 then (n <<< (53 - length), length + 1021)
      else
        let unit := 1 <<< (length - 53)
        let below := n / unit
        let rest := n % unit
        let up := unit < 2 * rest || (unit == 2 * rest && below % 2 == 1)
        (if up then below + 1 else below, length + 1021)
    -- A significand that rounds up to `2 ^ 53` carries into the exponent by itself.
    (exponent <<< 52 + significand)

def ofInt (n : Int) : Double :=
  let magnitude := BitVec.ofNat 64 (roundNat n.natAbs)
  ⟨if n < 0 then magnitude ||| (1#64 <<< 63) else magnitude⟩

end Double

namespace Single

/-- The value of a single; exact, as every single is a double. -/
def toDouble (s : Single) : Double :=
  let sign := (s.bits >>> 31).setWidth 64 <<< 63
  let fraction := (s.bits &&& 0x007fffff).setWidth 64
  if 0x7f800000 < s.bits.toNat % 0x80000000 then
    ⟨sign ||| 0x7ff8000000000000 ||| (fraction <<< 29)⟩
  else Double.ofFloat (Float32.ofBits (UInt32.ofBitVec s.bits)).toFloat

end Single

/-- The closest single, ties to even; not-a-number keeps its sign. -/
def Double.toSingle (d : Double) : Single :=
  if d.isNaN then
    let sign := (d.bits >>> 63).setWidth 32 <<< 31
    ⟨sign ||| 0x7fc00000 ||| ((d.bits >>> 29).setWidth 32 &&& 0x007fffff)⟩
  else ⟨d.toFloat.toFloat32.toBits.toBitVec⟩

def Double.toSinglePrecision (d : Double) : Double := d.toSingle.toDouble

end CBackend
