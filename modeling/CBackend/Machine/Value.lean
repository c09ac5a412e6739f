import CBackend.CType
import CBackend.Double.Shortest

/-!
Values that cross the border of the reference machine, and how a 64-bit word is read at a class.
-/

namespace CBackend

abbrev Word := BitVec 64

inductive Value where
  | int (word : Word)
  | float (value : Double)
  | void
  deriving DecidableEq, Inhabited

namespace Value

def ofInt (n : Int) : Value := .int (.ofInt 64 n)

def ofNat (n : Nat) : Value := .int (.ofNat 64 n)

/-- A floating value is truncated, and clamped to the range of a word. -/
def toWord : Value → Word
  | .int w => w
  | .float d => .ofInt 64 d.toSigned
  | .void => 0

def toDouble : Value → Double
  | .int w => .ofInt w.toInt
  | .float d => d
  | .void => .zero

def diagnostic : Value → String
  | .int w => s!"Int({w.toInt})"
  | .float d => "Float(" ++ d.render Double.constantName ++ ")"
  | .void => "Void"

end Value

/-- Sign- or zero-extends the low bits of a word as its class says. -/
def Word.extend (w : Word) : ValueClass → Word
  | .i8 => (w.setWidth 8).signExtend 64
  | .u8 => (w.setWidth 8).setWidth 64
  | .i16 => (w.setWidth 16).signExtend 64
  | .u16 => (w.setWidth 16).setWidth 64
  | .i32 => (w.setWidth 32).signExtend 64
  | .u32 => (w.setWidth 32).setWidth 64
  | _ => w

def Double.narrow (d : Double) (ty : ValueClass) : Double :=
  if ty = .f32 then d.toSinglePrecision else d

/-- The integer class of a width; widths other than one, two and eight bytes count as four. -/
def ValueClass.ofIntWidth (bytes : Nat) (signed : Bool) : ValueClass :=
  match bytes, signed with
  | 1, true => .i8
  | 1, false => .u8
  | 2, true => .i16
  | 2, false => .u16
  | 8, true => .i64
  | 8, false => .u64
  | _, true => .i32
  | _, false => .u32

def ValueClass.ofFloatWidth (bytes : Nat) : ValueClass := if bytes = 4 then .f32 else .f64

/-- The class in which an argument of a class is pushed: a whole slot at least. -/
def ValueClass.pushed : ValueClass → ValueClass
  | .i8 | .i16 => .i32
  | .u8 | .u16 => .u32
  | ty => ty

end CBackend
