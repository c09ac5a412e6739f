/-!
Resolved C types and the operand classes they are computed in. A pointer carries no pointee:
scaling and dereference widths are already explicit in the trees.
-/

namespace CBackend

inductive CType where
  | void | char | uchar | short | ushort | int | uint | llong | ullong
  | float | double | pointer
  | struct (size : Nat)
  deriving DecidableEq, Repr, Inhabited

/-- The class of a value: which instructions compute it and how many bytes it takes. -/
inductive ValueClass where
  | i8 | u8 | i16 | u16 | i32 | u32 | i64 | u64 | f32 | f64 | blk | void
  deriving DecidableEq, Repr, Inhabited

namespace CType

def size : CType → Nat
  | void => 0
  | char | uchar => 1
  | short | ushort => 2
  | int | uint | pointer | float => 4
  | llong | ullong | double => 8
  | struct size => size

def isFloat : CType → Bool
  | float | double => true
  | _ => false

def isStruct : CType → Bool
  | struct _ => true
  | _ => false

/-- Pointers count as integers. -/
def isInteger : CType → Bool
  | void | float | double | struct _ => false
  | _ => true

def isSigned : CType → Bool
  | char | short | int | llong | float | double => true
  | _ => false

/-- Integers that take a pair of registers. -/
def isWide : CType → Bool
  | llong | ullong => true
  | _ => false

def valueClass : CType → ValueClass
  | void => .void
  | char => .i8
  | uchar => .u8
  | short => .i16
  | ushort => .u16
  | int => .i32
  | uint | pointer => .u32
  | llong => .i64
  | ullong => .u64
  | float => .f32
  | double => .f64
  | struct _ => .blk

def diagnostic : CType → String
  | void => "Void"
  | char => "Char"
  | uchar => "UChar"
  | short => "Short"
  | ushort => "UShort"
  | int => "Int"
  | uint => "UInt"
  | llong => "LongLong"
  | ullong => "ULongLong"
  | float => "Float"
  | double => "Double"
  | pointer => "Pointer"
  | struct size => s!"Struct \x7b size: {size} \x7d"

end CType

namespace ValueClass

def code : ValueClass → Nat
  | i8 => 0
  | u8 => 1
  | i16 => 2
  | u16 => 3
  | i32 => 4
  | u32 => 5
  | i64 => 6
  | u64 => 7
  | f32 => 8
  | f64 => 9
  | blk => 10
  | void => 11

def all : List ValueClass := [i8, u8, i16, u16, i32, u32, i64, u64, f32, f64, blk, void]

@[simp] theorem mem_all (c : ValueClass) : c ∈ all := by cases c <;> decide

theorem code_lt (c : ValueClass) : c.code < 12 := by cases c <;> decide

theorem code_injective {c d : ValueClass} (same : c.code = d.code) : c = d := by
  cases c <;> cases d <;> first | rfl | simp [code] at same

def isFloat : ValueClass → Bool
  | f32 | f64 => true
  | _ => false

def isSigned : ValueClass → Bool
  | i8 | i16 | i32 | i64 | f32 | f64 => true
  | _ => false

def isWide : ValueClass → Bool
  | i64 | u64 => true
  | _ => false

/-- Width in bytes of an integer or floating class; blocks and `void` have none. -/
def width : ValueClass → Nat
  | i8 | u8 => 1
  | i16 | u16 => 2
  | i32 | u32 | f32 => 4
  | i64 | u64 | f64 => 8
  | blk | void => 0

def name : ValueClass → String
  | i8 => "i8"
  | u8 => "u8"
  | i16 => "i16"
  | u16 => "u16"
  | i32 => "i32"
  | u32 => "u32"
  | i64 => "i64"
  | u64 => "u64"
  | f32 => "f32"
  | f64 => "f64"
  | blk => "blk"
  | void => "void"

def diagnostic : ValueClass → String
  | i8 => "I8"
  | u8 => "U8"
  | i16 => "I16"
  | u16 => "U16"
  | i32 => "I32"
  | u32 => "U32"
  | i64 => "I64"
  | u64 => "U64"
  | f32 => "F32"
  | f64 => "F64"
  | blk => "Blk"
  | void => "Void"

end ValueClass

theorem CType.width_valueClass (ty : CType) (scalar : ty.isStruct = false) :
    ty.valueClass.width = ty.size := by
  cases ty <;> first | rfl | simp [CType.isStruct] at scalar

end CBackend
