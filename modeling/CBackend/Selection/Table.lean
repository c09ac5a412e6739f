import CBackend.CompileError
import CBackend.Instr

/-!
Selection tables. A table maps packed keys, made of the destination format, the source format and
the class, to opcodes; the table of conversions adds the class converted from. Tables are spelled
out from short rules, and the rules also say which operand formats a destination accepts.
-/

namespace CBackend

namespace SelectionKey

/-- Packs destination format, source format and class. -/
def pack (dst src : Format) (ty : ValueClass) : Nat := dst.code + 16 * src.code + 256 * ty.code

def packConversion (dst : Format) (ty : ValueClass) (src : Format) (srcTy : ValueClass) : Nat :=
  pack dst src ty + 4096 * srcTy.code

def dst (key : Nat) : Nat := key % 16

def src (key : Nat) : Nat := key / 16 % 16

def ty (key : Nat) : Nat := key / 256 % 16

def srcTy (key : Nat) : Nat := key / 4096 % 16

theorem code_lt_sixteen (a : Format) : a.code < 16 := a.bits.isLt

@[simp] theorem dst_pack (d s : Format) (c : ValueClass) : dst (pack d s c) = d.code := by
  have := code_lt_sixteen d
  simp only [dst, pack]; omega

@[simp] theorem src_pack (d s : Format) (c : ValueClass) : src (pack d s c) = s.code := by
  have := code_lt_sixteen d
  have := code_lt_sixteen s
  simp only [src, pack]; omega

@[simp] theorem ty_pack (d s : Format) (c : ValueClass) : ty (pack d s c) = c.code := by
  have := code_lt_sixteen d
  have := code_lt_sixteen s
  have := c.code_lt
  simp only [ty, pack]; omega

end SelectionKey

/-- Entries that share one opcode. -/
structure SelectionRule where
  dst : Format
  src : Format
  classes : List ValueClass
  op : Opcode

structure ConversionRule where
  classes : List ValueClass
  src : Format
  srcClasses : List ValueClass
  op : Opcode

structure SelectionTable where
  name : String
  entries : List (Nat × Opcode)

namespace SelectionTable

def formats (f : Format) : List Format := if f.isEmpty then [.none] else f.singles

def ofRules (name : String) (rules : List SelectionRule) : SelectionTable where
  name
  entries := rules.flatMap fun r => r.classes.flatMap fun ty => (formats r.dst).flatMap fun dst =>
    (formats r.src).map fun src => (SelectionKey.pack dst src ty, r.op)

def ofConversions (name : String) (rules : List ConversionRule) : SelectionTable where
  name
  entries := rules.flatMap fun r => r.classes.flatMap fun ty => r.srcClasses.flatMap fun srcTy =>
    r.src.singles.map fun src => (SelectionKey.packConversion .reg ty src srcTy, r.op)

def size (t : SelectionTable) : Nat := t.entries.length

def isEmpty (t : SelectionTable) : Bool := t.entries.isEmpty

def find? (t : SelectionTable) (key : Nat) : Option Opcode := t.entries.lookup key

def lookup (t : SelectionTable) (key : Nat) : Except CompileError Opcode :=
  match t.find? key with
  | some op => .ok op
  | none => .error (.selectionMiss t.name key)

/-- The union of a field over the entries whose key passes a test. -/
def collect (t : SelectionTable) (test : Nat → Bool) (field : Nat → Nat) : Format :=
  (t.entries.filter fun e => test e.1).foldl (fun acc e => acc.union (.ofNat (field e.1))) .none

/-- Source formats accepted for a destination. -/
def srcFormats (t : SelectionTable) (dst : Format) (ty : ValueClass) : Format :=
  t.collect (fun k => SelectionKey.dst k == dst.code && SelectionKey.ty k == ty.code)
    SelectionKey.src

/-- Destination formats accepted with a source. -/
def dstFormats (t : SelectionTable) (src : Format) (ty : ValueClass) : Format :=
  t.collect (fun k => SelectionKey.src k == src.code && SelectionKey.ty k == ty.code)
    SelectionKey.dst

def conversionFormats (t : SelectionTable) (ty srcTy : ValueClass) : Format :=
  t.collect
    (fun k => SelectionKey.dst k == Format.reg.code && SelectionKey.ty k == ty.code
      && SelectionKey.srcTy k == srcTy.code)
    SelectionKey.src

/-! The rules. Integers take part in all of them; an address used as a value has the class of a
pointer. -/

def ints : List ValueClass := [.i8, .u8, .i16, .u16, .i32, .u32, .i64, .u64]

def floats : List ValueClass := [.f32, .f64]

def signedInts : List ValueClass := [.i8, .i16, .i32, .i64]

def unsignedInts : List ValueClass := [.u8, .u16, .u32, .u64]

def pointers : List ValueClass := [.u32]

def regImm : Format := .union .reg .imm

def regInd : Format := .union .reg .ind

def regImmInd : Format := .union regImm .ind

def move : SelectionTable := ofRules "move" [
  ⟨.reg, regImmInd, ints, .mov⟩,
  ⟨.reg, .mem, pointers, .lea⟩,
  ⟨.ind, regImm, ints, .mov⟩,
  ⟨.ind, .mem, pointers, .mov⟩,
  ⟨.reg, regImmInd, floats, .fld⟩,
  ⟨.ind, .reg, floats, .fst⟩,
  ⟨.ind, .ind, [.blk], .copy⟩]

/-- Sums and differences also take addresses. -/
def additive (int float : Opcode) : List SelectionRule := [
  ⟨.reg, regImmInd, ints, int⟩,
  ⟨.reg, .mem, pointers, int⟩,
  ⟨.reg, regInd, floats, float⟩]

def add : SelectionTable := ofRules "add" (additive .add .fadd)

def sub : SelectionTable := ofRules "sub" (additive .sub .fsub)

def mul : SelectionTable := ofRules "mul" [
  ⟨.reg, regImmInd, ints, .mul⟩,
  ⟨.reg, regInd, floats, .fmul⟩]

def div : SelectionTable := ofRules "div" [
  ⟨.reg, regInd, signedInts, .div⟩,
  ⟨.reg, regInd, unsignedInts, .udiv⟩,
  ⟨.reg, regInd, floats, .fdiv⟩]

def mod : SelectionTable := ofRules "mod" [
  ⟨.reg, regInd, signedInts, .mod⟩,
  ⟨.reg, regInd, unsignedInts, .umod⟩]

def and : SelectionTable := ofRules "and" [⟨.reg, regImmInd, ints, .and⟩]

def or : SelectionTable := ofRules "or" [⟨.reg, regImmInd, ints, .or⟩]

def xor : SelectionTable := ofRules "xor" [⟨.reg, regImmInd, ints, .xor⟩]

def shl : SelectionTable := ofRules "shl" [⟨.reg, regImm, ints, .shl⟩]

def shr : SelectionTable := ofRules "shr" [
  ⟨.reg, regImm, signedInts, .sar⟩,
  ⟨.reg, regImm, unsignedInts, .shr⟩]

def neg : SelectionTable := ofRules "neg" [
  ⟨regInd, .none, ints, .neg⟩,
  ⟨.reg, .none, floats, .fchs⟩]

def compl : SelectionTable := ofRules "compl" [⟨regInd, .none, ints, .not⟩]

def cmp : SelectionTable := ofRules "cmp" [
  ⟨.reg, regImmInd, ints, .cmp⟩,
  ⟨.reg, .mem, pointers, .cmp⟩,
  ⟨.ind, regImm, ints, .cmp⟩,
  ⟨.reg, regInd, floats, .fcmp⟩]

def push : SelectionTable := ofRules "push" [
  ⟨.none, regImmInd, ints, .push⟩,
  ⟨.none, .mem, pointers, .push⟩,
  ⟨.none, regInd, floats, .push⟩,
  ⟨.none, .ind, [.blk], .push⟩]

def call : SelectionTable := ofRules "call" [
  ⟨.none, .union (.union .reg .mem) .imm, pointers, .call⟩,
  ⟨.none, .ind, pointers, .callind⟩]

def convert : SelectionTable := ofConversions "cvt" [
  ⟨[.i16, .u16, .i32, .u32, .i64, .u64], regInd, [.i8], .movsx⟩,
  ⟨[.i16, .u16, .i32, .u32, .i64, .u64], regInd, [.u8], .movzx⟩,
  ⟨[.i32, .u32, .i64, .u64], regInd, [.i16], .movsx⟩,
  ⟨[.i32, .u32, .i64, .u64], regInd, [.u16], .movzx⟩,
  ⟨[.i64, .u64], regImmInd, [.i32], .movsx⟩,
  ⟨[.i64, .u64], regImmInd, [.u32], .movzx⟩,
  ⟨floats, .ind, [.i32, .i64], .fild⟩,
  ⟨floats, .ind, [.u64], .ufild⟩,
  ⟨[.i32, .i64], .reg, floats, .fist⟩,
  ⟨[.u64], .reg, floats, .ufist⟩,
  ⟨[.f64], regInd, [.f32], .fcvt⟩,
  ⟨[.f32], regInd, [.f64], .fcvt⟩]

def forOp : Op → Except CompileError SelectionTable
  | .add => .ok add
  | .sub => .ok sub
  | .mul => .ok mul
  | .div => .ok div
  | .mod => .ok mod
  | .and => .ok and
  | .or => .ok or
  | .xor => .ok xor
  | .shl => .ok shl
  | .shr => .ok shr
  | .neg => .ok neg
  | .compl => .ok compl
  | op => .error (.invariant (.noOperatorTable op))

end SelectionTable

end CBackend
