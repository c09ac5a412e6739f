import CBackend.CType
import CBackend.Operand
import CBackend.Operator

/-!
Instructions of the pseudo target: an opcode, the class it works at and up to two operands.
-/

namespace CBackend

inductive Opcode where
  | mov | lea | movsx | movzx
  | add | sub | mul | div | udiv | mod | umod | and | or | xor | shl | shr | sar
  | neg | not | cmp
  | set (cond : Cond)
  | jmp
  | jcc (cond : Cond)
  | push | call
  | callind
  | ret | enter | leave
  | fld | fst | fild | fist
  | ufild
  | ufist
  | fadd | fsub | fmul | fdiv | fchs | fcmp
  | fcvt
  | copy
  | zerofill
  | label
  deriving DecidableEq, Repr, Inhabited

def Opcode.all : List Opcode := [
  mov, lea, movsx, movzx, add, sub, mul, div, udiv, mod, umod, and, or, xor, shl, shr, sar, neg,
  not, cmp, jmp, push, call, callind, ret, enter, leave, fld, fst, fild, fist, ufild, ufist, fadd,
  fsub, fmul, fdiv, fchs, fcmp, fcvt, copy, zerofill, label] ++ Cond.all.map set ++ Cond.all.map jcc

def Opcode.mnemonic : Opcode → String
  | mov => "mov"
  | lea => "lea"
  | movsx => "movsx"
  | movzx => "movzx"
  | add => "add"
  | sub => "sub"
  | mul => "mul"
  | div => "div"
  | udiv => "udiv"
  | mod => "mod"
  | umod => "umod"
  | and => "and"
  | or => "or"
  | xor => "xor"
  | shl => "shl"
  | shr => "shr"
  | sar => "sar"
  | neg => "neg"
  | not => "not"
  | cmp => "cmp"
  | set cond => "set" ++ cond.name
  | jmp => "jmp"
  | jcc cond => "j" ++ cond.name
  | push => "push"
  | call => "call"
  | callind => "callind"
  | ret => "ret"
  | enter => "enter"
  | leave => "leave"
  | fld => "fld"
  | fst => "fst"
  | fild => "fild"
  | fist => "fist"
  | ufild => "ufild"
  | ufist => "ufist"
  | fadd => "fadd"
  | fsub => "fsub"
  | fmul => "fmul"
  | fdiv => "fdiv"
  | fchs => "fchs"
  | fcmp => "fcmp"
  | fcvt => "fcvt"
  | copy => "copy"
  | zerofill => "zerofill"
  | label => "label"

structure Instr where
  op : Opcode
  ty : ValueClass
  dst : Option Operand := none
  src : Option Operand := none
  target : Option Symbol := none
  bytes : Nat := 0
  seq : Nat := 0
  deriving DecidableEq, Repr, Inhabited

end CBackend
