import CBackend.Identifier
import CBackend.Register

/-!
Operands of instructions and the sets of operand formats that selection works with.
-/

namespace CBackend

/-- A set of operand formats: register, immediate, address value, memory contents. -/
structure Format where
  bits : BitVec 4
  deriving DecidableEq, Repr, Inhabited

namespace Format

def none : Format := ⟨0⟩
def reg : Format := ⟨1⟩
def imm : Format := ⟨2⟩
/-- An address used as a value, like an immediate. -/
def mem : Format := ⟨4⟩
def ind : Format := ⟨8⟩
def any : Format := ⟨15⟩

def union (a b : Format) : Format := ⟨a.bits ||| b.bits⟩

def inter (a b : Format) : Format := ⟨a.bits &&& b.bits⟩

/-- No set contains the empty one. -/
def contains (a b : Format) : Bool := b.bits != 0 && (a.bits &&& b.bits) == b.bits

def isEmpty (a : Format) : Bool := a.bits == 0

def code (a : Format) : Nat := a.bits.toNat

def ofNat (n : Nat) : Format := ⟨BitVec.ofNat 4 n⟩

def singles (a : Format) : List Format := [reg, imm, mem, ind].filter a.contains

end Format

/-- A base register, a symbol and a constant, added up. -/
structure Address where
  base : Option Reg
  sym : Option Symbol
  disp : Int
  deriving DecidableEq, Repr, Inhabited

namespace Address

def symbol (s : Symbol) : Address := ⟨none, some s, 0⟩

def based (base : Reg) (disp : Int) : Address := ⟨some base, none, disp⟩

def diagnostic (a : Address) : String :=
  let base := optionDiagnostic Reg.diagnostic a.base
  let sym := optionDiagnostic Symbol.diagnostic a.sym
  s!"Address \x7b base: {base}, sym: {sym}, disp: {a.disp} \x7d"

end Address

inductive Operand where
  | reg (lo : Reg) (hi : Option Reg)
  | imm (sym : Symbol)
  | mem (address : Address)
  | ind (address : Address)
  deriving DecidableEq, Repr, Inhabited

namespace Operand

def single (r : Reg) : Operand := .reg r none

def pair (lo hi : Reg) : Operand := .reg lo (some hi)

def format : Operand → Format
  | .reg .. => .reg
  | .imm _ => .imm
  | .mem _ => .mem
  | .ind _ => .ind

def regs : Operand → List Reg
  | .reg lo hi => lo :: hi.toList
  | .mem a | .ind a => a.base.toList
  | .imm _ => []

def diagnostic : Operand → String
  | .reg lo hi =>
    let high := optionDiagnostic Reg.diagnostic hi
    s!"Reg \x7b lo: {lo.diagnostic}, hi: {high} \x7d"
  | .imm sym => s!"Imm({sym.diagnostic})"
  | .mem a => s!"Mem({a.diagnostic})"
  | .ind a => s!"Ind({a.diagnostic})"

end Operand

end CBackend
