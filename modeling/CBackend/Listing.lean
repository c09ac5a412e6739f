import CBackend.InstrList
import CBackend.SymbolTable

/-!
The text of operands and instructions. Symbols are written by name, integer constants by value.
-/

namespace CBackend

/-- An integer with its sign written in either case. -/
def signedText (n : Int) : String := if 0 ≤ n then s!"+{n}" else toString n

def Address.listing (a : Address) (symbols : SymbolTable) : String :=
  let place :=
    match a.sym with
    | some s => symbols.name s ++ (if a.disp = 0 then "" else signedText a.disp)
    | none => if a.disp = 0 ∧ a.base.isSome then "" else toString a.disp
  match a.base with
  | some base => place ++ "(" ++ base.name ++ ")"
  | none => place

def Operand.listing (o : Operand) (symbols : SymbolTable) : String :=
  match o with
  | .reg lo none => lo.name
  | .reg lo (some hi) => hi.name ++ ":" ++ lo.name
  | .imm s =>
    match symbols.kind s with
    | .intConst v => "$" ++ toString v
    | _ => "$" ++ symbols.name s
  | .mem a => "&" ++ a.listing symbols
  | .ind a => "[" ++ a.listing symbols ++ "]"

def Instr.listing (i : Instr) (symbols : SymbolTable) : String :=
  if i.op = .label then
    match i.target with
    | some l => symbols.name l ++ ":"
    | none => "?:"
  else
    let operands := (i.dst.toList ++ i.src.toList).map (·.listing symbols)
      ++ i.target.toList.map symbols.name
    "    " ++ i.op.mnemonic ++ "." ++ i.ty.name
      ++ (if operands.isEmpty then "" else " " ++ ", ".intercalate operands)
      ++ (if i.bytes = 0 then "" else s!" #{i.bytes}")

def InstrList.listing (l : InstrList) (symbols : SymbolTable) : String :=
  "\n".intercalate (l.toList.map (·.listing symbols))

/-- Cuts a text after each line feed, which goes together with a carriage return before it. What
follows the last one is a line only if it is not empty; `line` holds the current one backwards. -/
def cutLines : (line : List Char) → List Char → List String
  | [], [] => []
  | line, [] => [String.ofList line.reverse]
  | '\r' :: line, '\n' :: rest => String.ofList line.reverse :: cutLines [] rest
  | line, '\n' :: rest => String.ofList line.reverse :: cutLines [] rest
  | line, c :: rest => cutLines (c :: line) rest

def textLines (text : String) : List String := cutLines [] text.toList

end CBackend
