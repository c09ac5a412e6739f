import CBackend.CType
import CBackend.Identifier
import CBackend.Double.Shortest

/-!
The symbol table: one entry for each variable, function, constant and label. Constants are interned
by searching the entries themselves, so a constant's number never has to agree with a second index.
-/

namespace CBackend

inductive SymbolKind where
  | global | function | param | local
  | temp
  | intConst (value : Int)
  | floatConst (value : Double)
  | label
  deriving DecidableEq, Inhabited

structure SymbolEntry where
  name : String
  kind : SymbolKind
  ty : CType
  offset : Option Int
  deriving DecidableEq, Inhabited

structure SymbolTable where
  entries : Array SymbolEntry := #[]
  labels : Nat := 0
  temps : Nat := 0
  passes : Nat := 0
  deriving DecidableEq, Inhabited

namespace SymbolTable

def size (t : SymbolTable) : Nat := t.entries.size

def entry (t : SymbolTable) (s : Symbol) : SymbolEntry := t.entries.getD s.index default

def name (t : SymbolTable) (s : Symbol) : String := (t.entry s).name

def kind (t : SymbolTable) (s : Symbol) : SymbolKind := (t.entry s).kind

def ty (t : SymbolTable) (s : Symbol) : CType := (t.entry s).ty

def offset (t : SymbolTable) (s : Symbol) : Option Int := (t.entry s).offset

def setOffset (t : SymbolTable) (s : Symbol) (offset : Int) : SymbolTable :=
  { t with entries := t.entries.modify s.index fun e => { e with offset := some offset } }

def push (t : SymbolTable) (name : String) (kind : SymbolKind) (ty : CType) :
    Symbol × SymbolTable :=
  (⟨t.size⟩, { t with entries := t.entries.push ⟨name, kind, ty, none⟩ })

def global (t : SymbolTable) (name : String) (ty : CType) : Symbol × SymbolTable :=
  t.push name .global ty

def function (t : SymbolTable) (name : String) (ret : CType) : Symbol × SymbolTable :=
  t.push name .function ret

def param (t : SymbolTable) (name : String) (ty : CType) : Symbol × SymbolTable :=
  t.push name .param ty

def localVar (t : SymbolTable) (name : String) (ty : CType) : Symbol × SymbolTable :=
  t.push name .local ty

def temp (t : SymbolTable) (ty : CType) : Symbol × SymbolTable :=
  { t with temps := t.temps + 1 }.push s!".t{t.temps}" .temp ty

def label (t : SymbolTable) : Symbol × SymbolTable :=
  { t with labels := t.labels + 1 }.push s!".L{t.labels}" .label .void

def find? (t : SymbolTable) (kind : SymbolKind) (ty : CType) : Option Symbol :=
  (t.entries.findIdx? fun e => decide (e.kind = kind ∧ e.ty = ty)).map Symbol.mk

/-- Equal constants of equal type share a symbol. -/
def intern (t : SymbolTable) (name : String) (kind : SymbolKind) (ty : CType) :
    Symbol × SymbolTable :=
  match t.find? kind ty with
  | some s => (s, t)
  | none => t.push name kind ty

def intConst (t : SymbolTable) (value : Int) (ty : CType) : Symbol × SymbolTable :=
  t.intern (toString value) (.intConst value) ty

/-- Floating constants are told apart by their bits and named by their shortest decimal. -/
def floatConst (t : SymbolTable) (value : Double) (ty : CType) : Symbol × SymbolTable :=
  t.intern (value.render Double.constantName) (.floatConst value) ty

/-- Begins a lowering pass; passes count from one. -/
def nextPass (t : SymbolTable) : Nat × SymbolTable :=
  (t.passes + 1, { t with passes := t.passes + 1 })

def isFrameResident (t : SymbolTable) (s : Symbol) : Bool :=
  match t.kind s with
  | .param | .local | .temp => true
  | _ => false

/-- The first global or function of a name. -/
def lookup? (t : SymbolTable) (name : String) : Option Symbol :=
  (t.entries.findIdx? fun e =>
    e.name == name && decide (e.kind = .global ∨ e.kind = .function)).map Symbol.mk

def globals (t : SymbolTable) : List Symbol :=
  ((List.range t.size).map Symbol.mk).filter fun s => decide (t.kind s = .global)

@[simp] theorem size_push (t : SymbolTable) (name : String) (kind : SymbolKind) (ty : CType) :
    (t.push name kind ty).2.size = t.size + 1 := by
  simp [push, size]

@[simp] theorem size_setOffset (t : SymbolTable) (s : Symbol) (offset : Int) :
    (t.setOffset s offset).size = t.size := by
  simp [setOffset, size]

end SymbolTable

end CBackend
