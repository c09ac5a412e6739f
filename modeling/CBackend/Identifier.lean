/-!
Identities handed from one part of the back end to the next: symbols of the table, nodes of the
linear code and nodes of the value pool. Each is a position in the structure that issued it.
-/

namespace CBackend

structure Symbol where
  index : Nat
  deriving DecidableEq, Repr, Inhabited, Hashable

/-- A node of the linear code of one function. -/
structure LinId where
  index : Nat
  deriving DecidableEq, Repr, Inhabited

/-- A numbered value of one function. -/
structure NodeId where
  index : Nat
  deriving DecidableEq, Repr, Inhabited

namespace Symbol

def display (s : Symbol) : String := s!"${s.index}"

def diagnostic (s : Symbol) : String := s!"Symbol({s.index})"

end Symbol

def NodeId.diagnostic (n : NodeId) : String := s!"NodeId({n.index})"

def optionDiagnostic {α : Type} (spell : α → String) : Option α → String
  | none => "None"
  | some a => s!"Some({spell a})"

end CBackend
