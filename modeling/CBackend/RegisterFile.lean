import CBackend.Identifier
import CBackend.Register

/-!
The register file: what each register holds. A register is held by parts of values; part zero is
the whole value or its low half, part one the high half. It remembers the latest code that refers
to any of them, and how often it is pinned while operands are being gathered. The frame and stack
pointer are reserved: they are never handed out.
-/

namespace CBackend

inductive RegState where
  | reserved | free | inUse
  deriving DecidableEq, Repr, Inhabited

/-- A part of a value that lives in a register. -/
structure RegUser where
  node : NodeId
  part : Nat
  lastRef : Nat
  deriving DecidableEq, Repr, Inhabited

def RegUser.is (u : RegUser) (node : NodeId) (part : Nat) : Bool :=
  decide (u.node = node ∧ u.part = part)

structure RegDescriptor where
  state : RegState
  users : List RegUser := []
  maxLastRef : Nat := 0
  pins : Nat := 0
  deriving DecidableEq, Repr

instance : Inhabited RegDescriptor := ⟨{ state := .reserved }⟩

inductive RegChoice where
  | available (r : Reg)
  | evict (r : Reg)
  deriving DecidableEq, Repr

/-- A pin counter is one byte. -/
def mostPins : Nat := 255

/-- Why the register file cannot go on at all. This is no error: nothing is reported. -/
inductive RegisterAbort where
  | pinOverflow (r : Reg)
  deriving DecidableEq, Repr

inductive RegisterError where
  | noneAvailable (candidates : RegMask)
  | reserved (r : Reg)
  | notAssociated (r : Reg) (node : NodeId) (part : Nat)
  | pinUnderflow (r : Reg)
  | aborted (cause : RegisterAbort)
  deriving DecidableEq, Repr

@[match_pattern]
abbrev RegisterError.pinOverflow (r : Reg) : RegisterError := .aborted (.pinOverflow r)

def RegisterAbort.message : RegisterAbort → String
  | pinOverflow r => s!"pin count of register {r.diagnostic} out of range"

def RegisterError.message : RegisterError → String
  | noneAvailable candidates =>
    s!"no allocatable register among candidates {candidates.diagnostic}"
  | reserved r => s!"register {r.diagnostic} is reserved"
  | notAssociated r node part =>
    s!"node {node.diagnostic} part {part} is not associated with register {r.diagnostic}"
  | pinUnderflow r => s!"register {r.diagnostic} unpinned more often than pinned"
  | aborted cause => s!"aborted: {cause.message}"

structure RegisterFile where
  regs : Vector RegDescriptor Reg.count
  pinLimit : Option Nat := some mostPins
  deriving DecidableEq

namespace RegisterFile

/-- The descriptor of a register; a number beyond the last register reads as reserved. -/
def get (f : RegisterFile) (r : Reg) : RegDescriptor :=
  if h : r.number < Reg.count then f.regs[r.number] else default

def set (f : RegisterFile) (r : Reg) (d : RegDescriptor) : RegisterFile :=
  if h : r.number < Reg.count then { f with regs := f.regs.set r.number d } else f

/-- All registers free but the frame and stack pointer. -/
def init : RegisterFile where
  regs := Vector.ofFn fun r =>
    { state := if r.val = Reg.ebp.number ∨ r.val = Reg.esp.number then .reserved else .free }

instance : Inhabited RegisterFile := ⟨init⟩

def state (f : RegisterFile) (r : Reg) : RegState := (f.get r).state

def users (f : RegisterFile) (r : Reg) : List RegUser := (f.get r).users

def maxLastRef (f : RegisterFile) (r : Reg) : Nat := (f.get r).maxLastRef

def isPinned (f : RegisterFile) (r : Reg) : Bool := decide (0 < (f.get r).pins)

def select (f : RegisterFile) (test : RegState → Bool) : RegMask :=
  RegMask.ofList (Reg.all.filter fun r => test (f.state r))

def allocatable (f : RegisterFile) : RegMask := f.select (· != .reserved)

def inUse (f : RegisterFile) : RegMask := f.select (· == .inUse)

/-- The candidates that are neither reserved nor pinned, in ascending order. -/
def usable (f : RegisterFile) (candidates : RegMask) : List Reg :=
  candidates.toList.filter fun r => f.state r != .reserved && !f.isPinned r

/-- The register referred to furthest ahead; the first of several. -/
def furthest (f : RegisterFile) : List Reg → Option Reg
  | [] => none
  | r :: rest =>
    some (rest.foldl (fun best s => if f.maxLastRef best < f.maxLastRef s then s else best) r)

/-- Chooses a register for a value computed at `seq`: a free one, else one whose values were last
referred to before `seq`, else the one referred to furthest ahead, which has to be evicted. -/
def choose (f : RegisterFile) (candidates : RegMask) (seq : Nat) :
    Except RegisterError RegChoice :=
  let usable := f.usable candidates
  match usable.find? fun r => f.state r == .free with
  | some r => .ok (.available r)
  | none =>
    match usable.find? fun r => decide (f.maxLastRef r < seq) with
    | some r => .ok (.available r)
    | none =>
      match f.furthest usable with
      | some r => .ok (.evict r)
      | none => .error (.noneAvailable candidates)

def associate (f : RegisterFile) (r : Reg) (node : NodeId) (part lastRef : Nat) :
    Except RegisterError RegisterFile :=
  let d := f.get r
  if d.state = .reserved then .error (.reserved r)
  else
    let users :=
      if d.users.any (·.is node part) then d.users else d.users ++ [⟨node, part, lastRef⟩]
    .ok (f.set r { d with users, maxLastRef := max d.maxLastRef lastRef, state := .inUse })

/-- Removes one part; with its last user a register becomes free. -/
def dissociate (f : RegisterFile) (r : Reg) (node : NodeId) (part : Nat) :
    Except RegisterError RegisterFile :=
  let d := f.get r
  if d.users.any (·.is node part) then
    let users := d.users.filter fun u => !u.is node part
    .ok (f.set r { d with
      users
      maxLastRef := (users.map RegUser.lastRef).foldl max 0
      state := if users.isEmpty then .free else d.state })
  else .error (.notAssociated r node part)

def clear (f : RegisterFile) (r : Reg) : List RegUser × RegisterFile :=
  let d := f.get r
  if d.state = .reserved then ([], f)
  else (d.users, f.set r { d with state := .free, users := [], maxLastRef := 0 })

def find? (f : RegisterFile) (node : NodeId) (part : Nat) : Option Reg :=
  Reg.all.find? fun r => (f.users r).any (·.is node part)

def pin (f : RegisterFile) (r : Reg) : Except RegisterError RegisterFile :=
  let d := f.get r
  if f.pinLimit = some d.pins then .error (.pinOverflow r)
  else .ok (f.set r { d with pins := d.pins + 1 })

def unpin (f : RegisterFile) (r : Reg) : Except RegisterError RegisterFile :=
  let d := f.get r
  if d.pins = 0 then .error (.pinUnderflow r)
  else .ok (f.set r { d with pins := d.pins - 1 })

/-- Forgets every value and pin; reserved registers stay reserved. -/
def reset (f : RegisterFile) : RegisterFile where
  regs := f.regs.map fun d => { state := if d.state = .reserved then .reserved else .free }

@[simp] theorem get_set_self (f : RegisterFile) {r : Reg} (inside : r.number < Reg.count)
    (d : RegDescriptor) : (f.set r d).get r = d := by
  simp [get, set, inside]

@[simp] theorem get_set_other (f : RegisterFile) {r s : Reg} (distinct : r ≠ s)
    (d : RegDescriptor) : (f.set r d).get s = f.get s := by
  unfold get set
  have apart : r.number ≠ s.number := fun h => distinct (by cases r; cases s; simp_all)
  by_cases inside : r.number < Reg.count
  · by_cases there : s.number < Reg.count
    · simp [inside, there, apart]
    · simp [there]
  · simp [inside]

end RegisterFile

end CBackend
