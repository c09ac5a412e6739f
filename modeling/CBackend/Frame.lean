import CBackend.CompileError
import CBackend.SymbolTable

/-!
The frame of a function. Parameters stand above the frame pointer, locals and temporaries below it.
The entries record the layout in allocation order; leaving a block gives its slots back, so sibling
blocks share storage, but a temporary whose owner is still referred to stays. Offsets from the frame
pointer are signed 32-bit numbers and wrap around where a frame is larger than they reach. The
counters themselves do not wrap around: a frame in which one has overflowed stands for nothing, and
there the compiler aborts.
-/

namespace CBackend

/-- The first parameter lies above the saved frame pointer and the return address. -/
def firstParamOffset : Int := 8

/-- Frame slots come in units of four bytes; nothing takes less than one. -/
def roundToSlot (size : Nat) : Nat := (max size 1 + 3) / 4 * 4

theorem roundToSlot_pos (size : Nat) : 0 < roundToSlot size := by
  unfold roundToSlot; omega

theorem le_roundToSlot (size : Nat) : size ≤ roundToSlot size := by
  unfold roundToSlot; omega

theorem four_dvd_roundToSlot (size : Nat) : 4 ∣ roundToSlot size := ⟨_, Nat.mul_comm _ _⟩

def wrapOffset (distance : Int) : Int := distance.bmod 0x100000000

theorem wrapOffset_of_fits {distance : Int} (low : -0x80000000 ≤ distance)
    (high : distance < 0x80000000) :
    wrapOffset distance = distance := by
  unfold wrapOffset
  apply Int.bmod_eq_of_le <;> omega

def depthOf (offset : Int) : Nat := (-offset % 0x100000000).toNat

/-- A temporary slot. It is free once its owner is no longer referred to. -/
structure TempSlot where
  offset : Int
  size : Nat
  owner : NodeId
  ownerLastRef : Nat
  deriving DecidableEq, Repr, Inhabited

inductive FrameEntry where
  | block (level cursor : Nat)
  | local (sym : Symbol) (offset : Int)
  | temp (slot : TempSlot)
  deriving DecidableEq, Repr, Inhabited

structure Frame where
  entries : List FrameEntry := []
  cursor : Nat := 0
  maxSize : Nat := 0
  nextParam : Int := firstParamOffset
  overflowed : Bool := false
  deriving DecidableEq, Repr, Inhabited

namespace Frame

/-- A cursor has 32 bits, and the one whose offset is the least number has no negative. -/
def overflows (cursor : Nat) : Bool := decide (cursor = 0x80000000 ∨ 0x100000000 ≤ cursor)

/-- Takes fresh bytes below everything in use. -/
def bump (f : Frame) (size : Nat) : Int × Frame :=
  let cursor := f.cursor + roundToSlot size
  (wrapOffset (-cursor), { f with
    cursor
    maxSize := max f.maxSize cursor
    overflowed := f.overflowed || overflows cursor })

def bindParam (f : Frame) (sym : Symbol) (symbols : SymbolTable) : Int × Frame × SymbolTable :=
  let offset := f.nextParam
  let size := roundToSlot (symbols.ty sym).size
  (offset, { f with
    nextParam := wrapOffset (offset + size)
    overflowed := f.overflowed || decide (wrapOffset (offset + size) ≠ offset + wrapOffset size) },
    symbols.setOffset sym offset)

def declareLocal (f : Frame) (sym : Symbol) (symbols : SymbolTable) : Int × Frame × SymbolTable :=
  let (offset, f) := f.bump (symbols.ty sym).size
  (offset, { f with entries := f.entries ++ [.local sym offset] }, symbols.setOffset sym offset)

def enterBlock (f : Frame) (level : Nat) : Frame :=
  { f with entries := f.entries ++ [.block level f.cursor] }

def TempSlot.reusable (slot : TempSlot) (seq size : Nat) : Bool :=
  decide (size ≤ slot.size ∧ slot.ownerLastRef < seq)

/-- Gives the first reusable slot to a new owner. -/
def reuse (seq size : Nat) (owner : NodeId) (lastRef : Nat) :
    List FrameEntry → Option (Int × List FrameEntry)
  | [] => none
  | .temp slot :: rest =>
    if TempSlot.reusable slot seq size then
      some (slot.offset, .temp { slot with owner, ownerLastRef := lastRef } :: rest)
    else (reuse seq size owner lastRef rest).map fun (offset, es) => (offset, .temp slot :: es)
  | e :: rest => (reuse seq size owner lastRef rest).map fun (offset, es) => (offset, e :: es)

/-- Finds a slot of at least `size` bytes for a value: one whose owner was last referred to before
`seq`, or else a new one. -/
def allocTemp (f : Frame) (seq : Nat) (owner : NodeId) (size lastRef : Nat) : Int × Frame :=
  let size := roundToSlot size
  match reuse seq size owner lastRef f.entries with
  | some (offset, entries) => (offset, { f with entries })
  | none =>
    let (offset, f) := f.bump size
    (offset, { f with entries := f.entries ++ [.temp ⟨offset, size, owner, lastRef⟩] })

/-- Pops entries, latest first, down to the marker of `level`. Returns the temporaries still
referred to at `seq`, earliest first, with the marker's cursor, and the entries that remain; on
failure the entries popped so far are gone. -/
def popTo (level seq : Nat) :
    (latestFirst : List FrameEntry) → (kept : List TempSlot) →
    Except Violation (List TempSlot × Nat) × List FrameEntry
  | [], _ => (.error (.noBlockMarker level), [])
  | .block l cursor :: rest, kept =>
    if l = level then (.ok (kept, cursor), rest) else (.error (.unclosedBlock level l), rest)
  | .local .. :: rest, kept => popTo level seq rest kept
  | .temp slot :: rest, kept =>
    popTo level seq rest (if seq ≤ slot.ownerLastRef then slot :: kept else kept)

/-- Leaves a block: its slots are given back down to the lowest temporary still referred to. -/
def leaveBlock (f : Frame) (level seq : Nat) : Except Violation Unit × Frame :=
  match popTo level seq f.entries.reverse [] with
  | (.error e, rest) => (.error e, { f with entries := rest.reverse })
  | (.ok (kept, cursor), rest) =>
    (.ok (), { f with
      entries := rest.reverse ++ kept.map .temp
      cursor := kept.foldl (fun c slot => max c (depthOf slot.offset)) cursor })

def tempCount (f : Frame) : Nat :=
  f.entries.countP fun
    | .temp _ => true
    | _ => false

end Frame

end CBackend
