import CBackend.Frame
import CBackend.Proofs.Offsets

/-!
The layout of a frame. Entries lie below one another in the order in which they were made, and the
marker of a block lies between what was made before the block and what is made in it. Leaving a
block takes entries away and gives others to new owners, but moves none, so this order lasts
through every run of operations, and with it no two slots ever share a byte.
-/

namespace CBackend

structure Extent where
  offset : Int
  size : Nat
  deriving DecidableEq, Repr

namespace Extent

def Covers (e : Extent) (byte : Int) : Prop := e.offset ≤ byte ∧ byte < e.offset + e.size

def Apart (a b : Extent) : Prop := ∀ byte, ¬ (a.Covers byte ∧ b.Covers byte)

variable {a b : Extent}

theorem apart_of_le (below : b.offset + b.size ≤ a.offset) : a.Apart b := by
  rintro byte ⟨inA, inB⟩
  unfold Covers at inA inB
  omega

theorem Apart.symm (apart : a.Apart b) : b.Apart a := fun byte both => apart byte both.symm

theorem Apart.shrink {size : Nat} (apart : a.Apart b) (le : size ≤ a.size) :
    Extent.Apart ⟨a.offset, size⟩ b := by
  rintro byte ⟨⟨low, high⟩, inB⟩
  refine apart byte ⟨⟨low, ?_⟩, inB⟩
  dsimp only at high
  omega

end Extent

def TempSlot.extent (slot : TempSlot) : Extent := ⟨slot.offset, slot.size⟩

def FrameEntry.extent? (symbols : SymbolTable) : FrameEntry → Option Extent
  | .block .. => none
  | .local sym offset => some ⟨offset, roundToSlot (symbols.ty sym).size⟩
  | .temp slot => some slot.extent

/-- A frame between two operations, with the symbols it gives offsets to and the bytes that
parameters have been given so far. -/
structure FrameHistory where
  frame : Frame
  symbols : SymbolTable
  params : List Extent

inductive FrameOp where
  | bindParam (sym : Symbol)
  | enterBlock (level : Nat)
  | leaveBlock (level seq : Nat)
  | declareLocal (sym : Symbol)
  | allocTemp (seq : Nat) (owner : NodeId) (size lastRef : Nat)

namespace FrameHistory

def start (symbols : SymbolTable) : FrameHistory := ⟨{}, symbols, []⟩

/-- The bytes of all locals and temporaries, in the order of their entries. -/
def extents (s : FrameHistory) : List Extent :=
  s.frame.entries.filterMap (FrameEntry.extent? s.symbols)

end FrameHistory

namespace FrameOp

/-- The frame after an operation that succeeds. An operation whose sums leave the signed 32-bit
numbers has no result here. -/
def run (s : FrameHistory) : FrameOp → Option FrameHistory
  | .bindParam sym =>
    let size := roundToSlot (s.symbols.ty sym).size
    let (offset, frame, symbols) := s.frame.bindParam sym s.symbols
    if offset + size < 0x80000000 then some ⟨frame, symbols, s.params ++ [⟨offset, size⟩]⟩ else none
  | .enterBlock level => some { s with frame := s.frame.enterBlock level }
  | .leaveBlock level seq =>
    match s.frame.leaveBlock level seq with
    | (.ok (), frame) => some { s with frame }
    | (.error _, _) => none
  | .declareLocal sym =>
    let (_, frame, symbols) := s.frame.declareLocal sym s.symbols
    if frame.cursor < 0x80000000 then some { s with frame, symbols } else none
  | .allocTemp seq owner size lastRef =>
    let (_, frame) := s.frame.allocTemp seq owner size lastRef
    if frame.cursor < 0x80000000 then some { s with frame } else none

/-- The bytes below the frame pointer that an operation hands out. -/
def grant? (s : FrameHistory) : FrameOp → Option Extent
  | .declareLocal sym =>
    some ⟨(s.frame.declareLocal sym s.symbols).1, roundToSlot (s.symbols.ty sym).size⟩
  | .allocTemp seq owner size lastRef =>
    some ⟨(s.frame.allocTemp seq owner size lastRef).1, roundToSlot size⟩
  | .bindParam _ | .enterBlock _ | .leaveBlock .. => none

/-- The operation drops the slot or hands it to another owner, which takes an owner that is no
longer referred to. -/
def Releases (slot : TempSlot) (s : FrameHistory) : FrameOp → Prop
  | .leaveBlock level seq =>
    slot.ownerLastRef < seq ∧ .temp slot ∉ (s.frame.leaveBlock level seq).2.entries
  | .allocTemp seq owner size lastRef =>
    slot.ownerLastRef < seq ∧ (s.frame.allocTemp seq owner size lastRef).1 = slot.offset
  | .bindParam _ | .enterBlock _ | .declareLocal _ => False

instance (slot : TempSlot) (s : FrameHistory) : ∀ op : FrameOp, Decidable (op.Releases slot s)
  | .leaveBlock .. | .allocTemp .. => inferInstanceAs (Decidable (_ ∧ _))
  | .bindParam _ | .enterBlock _ | .declareLocal _ => inferInstanceAs (Decidable False)

def runs : List FrameOp → FrameHistory → Option FrameHistory
  | [], s => some s
  | op :: ops, s => (op.run s).bind (runs ops)

def grants : List FrameOp → FrameHistory → List Extent
  | [], _ => []
  | op :: ops, s => (op.grant? s).toList ++ ((op.run s).map (grants ops)).getD []

def Spares (slot : TempSlot) : List FrameOp → FrameHistory → Prop
  | [], _ => True
  | op :: ops, s => ¬ op.Releases slot s ∧ ∀ s' ∈ op.run s, Spares slot ops s'

instance (slot : TempSlot) : ∀ ops s, Decidable (Spares slot ops s)
  | [], _ => .isTrue trivial
  | op :: ops, s =>
    have _later (s' : FrameHistory) : Decidable (Spares slot ops s') := instDecidableSpares slot ops s'
    inferInstanceAs (Decidable (¬ op.Releases slot s ∧ ∀ s' ∈ op.run s, Spares slot ops s'))

end FrameOp

/-- The frame is laid out soundly: no two slots share a byte, each lies in the bytes in use, and
each parameter has bytes of its own above the return address. -/
structure FrameHistory.LaidOut (s : FrameHistory) : Prop where
  apart : s.extents.Pairwise Extent.Apart
  aligned : ∀ e ∈ s.extents, (4 : Int) ∣ e.offset ∧ 4 ∣ e.size
  inside : ∀ e ∈ s.extents, -s.frame.cursor ≤ e.offset ∧ e.offset + e.size ≤ 0
  most : s.frame.cursor ≤ s.frame.maxSize
  markers : ∀ below level (cursor : Nat) above,
    s.frame.entries = below ++ .block level cursor :: above →
    ∀ e ∈ below.filterMap (FrameEntry.extent? s.symbols), -(cursor : Int) ≤ e.offset
  paramsApart : s.params.Pairwise Extent.Apart
  paramsAbove : ∀ e ∈ s.params, firstParamOffset ≤ e.offset

namespace Frame

/-- Entries lie below one another, between the depths `top` and `bottom`. -/
inductive Stacked (symbols : SymbolTable) : Nat → List FrameEntry → Nat → Prop
  | nil {top bottom : Nat} (le : top ≤ bottom) : Stacked symbols top [] bottom
  | block {top bottom level cursor : Nat} {entries : List FrameEntry} (le : top ≤ cursor)
      (aligned : 4 ∣ cursor) (later : Stacked symbols cursor entries bottom) :
      Stacked symbols top (.block level cursor :: entries) bottom
  | slot {top bottom upper size : Nat} {e : FrameEntry} {entries : List FrameEntry}
      (extent : e.extent? symbols = some ⟨-((upper + size : Nat) : Int), size⟩) (le : top ≤ upper)
      (aligned : 4 ∣ upper + size) (units : 4 ∣ size)
      (later : Stacked symbols (upper + size) entries bottom) :
      Stacked symbols top (e :: entries) bottom

namespace Stacked

variable {symbols : SymbolTable} {top bottom : Nat} {entries : List FrameEntry}

theorem le (stacked : Stacked symbols top entries bottom) : top ≤ bottom := by
  induction stacked with
  | nil le => exact le
  | block le _ _ ih => exact Nat.le_trans le ih
  | slot _ le _ _ _ ih => omega

theorem append_iff {first second : List FrameEntry} :
    Stacked symbols top (first ++ second) bottom ↔
      ∃ middle, Stacked symbols top first middle ∧ Stacked symbols middle second bottom := by
  constructor
  · intro stacked
    induction first generalizing top with
    | nil => exact ⟨top, .nil (Nat.le_refl _), stacked⟩
    | cons e first ih =>
      cases stacked with
      | block le aligned later =>
        obtain ⟨middle, before, after⟩ := ih later
        exact ⟨middle, .block le aligned before, after⟩
      | slot extent le aligned units later =>
        obtain ⟨middle, before, after⟩ := ih later
        exact ⟨middle, .slot extent le aligned units before, after⟩
  · rintro ⟨middle, before, after⟩
    induction before with
    | nil le =>
      cases after with
      | nil le' => exact .nil (Nat.le_trans le le')
      | block le' aligned later => exact .block (Nat.le_trans le le') aligned later
      | slot extent le' aligned units later => exact .slot extent (Nat.le_trans le le') aligned units later
    | block le aligned _ ih => exact .block le aligned (ih after)
    | slot extent le aligned units _ ih => exact .slot extent le aligned units (ih after)

theorem raise {top' : Nat} (le : top' ≤ top) (stacked : Stacked symbols top entries bottom) :
    Stacked symbols top' entries bottom :=
  show Stacked symbols top' ([] ++ entries) bottom from append_iff.mpr ⟨top, .nil le, stacked⟩

theorem push {e : FrameEntry} {size : Nat} (stacked : Stacked symbols top entries bottom)
    (extent : e.extent? symbols = some ⟨-((bottom + size : Nat) : Int), size⟩)
    (aligned : 4 ∣ bottom + size) (units : 4 ∣ size) :
    Stacked symbols top (entries ++ [e]) (bottom + size) :=
  append_iff.mpr ⟨bottom, stacked, .slot extent (Nat.le_refl _) aligned units (.nil (Nat.le_refl _))⟩

theorem within (stacked : Stacked symbols top entries bottom) {e : Extent}
    (taken : e ∈ entries.filterMap (FrameEntry.extent? symbols)) :
    -(bottom : Int) ≤ e.offset ∧ e.offset + e.size ≤ -top ∧ (4 : Int) ∣ e.offset ∧ 4 ∣ e.size := by
  induction stacked with
  | nil => cases taken
  | block le _ _ ih =>
    have inside := ih taken
    omega
  | slot extent le aligned units later ih =>
    rw [List.filterMap_cons_some extent] at taken
    obtain rfl | taken := List.mem_cons.mp taken
    · have := later.le
      refine ⟨by dsimp only; omega, by dsimp only; omega, ?_, units⟩
      exact (Int.dvd_neg).mpr (by exact_mod_cast aligned)
    · have inside := ih taken
      omega

theorem apart (stacked : Stacked symbols top entries bottom) :
    (entries.filterMap (FrameEntry.extent? symbols)).Pairwise Extent.Apart := by
  induction stacked with
  | nil => exact .nil
  | block _ _ _ ih => exact ih
  | slot extent le aligned units later ih =>
    rw [List.filterMap_cons_some extent]
    exact List.pairwise_cons.mpr
      ⟨fun e taken => Extent.apart_of_le (by have := later.within taken; dsimp only; omega), ih⟩

theorem apart_of_mem {before after : List FrameEntry} {e e' : FrameEntry} {x y : Extent}
    (stacked : Stacked symbols top (before ++ e :: after) bottom) (taken : e.extent? symbols = some x)
    (other : e' ∈ before ++ after) (taken' : e'.extent? symbols = some y) : x.Apart y := by
  have pairs := stacked.apart
  rw [List.filterMap_append, List.filterMap_cons_some taken] at pairs
  obtain ⟨-, later, across⟩ := List.pairwise_append.mp pairs
  obtain first | last := List.mem_append.mp other
  · exact (across y (List.mem_filterMap.mpr ⟨e', first, taken'⟩) x List.mem_cons_self).symm
  · exact (List.pairwise_cons.mp later).1 y (List.mem_filterMap.mpr ⟨e', last, taken'⟩)

theorem setOffset {sym : Symbol} {offset : Int} (stacked : Stacked symbols top entries bottom) :
    Stacked (symbols.setOffset sym offset) top entries bottom := by
  have same (e : FrameEntry) : e.extent? (symbols.setOffset sym offset) = e.extent? symbols := by
    cases e <;> simp [FrameEntry.extent?]
  induction stacked with
  | nil le => exact .nil le
  | block le aligned _ ih => exact .block le aligned ih
  | slot extent le aligned units _ ih => exact .slot ((same _).trans extent) le aligned units ih

theorem replace {before after : List FrameEntry} {e e' : FrameEntry}
    (same : e'.extent? symbols = e.extent? symbols) (taken : e.extent? symbols ≠ none)
    (stacked : Stacked symbols top (before ++ e :: after) bottom) :
    Stacked symbols top (before ++ e' :: after) bottom := by
  obtain ⟨middle, first, rest⟩ := append_iff.mp stacked
  refine append_iff.mpr ⟨middle, first, ?_⟩
  cases rest with
  | block => exact absurd rfl taken
  | slot extent le aligned units later => exact .slot (same.trans extent) le aligned units later

end Stacked

def survivor? (seq : Nat) : FrameEntry → Option TempSlot
  | .temp slot => if seq ≤ slot.ownerLastRef then some slot else none
  | .block .. | .local .. => none

theorem popTo_eq_ok {level seq cursor : Nat} {latestFirst rest : List FrameEntry}
    {kept slots : List TempSlot}
    (popped : popTo level seq latestFirst kept = (.ok (slots, cursor), rest)) :
    ∃ inner, latestFirst = inner ++ .block level cursor :: rest ∧
      slots = inner.reverse.filterMap (survivor? seq) ++ kept := by
  fun_induction popTo level seq latestFirst kept with
  | case1 => cases popped
  | case2 => cases popped; exact ⟨[], rfl, rfl⟩
  | case3 => cases popped
  | case4 sym offset later kept ih =>
    obtain ⟨inner, rfl, rfl⟩ := ih popped
    exact ⟨.local sym offset :: inner, rfl, by simp [survivor?]⟩
  | case5 slot later kept ih =>
    obtain ⟨inner, rfl, rfl⟩ := ih popped
    refine ⟨.temp slot :: inner, rfl, ?_⟩
    by_cases alive : seq ≤ slot.ownerLastRef <;> simp [survivor?, alive]

/-- What leaving a block does: the entries made in it go, except the temporaries still referred
to, and the cursor goes back to the lowest byte still in use. -/
theorem leaveBlock_eq_ok {f f' : Frame} {level seq : Nat}
    (done : f.leaveBlock level seq = (.ok (), f')) :
    ∃ outer cursor inner, f.entries = outer ++ .block level cursor :: inner ∧
      f' = { f with
        entries := outer ++ (inner.filterMap (survivor? seq)).map .temp
        cursor := (inner.filterMap (survivor? seq)).foldl
          (fun c slot => max c (depthOf slot.offset)) cursor } := by
  unfold leaveBlock at done
  split at done
  · cases done
  · rename_i kept cursor rest popped
    cases done
    obtain ⟨inner, whole, rfl⟩ := popTo_eq_ok popped
    refine ⟨rest.reverse, cursor, inner.reverse, ?_, by rw [List.append_nil]⟩
    rw [← List.reverse_reverse f.entries, whole]
    simp

theorem Stacked.survivors {symbols : SymbolTable} {top bottom : Nat} {entries : List FrameEntry}
    (stacked : Stacked symbols top entries bottom) (seq : Nat) (small : bottom < 0x80000000)
    {cursor : Nat} (le : cursor ≤ top) (start : 4 ∣ cursor) :
    let kept := entries.filterMap (survivor? seq)
    let lowest := kept.foldl (fun c slot => max c (depthOf slot.offset)) cursor
    Stacked symbols cursor (kept.map .temp) lowest ∧ 4 ∣ lowest ∧ lowest ≤ bottom := by
  induction stacked generalizing cursor with
  | nil le' => exact ⟨.nil (Nat.le_refl _), start, Nat.le_trans le le'⟩
  | block le' _ _ ih => exact ih small (Nat.le_trans le le') start
  | @slot top bottom upper size e entries extent le' aligned units later ih =>
    cases survives : survivor? seq e with
    | none =>
      rw [List.filterMap_cons_none survives]
      exact ih small (by omega) start
    | some slot =>
      obtain rfl : e = .temp slot := by
        cases e with
        | temp slot' =>
          simp only [survivor?] at survives
          split at survives <;> cases survives
          rfl
        | _ => cases survives
      have place : slot.offset = -((upper + size : Nat) : Int) :=
        congrArg Extent.offset (Option.some.inj extent)
      have deep : depthOf slot.offset = upper + size := by
        have := later.le
        unfold depthOf
        omega
      have lower : max cursor (depthOf slot.offset) = upper + size := by omega
      obtain ⟨placed, whole, bound⟩ := ih small (Nat.le_refl _) aligned
      simp only [List.filterMap_cons_some survives, List.map_cons, List.foldl_cons, lower]
      exact ⟨.slot extent (by omega) aligned units placed, whole, bound⟩

theorem reuse_eq_some {seq size lastRef : Nat} {owner : NodeId} {entries entries' : List FrameEntry}
    {offset : Int} (found : reuse seq size owner lastRef entries = some (offset, entries')) :
    ∃ before slot after, entries = before ++ .temp slot :: after ∧ slot.offset = offset ∧
      size ≤ slot.size ∧ slot.ownerLastRef < seq ∧
      entries' = before ++ .temp { slot with owner, ownerLastRef := lastRef } :: after := by
  fun_induction reuse seq size owner lastRef entries generalizing offset entries' with
  | case1 => cases found
  | case2 slot rest reusable =>
    cases found
    obtain ⟨large, spent⟩ := of_decide_eq_true reusable
    exact ⟨[], slot, rest, rfl, rfl, large, spent, rfl⟩
  | case3 slot' rest _ ih =>
    obtain ⟨⟨_, later⟩, there, same⟩ := Option.map_eq_some_iff.mp found
    cases same
    obtain ⟨before, slot, after, rfl, place, large, spent, rfl⟩ := ih there
    exact ⟨.temp slot' :: before, slot, after, rfl, place, large, spent, rfl⟩
  | case4 e rest _ ih =>
    obtain ⟨⟨_, later⟩, there, same⟩ := Option.map_eq_some_iff.mp found
    cases same
    obtain ⟨before, slot, after, rfl, place, large, spent, rfl⟩ := ih there
    exact ⟨e :: before, slot, after, rfl, place, large, spent, rfl⟩

theorem reuse_eq_none {seq size lastRef : Nat} {owner : NodeId} {entries : List FrameEntry}
    (missed : reuse seq size owner lastRef entries = none) {slot : TempSlot}
    (here : .temp slot ∈ entries) (large : size ≤ slot.size) : seq ≤ slot.ownerLastRef := by
  fun_induction reuse seq size owner lastRef entries with
  | case1 => cases here
  | case2 => cases missed
  | case3 slot' rest unusable ih =>
    obtain same | later := List.mem_cons.mp here
    · cases same
      exact Nat.le_of_not_lt fun spent => unusable (decide_eq_true ⟨large, spent⟩)
    · exact ih (Option.map_eq_none_iff.mp missed) later
  | case4 e rest other ih =>
    obtain same | later := List.mem_cons.mp here
    · exact absurd same.symm (other slot)
    · exact ih (Option.map_eq_none_iff.mp missed) later

theorem roundToSlot_idem (size : Nat) : roundToSlot (roundToSlot size) = roundToSlot size := by
  unfold roundToSlot
  omega

theorem allocTemp_cases (f : Frame) (seq : Nat) (owner : NodeId) (size lastRef : Nat) :
    (∃ before slot after, f.entries = before ++ .temp slot :: after ∧
      roundToSlot size ≤ slot.size ∧ slot.ownerLastRef < seq ∧
      f.allocTemp seq owner size lastRef = (slot.offset, { f with
        entries := before ++ .temp { slot with owner, ownerLastRef := lastRef } :: after })) ∨
    (∀ slot, .temp slot ∈ f.entries → roundToSlot size ≤ slot.size → seq ≤ slot.ownerLastRef) ∧
    let cursor := f.cursor + roundToSlot size
    let offset := wrapOffset (-(cursor : Int))
    f.allocTemp seq owner size lastRef = (offset, { f with
      entries := f.entries ++ [.temp ⟨offset, roundToSlot size, owner, lastRef⟩]
      cursor, maxSize := max f.maxSize cursor
      overflowed := f.overflowed || overflows cursor }) := by
  unfold allocTemp
  dsimp only
  split
  · rename_i offset entries found
    obtain ⟨before, slot, after, whole, rfl, large, spent, rfl⟩ := reuse_eq_some found
    exact .inl ⟨before, slot, after, whole, large, spent, rfl⟩
  · rename_i missed
    refine .inr ⟨fun _ here large => reuse_eq_none missed here large, ?_⟩
    simp only [bump, roundToSlot_idem]

end Frame

namespace FrameOp

variable {s s' : FrameHistory}

theorem run_bindParam {sym : Symbol} (done : (bindParam sym).run s = some s') :
    let size := roundToSlot (s.symbols.ty sym).size
    s.frame.nextParam + size < 0x80000000 ∧
      ∃ overflowed, s' =
        ⟨{ s.frame with nextParam := wrapOffset (s.frame.nextParam + size), overflowed },
          s.symbols.setOffset sym s.frame.nextParam, s.params ++ [⟨s.frame.nextParam, size⟩]⟩ :=
  (Option.ite_none_right_eq_some.mp done).imp_right fun same => ⟨_, (Option.some.inj same).symm⟩

theorem run_leaveBlock {level seq : Nat} (done : (leaveBlock level seq).run s = some s') :
    ∃ frame, s.frame.leaveBlock level seq = (.ok (), frame) ∧ s' = { s with frame } := by
  simp only [run] at done
  split at done
  · rename_i frame left
    exact ⟨frame, left, (Option.some.inj done).symm⟩
  · cases done

theorem run_declareLocal {sym : Symbol} (done : (declareLocal sym).run s = some s') :
    let size := roundToSlot (s.symbols.ty sym).size
    let offset := wrapOffset (-((s.frame.cursor + size : Nat) : Int))
    s.frame.cursor + size < 0x80000000 ∧
      ∃ overflowed, s' = { s with
        symbols := s.symbols.setOffset sym offset
        frame := { s.frame with
          entries := s.frame.entries ++ [.local sym offset]
          cursor := s.frame.cursor + size
          maxSize := max s.frame.maxSize (s.frame.cursor + size)
          overflowed } } :=
  (Option.ite_none_right_eq_some.mp done).imp_right fun same => ⟨_, (Option.some.inj same).symm⟩

theorem run_allocTemp {seq size lastRef : Nat} {owner : NodeId}
    (done : (allocTemp seq owner size lastRef).run s = some s') :
    (s.frame.allocTemp seq owner size lastRef).2.cursor < 0x80000000 ∧
      s' = { s with frame := (s.frame.allocTemp seq owner size lastRef).2 } :=
  (Option.ite_none_right_eq_some.mp done).imp_right fun same => (Option.some.inj same).symm

end FrameOp

namespace FrameHistory

open CBackend.Frame

structure Ordered (s : FrameHistory) : Prop where
  stacked : Stacked s.symbols 0 s.frame.entries s.frame.cursor
  aligned : 4 ∣ s.frame.cursor
  small : s.frame.cursor < 0x80000000
  most : s.frame.cursor ≤ s.frame.maxSize
  params : s.params.Pairwise Extent.Apart
  between : ∀ e ∈ s.params, firstParamOffset ≤ e.offset ∧ e.offset + e.size ≤ s.frame.nextParam
  next : firstParamOffset ≤ s.frame.nextParam

variable {s s' : FrameHistory} {slot : TempSlot}

theorem ordered_start (symbols : SymbolTable) : (start symbols).Ordered where
  stacked := .nil (Nat.le_refl _)
  aligned := ⟨0, rfl⟩
  small := Nat.zero_lt_succ _
  most := Nat.le_refl _
  params := .nil
  between _ member := nomatch member
  next := Int.le_refl _

theorem Ordered.laidOut (ordered : s.Ordered) : s.LaidOut where
  apart := ordered.stacked.apart
  aligned _ taken := (ordered.stacked.within taken).2.2
  inside _ taken := by
    have within := ordered.stacked.within taken
    omega
  most := ordered.most
  markers below level cursor above whole e taken := by
    obtain ⟨middle, before, after⟩ := Stacked.append_iff.mp (whole ▸ ordered.stacked)
    cases after with
    | block le _ _ =>
      have within := before.within taken
      omega
    | slot extent => cases extent
  paramsApart := ordered.params
  paramsAbove e member := (ordered.between e member).1

theorem ordered_bindParam {sym : Symbol} (ordered : s.Ordered)
    (done : (FrameOp.bindParam sym).run s = some s') : s'.Ordered := by
  obtain ⟨fits, _, rfl⟩ := FrameOp.run_bindParam done
  have next := ordered.next
  have after : wrapOffset (s.frame.nextParam + roundToSlot (s.symbols.ty sym).size) =
      s.frame.nextParam + roundToSlot (s.symbols.ty sym).size :=
    wrapOffset_of_fits (by unfold firstParamOffset at next; omega) fits
  refine ⟨ordered.stacked.setOffset, ordered.aligned, ordered.small, ordered.most, ?_, ?_, ?_⟩
  · refine List.pairwise_append.mpr ⟨ordered.params, List.pairwise_singleton _ _, ?_⟩
    intro e member _ last
    cases List.mem_singleton.mp last
    exact (Extent.apart_of_le (ordered.between e member).2).symm
  · intro e member
    rw [after]
    obtain member | last := List.mem_append.mp member
    · have between := ordered.between e member
      dsimp only
      omega
    · cases List.mem_singleton.mp last
      exact ⟨next, Int.le_refl _⟩
  · rw [after]
    dsimp only
    omega

theorem Ordered.push {e : FrameEntry} {size : Nat} {symbols : SymbolTable} (ordered : s.Ordered)
    (types : Stacked symbols 0 s.frame.entries s.frame.cursor)
    (extent : e.extent? symbols =
      some ⟨wrapOffset (-((s.frame.cursor + roundToSlot size : Nat) : Int)), roundToSlot size⟩)
    (fits : s.frame.cursor + roundToSlot size < 0x80000000) (overflowed : Bool) :
    Ordered { s with
      symbols
      frame := { s.frame with
        entries := s.frame.entries ++ [e]
        cursor := s.frame.cursor + roundToSlot size
        maxSize := max s.frame.maxSize (s.frame.cursor + roundToSlot size)
        overflowed } } where
  stacked := by
    rw [wrapOffset_of_fits (by omega) (by omega)] at extent
    exact types.push extent (Nat.dvd_add ordered.aligned (four_dvd_roundToSlot size))
      (four_dvd_roundToSlot size)
  aligned := Nat.dvd_add ordered.aligned (four_dvd_roundToSlot size)
  small := fits
  most := Nat.le_max_right _ _
  params := ordered.params
  between := ordered.between
  next := ordered.next

theorem ordered_leaveBlock {level seq : Nat} (ordered : s.Ordered)
    (done : (FrameOp.leaveBlock level seq).run s = some s') : s'.Ordered := by
  obtain ⟨_, left, rfl⟩ := FrameOp.run_leaveBlock done
  obtain ⟨outer, cursor, inner, whole, rfl⟩ := leaveBlock_eq_ok left
  obtain ⟨middle, before, after⟩ := Stacked.append_iff.mp (whole ▸ ordered.stacked)
  cases after with
  | block le aligned later =>
    obtain ⟨placed, lowest, bound⟩ :=
      later.survivors seq ordered.small (Nat.le_refl _) aligned
    exact { ordered with
      stacked := Stacked.append_iff.mpr ⟨middle, before, placed.raise le⟩
      aligned := lowest
      small := Nat.lt_of_le_of_lt bound ordered.small
      most := Nat.le_trans bound ordered.most }
  | slot extent => cases extent

theorem ordered_allocTemp {seq size lastRef : Nat} {owner : NodeId} (ordered : s.Ordered)
    (done : (FrameOp.allocTemp seq owner size lastRef).run s = some s') : s'.Ordered := by
  obtain ⟨fits, rfl⟩ := FrameOp.run_allocTemp done
  obtain ⟨before, slot, after, whole, -, -, made⟩ | ⟨-, made⟩ :=
    allocTemp_cases s.frame seq owner size lastRef
  · rw [made]
    exact { ordered with
      stacked := (whole ▸ ordered.stacked).replace (e := .temp slot) rfl (Option.some_ne_none _) }
  · rw [made] at fits ⊢
    exact ordered.push ordered.stacked rfl fits _

theorem ordered_run {op : FrameOp} (ordered : s.Ordered) (done : op.run s = some s') :
    s'.Ordered := by
  cases op with
  | bindParam sym => exact ordered_bindParam ordered done
  | enterBlock level =>
    cases done
    exact { ordered with
      stacked := Stacked.append_iff.mpr ⟨_, ordered.stacked,
        .block (Nat.le_refl _) ordered.aligned (.nil (Nat.le_refl _))⟩ }
  | leaveBlock level seq => exact ordered_leaveBlock ordered done
  | declareLocal sym =>
    obtain ⟨fits, _, rfl⟩ := FrameOp.run_declareLocal done
    exact ordered.push ordered.stacked.setOffset
      (by rw [FrameEntry.extent?, SymbolTable.ty_setOffset]) fits _
  | allocTemp seq owner size lastRef => exact ordered_allocTemp ordered done

theorem ordered_runs {ops : List FrameOp} (ordered : s.Ordered)
    (done : FrameOp.runs ops s = some s') : s'.Ordered := by
  induction ops generalizing s with
  | nil =>
    cases done
    exact ordered
  | cons op ops ih =>
    obtain ⟨middle, first, later⟩ := Option.bind_eq_some_iff.mp done
    exact ih (ordered_run ordered first) later

theorem Ordered.apart_fresh {size : Nat} (ordered : s.Ordered) (held : .temp slot ∈ s.frame.entries)
    (fits : s.frame.cursor + roundToSlot size < 0x80000000) :
    Extent.Apart ⟨wrapOffset (-((s.frame.cursor + roundToSlot size : Nat) : Int)), roundToSlot size⟩
      slot.extent := by
  have within := ordered.stacked.within (List.mem_filterMap.mpr ⟨_, held, rfl⟩)
  rw [wrapOffset_of_fits (by omega) (by omega)]
  exact (Extent.apart_of_le (by dsimp only; omega)).symm

theorem Ordered.keeps_slot {op : FrameOp} (ordered : s.Ordered)
    (held : .temp slot ∈ s.frame.entries) (spared : ¬ op.Releases slot s)
    (done : op.run s = some s') :
    .temp slot ∈ s'.frame.entries ∧ ∀ e ∈ op.grant? s, e.Apart slot.extent := by
  cases op with
  | bindParam sym =>
    obtain ⟨-, _, rfl⟩ := FrameOp.run_bindParam done
    exact ⟨held, nofun⟩
  | enterBlock level =>
    cases done
    exact ⟨List.mem_append_left _ held, nofun⟩
  | leaveBlock level seq =>
    obtain ⟨_, left, rfl⟩ := FrameOp.run_leaveBlock done
    refine ⟨Decidable.byContradiction fun dropped => ?_, nofun⟩
    have alive : seq ≤ slot.ownerLastRef :=
      Nat.le_of_not_lt fun spent => spared ⟨spent, left ▸ dropped⟩
    obtain ⟨outer, cursor, inner, whole, rfl⟩ := leaveBlock_eq_ok left
    have survives : survivor? seq (.temp slot) = some slot := if_pos alive
    rw [whole, List.mem_append, List.mem_cons] at held
    refine dropped ?_
    obtain outside | marker | inside := held
    · exact List.mem_append_left _ outside
    · cases marker
    · exact List.mem_append_right _
        (List.mem_map_of_mem (List.mem_filterMap.mpr ⟨_, inside, survives⟩))
  | declareLocal sym =>
    obtain ⟨fits, _, rfl⟩ := FrameOp.run_declareLocal done
    refine ⟨List.mem_append_left _ held, ?_⟩
    rintro e ⟨⟩
    exact ordered.apart_fresh held fits
  | allocTemp seq owner size lastRef =>
    obtain ⟨fits, rfl⟩ := FrameOp.run_allocTemp done
    simp only [FrameOp.Releases] at spared
    simp only [FrameOp.grant?]
    obtain ⟨before, old, after, whole, large, spent, made⟩ | ⟨-, made⟩ :=
      allocTemp_cases s.frame seq owner size lastRef
    · rw [made] at spared ⊢
      have other : .temp slot ∈ before ++ after := by
        rw [whole, List.mem_append, List.mem_cons] at held
        obtain first | here | last := held
        · exact List.mem_append_left _ first
        · cases here
          exact absurd ⟨spent, rfl⟩ spared
        · exact List.mem_append_right _ last
      refine ⟨?_, ?_⟩
      · simp only [List.mem_append, List.mem_cons] at other ⊢
        exact other.imp_right .inr
      · rintro e ⟨⟩
        exact ((whole ▸ ordered.stacked).apart_of_mem (e := .temp old) rfl other rfl).shrink large
    · rw [made] at fits ⊢
      refine ⟨List.mem_append_left _ held, ?_⟩
      rintro e ⟨⟩
      exact ordered.apart_fresh held fits

theorem Ordered.keeps_slot_runs {ops : List FrameOp} (ordered : s.Ordered)
    (held : .temp slot ∈ s.frame.entries) (spared : FrameOp.Spares slot ops s)
    (done : FrameOp.runs ops s = some s') :
    .temp slot ∈ s'.frame.entries ∧ ∀ e ∈ FrameOp.grants ops s, e.Apart slot.extent := by
  induction ops generalizing s with
  | nil =>
    cases done
    exact ⟨held, nofun⟩
  | cons op ops ih =>
    obtain ⟨middle, first, later⟩ := Option.bind_eq_some_iff.mp done
    obtain ⟨still, apart⟩ := ordered.keeps_slot held spared.1 first
    obtain ⟨last, aparts⟩ := ih (ordered_run ordered first) still (spared.2 middle first) later
    refine ⟨last, fun e granted => ?_⟩
    simp only [FrameOp.grants, first, Option.map_some, Option.getD_some, List.mem_append,
      Option.mem_toList] at granted
    exact granted.elim (apart e) (aparts e)

end FrameHistory

open FrameHistory in
/-- No two slots of a frame ever share a byte. After any run of operations the frame is laid
out soundly. A temporary still referred to when a block is left keeps its bytes, and no later
operation hands out any of them before one releases it. -/
theorem frame_slots_never_overlap (symbols : SymbolTable) (ops : List FrameOp) (s : FrameHistory)
    (ran : FrameOp.runs ops (start symbols) = some s) :
    s.LaidOut ∧
    ∀ level seq s', (FrameOp.leaveBlock level seq).run s = some s' →
      ∀ slot, .temp slot ∈ s.frame.entries → seq ≤ slot.ownerLastRef →
      ∀ later t, FrameOp.runs later s' = some t → FrameOp.Spares slot later s' →
        .temp slot ∈ t.frame.entries ∧ ∀ e ∈ FrameOp.grants later s', e.Apart slot.extent := by
  have ordered := ordered_runs (ordered_start symbols) ran
  refine ⟨ordered.laidOut, fun level seq s' left slot held alive later t done spared => ?_⟩
  have spare : ¬ (FrameOp.leaveBlock level seq).Releases slot s :=
    fun released => Nat.not_lt.mpr alive released.1
  have still := (ordered.keeps_slot held spare left).1
  exact (ordered_run ordered left).keeps_slot_runs still spared done

def nestedSymbols : SymbolTable where
  entries := #[⟨"a", .param, .double, none⟩, ⟨"b", .param, .int, none⟩,
    ⟨"i", .local, .char, none⟩, ⟨"x", .local, .double, none⟩]

/-- A block in a block, with a temporary in each. -/
def nestedOps : List FrameOp :=
  [.bindParam ⟨0⟩, .bindParam ⟨1⟩, .enterBlock 1, .declareLocal ⟨2⟩, .allocTemp 1 ⟨0⟩ 4 2,
    .enterBlock 2, .declareLocal ⟨3⟩, .allocTemp 3 ⟨1⟩ 8 9]

/-- What follows the inner block: a slot reused, fresh ones made and another block left. -/
def laterOps : List FrameOp :=
  [.allocTemp 6 ⟨2⟩ 4 7, .declareLocal ⟨3⟩, .enterBlock 3, .leaveBlock 3 20, .allocTemp 8 ⟨3⟩ 8 9]

open FrameHistory in
theorem frame_slots_never_overlap_nested :
    ∃ s s' t slot, FrameOp.runs nestedOps (start nestedSymbols) = some s ∧
      (FrameOp.leaveBlock 2 5).run s = some s' ∧ FrameOp.runs laterOps s' = some t ∧
      s.LaidOut ∧ s.extents = [⟨-4, 4⟩, ⟨-8, 4⟩, ⟨-16, 8⟩, ⟨-24, 8⟩] ∧
      slot.extent = ⟨-24, 8⟩ ∧ .temp slot ∈ t.frame.entries ∧
      FrameOp.grants laterOps s' = [⟨-8, 4⟩, ⟨-32, 8⟩, ⟨-40, 8⟩] ∧
      ∀ e ∈ FrameOp.grants laterOps s', e.Apart slot.extent := by
  let s := (FrameOp.runs nestedOps (start nestedSymbols)).get (by decide +kernel)
  let s' := ((FrameOp.leaveBlock 2 5).run s).get (by decide +kernel)
  let t := (FrameOp.runs laterOps s').get (by decide +kernel)
  have sound := frame_slots_never_overlap nestedSymbols nestedOps s (Option.some_get _).symm
  have kept := sound.2 2 5 s' (Option.some_get _).symm ⟨-24, 8, ⟨1⟩, 9⟩ (by decide +kernel)
    (by decide) laterOps t (Option.some_get _).symm (by decide +kernel)
  exact ⟨s, s', t, _, (Option.some_get _).symm, (Option.some_get _).symm, (Option.some_get _).symm,
    sound.1, by decide +kernel, rfl, kept.1, by decide +kernel, kept.2⟩

end CBackend
