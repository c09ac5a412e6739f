import CBackend.Frame

/-!
The blocks that are open in a frame. Slots come and go without a block being opened or closed, and
the block that was opened last can always be left.
-/

namespace CBackend

def FrameEntry.level? : FrameEntry → Option Nat
  | .block level _ => some level
  | .local .. | .temp _ => none

namespace Frame

/-- The levels of the blocks that are open, the innermost first. -/
def levels (f : Frame) : List Nat := f.entries.reverse.filterMap FrameEntry.level?

variable {f : Frame}

theorem filterMap_level?_slot {e : FrameEntry} (slot : e.level? = none) (entries : List FrameEntry) :
    (entries ++ [e]).reverse.filterMap FrameEntry.level? =
      entries.reverse.filterMap FrameEntry.level? := by
  rw [List.reverse_concat, List.filterMap_cons_none slot]

theorem levels_enterBlock (level : Nat) : (f.enterBlock level).levels = level :: f.levels := by
  simp [levels, enterBlock, FrameEntry.level?]

theorem levels_declareLocal (sym : Symbol) (symbols : SymbolTable) :
    (f.declareLocal sym symbols).2.1.levels = f.levels := filterMap_level?_slot rfl f.entries

theorem reuse_levels {seq size lastRef : Nat} {owner : NodeId} {entries entries' : List FrameEntry}
    {offset : Int} (found : reuse seq size owner lastRef entries = some (offset, entries')) :
    entries'.filterMap FrameEntry.level? = entries.filterMap FrameEntry.level? := by
  induction entries generalizing offset entries' with
  | nil => cases found
  | cons e rest ih =>
    cases e with
    | temp slot =>
      rw [reuse] at found
      split at found
      · cases found
        rfl
      · obtain ⟨⟨_, later⟩, there, same⟩ := Option.map_eq_some_iff.mp found
        cases same
        exact (ih there :)
    | block level cursor =>
      obtain ⟨⟨_, later⟩, there, same⟩ := Option.map_eq_some_iff.mp found
      cases same
      exact congrArg (level :: ·) (ih there)
    | «local» sym offset' =>
      obtain ⟨⟨_, later⟩, there, same⟩ := Option.map_eq_some_iff.mp found
      cases same
      exact (ih there :)

theorem levels_allocTemp (seq : Nat) (owner : NodeId) (size lastRef : Nat) :
    (f.allocTemp seq owner size lastRef).2.levels = f.levels := by
  unfold allocTemp
  dsimp only
  split
  · rename_i found
    simp only [levels, List.filterMap_reverse]
    rw [reuse_levels found]
  · exact filterMap_level?_slot rfl f.entries

theorem popTo_of_levels {level : Nat} {rest : List Nat} {entries : List FrameEntry}
    (inner : entries.filterMap FrameEntry.level? = level :: rest) (seq : Nat) (kept : List TempSlot) :
    ∃ slots cursor remaining, popTo level seq entries kept = (.ok (slots, cursor), remaining) ∧
      remaining.filterMap FrameEntry.level? = rest := by
  fun_induction popTo level seq entries kept with
  | case1 => cases inner
  | case2 cursor entries kept =>
    cases inner
    exact ⟨kept, cursor, entries, rfl, rfl⟩
  | case3 l cursor entries kept other =>
    cases inner
    exact absurd rfl other
  | case4 _ _ _ _ ih => exact ih inner
  | case5 _ _ _ ih => exact ih inner

theorem leaveBlock_of_levels {level : Nat} {rest : List Nat} (inner : f.levels = level :: rest)
    (seq : Nat) :
    (f.leaveBlock level seq).1 = .ok () ∧ (f.leaveBlock level seq).2.levels = rest := by
  obtain ⟨slots, cursor, remaining, popped, left⟩ := popTo_of_levels inner seq []
  rw [leaveBlock, popped]
  refine ⟨rfl, ?_⟩
  have none : (slots.map FrameEntry.temp).filterMap FrameEntry.level? = [] := by
    simp [FrameEntry.level?]
  simp only [levels, List.reverse_append, List.reverse_reverse, List.filterMap_append,
    List.filterMap_reverse, none, List.reverse_nil, List.nil_append]
  exact left

end Frame

end CBackend
