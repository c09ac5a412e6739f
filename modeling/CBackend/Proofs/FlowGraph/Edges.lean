import Mathlib.Tactic.ByContra
import CBackend.Compile
import CBackend.Proofs.FlowGraph.Ranges
import CBackend.Proofs.StateError

/-!
The edges of a flow graph. The code that ends a block says where the block goes. Control goes from
code to code exactly as it goes inside blocks and from the end of a block to the beginning of a
successor.
-/

namespace CBackend

namespace Code

def target? (exit : Symbol) : Code → Option Symbol
  | jump l | branch _ l => some l
  | ret _ => some exit
  | _ => none

/-- Codes that never go on to the code after them. -/
def leaves : Code → Bool
  | jump _ | ret _ => true
  | _ => false

theorem target?_of_isJump {c : Code} (plain : c.isJump = false) (exit : Symbol) :
    c.target? exit = none := by
  cases c <;> first | rfl | cases plain

theorem leaves_of_isJump {c : Code} (plain : c.isJump = false) : c.leaves = false := by
  cases c <;> first | rfl | cases plain

end Code

/-- Control may go from the code at one position to the code at another. -/
inductive LinearFunction.Follows (f : LinearFunction) : Nat → Nat → Prop
  | next {i : Nat} {c : Code} (here : f.codes[i]? = some c) (stays : c.leaves = false)
      (inside : i + 1 < f.codes.size) : Follows f i (i + 1)
  | jump {i j : Nat} {c : Code} {l : Symbol} (here : f.codes[i]? = some c)
      (target : c.target? f.exit = some l) (there : f.codes[j]? = some (.label l)) : Follows f i j

def LinearFunction.LabelsUnique (f : LinearFunction) : Prop :=
  ∀ (i j : Nat) (l : Symbol),
    f.codes[i]? = some (.label l) → f.codes[j]? = some (.label l) → i = j

instance (f : LinearFunction) : Decidable f.LabelsUnique :=
  decidable_of_iff (∀ i < f.codes.size, ∀ j < f.codes.size, f.codes[i]?.any Code.isLabel = true →
      f.codes[i]? = f.codes[j]? → i = j) <| by
    constructor
    · intro once i j l here there
      have first := (Array.getElem?_eq_some_iff.mp here).1
      have second := (Array.getElem?_eq_some_iff.mp there).1
      exact once i first j second (by rw [here]; rfl) (here.trans there.symm)
    · intro unique i _ j _ label same
      cases here : f.codes[i]? with
      | none => rw [here] at label; cases label
      | some c =>
        cases c with
        | label l => exact unique i j l here (same.symm.trans here)
        | _ => rw [here] at label; cases label

namespace FlowGraph

variable {codes : Array Code} {ss : List Span} {exit l : Symbol} {i : Nat} {s : Span}

theorem blockOf?_eq_some (found : blockOf? ss l = some i) :
    ∃ s, ss[i]? = some s ∧ s.label = some l := by
  have search (pairs : List (Span × Nat)) (start : Option Nat)
      (found : pairs.foldl (fun found p => if p.1.label = some l then some p.2 else found) start =
        some i) : start = some i ∨ ∃ s, (s, i) ∈ pairs ∧ s.label = some l := by
    induction pairs generalizing start with
    | nil => exact .inl found
    | cons pair rest ih =>
      rcases ih _ found with same | ⟨s, inside, label⟩
      · simp only at same
        split at same
        · rename_i label
          cases same
          exact .inr ⟨pair.1, List.mem_cons_self, label⟩
        · exact .inl same
      · exact .inr ⟨s, List.mem_cons_of_mem _ inside, label⟩
  rcases search _ none found with impossible | ⟨s, inside, label⟩
  · cases impossible
  · exact ⟨s, List.mem_zipIdx_iff_getElem?.mp inside, label⟩

theorem target_eq_ok (found : target ss l = .ok i) : ∃ s, ss[i]? = some s ∧ s.label = some l := by
  unfold target at found
  split at found
  · rename_i b same
    cases found
    exact blockOf?_eq_some same
  · cases found

/-- How a block is left, from the code that ends it: by a jump to the block that a label begins, or
on to the block behind it, if there is one. -/
def Exits (opens : Symbol → Nat → Prop) (exit : Symbol) (behind : Option Nat) (b : Block) :
    Option Code → Prop
  | some (.jump l) => (∃ k, b.next = some k ∧ opens l k) ∧ b.taken = none
  | some (.ret _) => (∃ k, b.next = some k ∧ opens exit k) ∧ b.taken = none
  | some (.branch _ l) => b.next = behind ∧ ∃ k, b.taken = some k ∧ opens l k
  | _ => b.next = behind ∧ b.taken = none

theorem block_eq_ok {b : Block} (ok : block codes exit ss i s = .ok b) :
    b.span = s ∧ b.reachable = true ∧
      Exits (fun l k => ∃ s', ss[k]? = some s' ∧ s'.label = some l) exit
        (if i + 1 < ss.length then some (i + 1) else none) b (lastCode? codes s) := by
  unfold block at ok
  dsimp only at ok
  split at ok
  · rename_i l last
    obtain ⟨k, found, made⟩ := except_bind_eq_ok.mp ok
    cases made
    rw [last]
    exact ⟨rfl, rfl, ⟨k, rfl, target_eq_ok found⟩, rfl⟩
  · rename_i value last
    obtain ⟨k, found, made⟩ := except_bind_eq_ok.mp ok
    cases made
    rw [last]
    exact ⟨rfl, rfl, ⟨k, rfl, target_eq_ok found⟩, rfl⟩
  · rename_i cond l last
    obtain ⟨k, found, made⟩ := except_bind_eq_ok.mp ok
    cases made
    rw [last]
    exact ⟨rfl, rfl, rfl, k, rfl, target_eq_ok found⟩
  · rename_i noJump noRet noBranch
    cases ok
    refine ⟨rfl, rfl, ?_⟩
    unfold Exits
    split
    · exact absurd ‹_› (noJump _)
    · exact absurd ‹_› (noRet _)
    · exact absurd ‹_› (noBranch _ _)
    · exact ⟨rfl, rfl⟩

section Exits

variable {opens : Symbol → Nat → Prop} {behind : Option Nat} {b : Block} {c : Code} {k : Nat}

theorem mem_successors : k ∈ b.successors ↔ b.next = some k ∨ b.taken = some k := by
  simp [Block.successors, Option.mem_toList]

theorem Exits.mem_iff (exits : Exits opens exit behind b (some c)) (edge : k ∈ b.successors) :
    (c.leaves = false ∧ behind = some k) ∨ ∃ l, c.target? exit = some l ∧ opens l k := by
  rw [mem_successors] at edge
  cases c with
  | jump l =>
    obtain ⟨⟨k', next, there⟩, taken⟩ := exits
    rw [next, taken] at edge
    cases edge.resolve_right nofun
    exact .inr ⟨l, rfl, there⟩
  | ret value =>
    obtain ⟨⟨k', next, there⟩, taken⟩ := exits
    rw [next, taken] at edge
    cases edge.resolve_right nofun
    exact .inr ⟨exit, rfl, there⟩
  | branch cond l =>
    obtain ⟨next, k', taken, there⟩ := exits
    rw [next, taken] at edge
    rcases edge with falls | same
    · exact .inl ⟨rfl, falls⟩
    · cases same
      exact .inr ⟨l, rfl, there⟩
  | _ =>
    obtain ⟨next, taken⟩ := exits
    rw [next, taken] at edge
    exact .inl ⟨rfl, edge.resolve_right nofun⟩

theorem Exits.inside {last : Option Code} (exits : Exits opens exit behind b last)
    (edge : k ∈ b.successors) : behind = some k ∨ ∃ l, opens l k := by
  cases last with
  | none =>
    rw [mem_successors, exits.1, exits.2] at edge
    exact .inl (edge.resolve_right nofun)
  | some c => exact (exits.mem_iff edge).imp (·.2) fun ⟨l, _, there⟩ => ⟨l, there⟩

theorem Exits.falls (exits : Exits opens exit (some k) b (some c)) (stays : c.leaves = false) :
    k ∈ b.successors := by
  rw [mem_successors]
  cases c with
  | jump | ret => cases stays
  | _ => exact .inl exits.1

theorem Exits.goes (exits : Exits opens exit behind b (some c)) (target : c.target? exit = some l) :
    ∃ k ∈ b.successors, opens l k := by
  cases c with
  | jump | ret =>
    obtain ⟨⟨k, next, there⟩, -⟩ := exits
    cases target
    exact ⟨k, mem_successors.mpr (.inl next), there⟩
  | branch =>
    obtain ⟨-, k, taken, there⟩ := exits
    cases target
    exact ⟨k, mem_successors.mpr (.inr taken), there⟩
  | _ => cases target

end Exits

theorem build_eq_ok {g : FlowGraph} (ok : build codes exit = .ok g) :
    g.blocks.toList.map Block.span = spans codes.toList ∧
      ∀ (i : Nat) (b : Block), g.blocks[i]? = some b →
        block codes exit (spans codes.toList) i b.span = .ok b := by
  obtain ⟨blocks, made, same⟩ := except_bind_eq_ok.mp ok
  cases same
  obtain ⟨size, each⟩ := mapM_eq_ok made
  have pairs (i : Nat) (b : Block) (found : blocks[i]? = some b) :
      (spans codes.toList)[i]? = some b.span ∧
        block codes exit (spans codes.toList) i b.span = .ok b := by
    obtain ⟨⟨s, k⟩, there, ok⟩ := each i b found
    rw [List.getElem?_zipIdx, Option.map_eq_some_iff] at there
    obtain ⟨s', there, same⟩ := there
    cases same
    rw [Nat.zero_add] at ok
    rw [(block_eq_ok ok).1]
    exact ⟨there, ok⟩
  refine ⟨?_, fun i b found => (pairs i b (by simpa using found)).2⟩
  apply List.ext_getElem?
  intro i
  rw [List.getElem?_map]
  cases found : blocks[i]? with
  | some b => exact (pairs i b found).1.symm
  | none =>
    rw [List.getElem?_eq_none_iff, size, List.length_zipIdx] at found
    exact (List.getElem?_eq_none found).symm

theorem build_eq_error {e : CompileError} (failed : build codes exit = .error e) :
    ∃ l, e = .invariant (.undefinedLabel l) := by
  have missing {ss : List Span} {l : Symbol} (failed : target ss l = .error e) :
      ∃ l, e = .invariant (.undefinedLabel l) := by
    unfold target at failed
    split at failed
    · cases failed
    · cases failed
      exact ⟨l, rfl⟩
  rcases except_bind_eq_error failed with failed | ⟨blocks, made⟩
  · obtain ⟨⟨s, i⟩, -, failed⟩ := mapM_eq_error failed
    unfold block at failed
    dsimp only at failed
    split at failed
    · exact (except_bind_eq_error failed).elim missing nofun
    · exact (except_bind_eq_error failed).elim missing nofun
    · exact (except_bind_eq_error failed).elim missing nofun
    · cases failed
  · cases made

theorem blockOf?_of_label (inside : s ∈ ss) (label : s.label = some l) :
    ∃ k, blockOf? ss l = some k := by
  have search (pairs : List (Span × Nat)) (start : Option Nat)
      (found : start.isSome ∨ ∃ p ∈ pairs, p.1.label = some l) :
      (pairs.foldl (fun found p => if p.1.label = some l then some p.2 else found) start).isSome := by
    induction pairs generalizing start with
    | nil =>
      rcases found with here | ⟨_, none, _⟩
      · exact here
      · cases none
    | cons pair rest ih =>
      refine ih _ ?_
      by_cases same : pair.1.label = some l
      · simp [same]
      · dsimp only
        rw [if_neg same]
        refine found.imp_right fun ⟨p, inside, label⟩ => ⟨p, ?_, label⟩
        exact (List.mem_cons.mp inside).resolve_left fun first => same (first ▸ label)
  obtain ⟨k, found⟩ := List.mem_iff_getElem?.mp inside
  exact Option.isSome_iff_exists.mp
    (search _ none (.inr ⟨(s, k), List.mem_zipIdx_iff_getElem?.mpr found, label⟩))

theorem build_of_placed (placed : ∀ c ∈ codes, ∀ l, c.target? exit = some l → .label l ∈ codes) :
    ∃ g, build codes exit = .ok g := by
  cases result : build codes exit with
  | ok g => exact ⟨g, rfl⟩
  | error e =>
    have found {s : Span} {c : Code} {l : Symbol} (last : lastCode? codes s = some c)
        (goes : c.target? exit = some l) : ∃ b, target (spans codes.toList) l = .ok b := by
      rw [lastCode?] at last
      split at last
      · have inside := placed c (Array.mem_of_getElem? last) l goes
        obtain ⟨s, listed, label⟩ := exists_span_of_label (Array.mem_toList_iff.mpr inside)
        obtain ⟨b, known⟩ := blockOf?_of_label listed label
        exact ⟨b, by rw [target, known]⟩
      · cases last
    exfalso
    rcases except_bind_eq_error result with failed | ⟨blocks, made⟩
    · obtain ⟨⟨s, i⟩, -, failed⟩ := mapM_eq_error failed
      unfold block at failed
      dsimp only at failed
      split at failed
      · rename_i last
        obtain ⟨b, known⟩ := found last rfl
        rw [known] at failed
        cases failed
      · rename_i last
        obtain ⟨b, known⟩ := found last rfl
        rw [known] at failed
        cases failed
      · rename_i last
        obtain ⟨b, known⟩ := found last rfl
        rw [known] at failed
        cases failed
      · cases failed
    · cases made

def Opens (g : FlowGraph) (l : Symbol) (k : Nat) : Prop :=
  ∃ b, g.blocks[k]? = some b ∧ b.span.label = some l

def behind (g : FlowGraph) (k : Nat) : Option Nat :=
  if k + 1 < g.blocks.size then some (k + 1) else none

/-- Control may go from one position to another by the blocks: to the next position of a block, or
from the last position of a block to the first one of a successor. -/
inductive Steps (g : FlowGraph) : Nat → Nat → Prop
  | within {k i : Nat} {b : Block} (here : g.blocks[k]? = some b) (after : b.span.start ≤ i)
      (more : i + 1 < b.span.stop) : Steps g i (i + 1)
  | across {k k' i : Nat} {b b' : Block} (here : g.blocks[k]? = some b) (after : b.span.start ≤ i)
      (last : i + 1 = b.span.stop) (edge : k' ∈ b.successors) (there : g.blocks[k']? = some b')
      (some_ : b'.span.start < b'.span.stop) : Steps g i b'.span.start

theorem lastCode?_eq (codes : Array Code) (after : s.start ≤ i) (last : i + 1 = s.stop) :
    lastCode? codes s = codes[i]? := by
  rw [lastCode?, if_pos (by omega), show s.stop - 1 = i by omega]

section Build

variable {f : LinearFunction} {g : FlowGraph} {k j : Nat} {b b' : Block}
  (ok : build f.codes f.exit = .ok g)
include ok

theorem spans_build (k : Nat) : (spans f.codes.toList)[k]? = g.blocks[k]?.map Block.span := by
  rw [← (build_eq_ok ok).1, List.getElem?_map, Array.getElem?_toList]

theorem length_spans : (spans f.codes.toList).length = g.blocks.size := by
  rw [← (build_eq_ok ok).1, List.length_map, Array.length_toList]

theorem span_build (here : g.blocks[k]? = some b) :
    (spans f.codes.toList)[k]? = some b.span := by
  rw [spans_build ok, here]
  rfl

theorem mem_spans (here : g.blocks[k]? = some b) : b.span ∈ spans f.codes.toList :=
  List.mem_of_getElem? (span_build ok here)

theorem framed_build (here : g.blocks[k]? = some b) : Framed f.codes.toList b.span :=
  spans_framed (mem_spans ok here)

theorem exits_build (here : g.blocks[k]? = some b) :
    Exits g.Opens f.exit (g.behind k) b (lastCode? f.codes b.span) := by
  have exits := (block_eq_ok ((build_eq_ok ok).2 k b here)).2.2
  rw [length_spans ok] at exits
  have opens : g.Opens = fun l k => ∃ s, (spans f.codes.toList)[k]? = some s ∧ s.label = some l := by
    funext l k
    refine propext ⟨fun ⟨b, found, label⟩ => ⟨b.span, span_build ok found, label⟩, ?_⟩
    rintro ⟨s, found, label⟩
    rw [spans_build ok, Option.map_eq_some_iff] at found
    obtain ⟨b, found, rfl⟩ := found
    exact ⟨b, found, label⟩
  rw [opens]
  exact exits

theorem exists_block (inside : i < f.codes.size) :
    ∃ (k : Nat) (b : Block), g.blocks[k]? = some b ∧ b.span.start ≤ i ∧ i < b.span.stop := by
  obtain ⟨k, s, found, place⟩ :=
    (covers_codes (Nat.zero_lt_of_lt inside)).find (Nat.zero_le i) inside
  rw [spans_build ok, Option.map_eq_some_iff] at found
  obtain ⟨b, here, rfl⟩ := found
  exact ⟨k, b, here, place⟩

theorem stop_le_build (here : g.blocks[k]? = some b) : b.span.stop ≤ f.codes.size := by
  by_cases some_ : 0 < f.codes.size
  · exact (covers_codes some_).stop_le (mem_spans ok here)
  · have inside := mem_spans ok here
    have none : f.codes.toList = [] := by simpa [← Array.size_pos_iff] using some_
    rw [none, spans, List.isEmpty_nil, if_pos rfl, List.mem_singleton] at inside
    rw [inside]
    exact Nat.zero_le _

theorem block_unique {k' : Nat} (here : g.blocks[k]? = some b) (there : g.blocks[k']? = some b')
    (in₁ : b.span.start ≤ i ∧ i < b.span.stop) (in₂ : b'.span.start ≤ i ∧ i < b'.span.stop) :
    k = k' := by
  have upTo := stop_le_build ok here
  have covers : Covers (spans f.codes.toList) 0 f.codes.size := covers_codes (by omega)
  exact covers.index_unique (span_build ok here) (span_build ok there) in₁ in₂

theorem start_lt_build (some_ : 0 < f.codes.size) (here : g.blocks[k]? = some b) :
    b.span.start < b.span.stop := (covers_codes some_).nonempty (mem_spans ok here)

theorem first_block (some_ : 0 < f.codes.size) : ∃ b, g.blocks[0]? = some b ∧ b.span.start = 0 := by
  have covers := covers_codes some_
  have spanned := spans_build ok 0
  cases listed : spans f.codes.toList with
  | nil =>
    rw [listed] at covers
    exact absurd covers (Nat.ne_of_lt some_)
  | cons s rest =>
    rw [listed] at covers spanned
    obtain ⟨b, here, rfl⟩ := Option.map_eq_some_iff.mp spanned.symm
    exact ⟨b, here, covers.1⟩

theorem behind_build (here : g.blocks[k]? = some b) (last : i + 1 = b.span.stop) :
    g.behind k = none ∧ i + 1 = f.codes.size ∨
      ∃ b', g.behind k = some (k + 1) ∧ g.blocks[k + 1]? = some b' ∧ b'.span.start = i + 1 := by
  have upTo := stop_le_build ok here
  have covers : Covers (spans f.codes.toList) 0 f.codes.size := covers_codes (by omega)
  by_cases more : k + 1 < g.blocks.size
  · have there : g.blocks[k + 1]? = some g.blocks[k + 1] := Array.getElem?_eq_getElem more
    refine .inr ⟨_, if_pos more, there, ?_⟩
    rw [last]
    exact covers.adjacent (span_build ok here) (span_build ok there)
  · refine .inl ⟨if_neg more, ?_⟩
    by_contra other
    obtain ⟨s, there, -⟩ := covers.following (span_build ok here) (by omega)
    have bound := (List.getElem?_eq_some_iff.mp there).1
    rw [length_spans ok] at bound
    exact more bound

theorem exists_target {c : Code} (here : f.codes[i]? = some c) (target : c.target? f.exit = some l) :
    ∃ (k k' : Nat) (b b' : Block), g.blocks[k]? = some b ∧ b.span.start ≤ i ∧ i + 1 = b.span.stop ∧
      k' ∈ b.successors ∧ g.blocks[k']? = some b' ∧ f.codes[b'.span.start]? = some (.label l) := by
  obtain ⟨k, b, block, after, upTo⟩ := exists_block ok (Array.getElem?_eq_some_iff.mp here).1
  have last : i + 1 = b.span.stop := by
    by_contra other
    have plain := (framed_build ok block).jumps i c after (by omega) (by simpa using here)
    rw [Code.target?_of_isJump plain] at target
    cases target
  have exits := exits_build ok block
  rw [lastCode?_eq _ after last, here] at exits
  obtain ⟨k', edge, b', found, label⟩ := exits.goes target
  have opened := ((framed_build ok found).opened l).mp label
  exact ⟨k, k', b, b', block, after, last, edge, found, by simpa using opened⟩

theorem steps_of_follows (unique : f.LabelsUnique) (follows : f.Follows i j) : g.Steps i j := by
  cases follows with
  | @next c here stays more =>
    obtain ⟨k, b, block, after, upTo⟩ := exists_block ok (Nat.lt_of_succ_lt more)
    by_cases within : i + 1 < b.span.stop
    · exact .within block after within
    have last : i + 1 = b.span.stop := by omega
    have exits := exits_build ok block
    rw [lastCode?_eq _ after last, here] at exits
    rcases behind_build ok block last with ⟨-, ends⟩ | ⟨b', next, there, start⟩
    · omega
    · rw [next] at exits
      rw [← start]
      exact .across block after last (exits.falls stays) there (start_lt_build ok (by omega) there)
  | @jump _ c l here target there =>
    obtain ⟨k, k', b, b', block, after, last, edge, found, placed⟩ := exists_target ok here target
    have some_ : 0 < f.codes.size := Nat.zero_lt_of_lt (Array.getElem?_eq_some_iff.mp here).1
    rw [unique j b'.span.start l there placed]
    exact .across block after last edge found (start_lt_build ok some_ found)

theorem follows_of_steps (steps : g.Steps i j) : f.Follows i j := by
  cases steps with
  | @within k _ b block after more =>
    have upTo := stop_le_build ok block
    have here : f.codes[i]? = some f.codes[i] := Array.getElem?_eq_getElem (by omega)
    have plain := (framed_build ok block).jumps i f.codes[i] after more (by simp)
    exact .next here (Code.leaves_of_isJump plain) (by omega)
  | @across k k' _ b b' block after last edge there some_ =>
    have upTo := stop_le_build ok block
    have here : f.codes[i]? = some f.codes[i] := Array.getElem?_eq_getElem (by omega)
    have exits := exits_build ok block
    rw [lastCode?_eq _ after last, here] at exits
    rcases exits.mem_iff edge with ⟨stays, next⟩ | ⟨l, target, b'', found, label⟩
    · rcases behind_build ok block last with ⟨none, -⟩ | ⟨b'', next', there', start⟩
      · rw [none] at next
        cases next
      · rw [next'] at next
        cases next
        cases there.symm.trans there'
        have inside := stop_le_build ok there
        rw [start] at some_ ⊢
        exact .next here stays (by omega)
    · cases there.symm.trans found
      have opened := ((framed_build ok there).opened l).mp label
      exact .jump here target (by simpa using opened)

theorem flatMap_positions : g.blocks.toList.flatMap Gen.positions = List.range f.codes.size := by
  have spanned : g.blocks.toList.flatMap Gen.positions =
      (g.blocks.toList.map Block.span).flatMap fun s => List.range' s.start (s.stop - s.start) := by
    rw [List.flatMap_map]
    rfl
  rw [spanned, (build_eq_ok ok).1]
  by_cases some_ : 0 < f.codes.size
  · rw [(covers_codes some_).positions, List.range_eq_range', Nat.sub_zero]
  · have none : f.codes = #[] := by simpa [← Array.size_pos_iff] using some_
    rw [none]
    rfl

end Build

end FlowGraph

end CBackend
