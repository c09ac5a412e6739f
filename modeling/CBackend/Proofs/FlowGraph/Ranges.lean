import Mathlib.Data.List.Flatten
import CBackend.FlowGraph

/-!
The ranges that linear code is cut into. They cover the positions of the codes one after the other, a
label stands only at the beginning of a range and a jump only at its end, and there are at least as
many of them as labels and at most one more than labels and jumps.
-/

namespace CBackend

theorem Code.isLabel_of_ne {c : Code} (other : ∀ l, c ≠ .label l) : c.isLabel = false := by
  cases c with
  | label l => exact absurd rfl (other l)
  | _ => rfl

namespace FlowGraph

/-- Ranges that cover the positions from `start` to `stop`, one after the other. -/
def Covers : List Span → (start stop : Nat) → Prop
  | [], start, stop => start = stop
  | s :: rest, start, stop => s.start = start ∧ start < s.stop ∧ Covers rest s.stop stop

/-- A range of positions that may still grow: it is begun by the label it names, there is no other
label in it, and no code in it jumps. -/
structure Segment (codes : List Code) (label : Option Symbol) (start pos : Nat) : Prop where
  ordered : start ≤ pos
  opened : ∀ l, label = some l ↔ start < pos ∧ codes[start]? = some (.label l)
  labels : ∀ t l, start < t → t < pos → codes[t]? ≠ some (.label l)
  jumps : ∀ t c, start ≤ t → t < pos → codes[t]? = some c → c.isJump = false

/-- A finished range: its label is the one that begins it, there is no other label in it, and only
its last code jumps. -/
structure Framed (codes : List Code) (s : Span) : Prop where
  opened : ∀ l, s.label = some l ↔ codes[s.start]? = some (.label l)
  labels : ∀ t l, s.start < t → t < s.stop → codes[t]? ≠ some (.label l)
  jumps : ∀ t c, s.start ≤ t → t + 1 < s.stop → codes[t]? = some c → c.isJump = false

variable {codes : List Code} {label : Option Symbol} {start pos : Nat}

theorem Segment.framed (segment : Segment codes label start pos) (below : start < pos) :
    Framed codes ⟨label, start, pos⟩ where
  opened l := (segment.opened l).trans (and_iff_right below)
  labels := segment.labels
  jumps t c after upTo found := by
    refine segment.jumps t c after ?_ found
    change t + 1 < pos at upTo
    omega

theorem Segment.empty : Segment codes none pos pos where
  ordered := Nat.le_refl pos
  opened l := by simp
  labels t l after upTo := by omega
  jumps t c after upTo := by omega

theorem Segment.grow (segment : Segment codes label start pos) {c : Code}
    (found : codes[pos]? = some c) (other : ∀ l, c ≠ .label l) (plain : c.isJump = false) :
    Segment codes label start (pos + 1) where
  ordered := Nat.le_succ_of_le segment.ordered
  opened l := by
    rw [segment.opened l]
    have ordered := segment.ordered
    rcases Nat.lt_or_eq_of_le ordered with below | rfl
    · have : start < pos + 1 := by omega
      simp [below, this]
    · rw [found]
      simp [other l]
  labels t l after upTo placed := by
    rcases Nat.lt_or_eq_of_le (Nat.le_of_lt_succ upTo) with below | rfl
    · exact segment.labels t l after below placed
    · exact other l (Option.some.inj (found.symm.trans placed))
  jumps t c' after upTo found' := by
    rcases Nat.lt_or_eq_of_le (Nat.le_of_lt_succ upTo) with below | rfl
    · exact segment.jumps t c' after below found'
    · cases found.symm.trans found'
      exact plain

theorem Segment.finish (segment : Segment codes label start pos) {c : Code}
    (found : codes[pos]? = some c) (other : ∀ l, c ≠ .label l) :
    Framed codes ⟨label, start, pos + 1⟩ where
  opened l := by
    refine (segment.opened l).trans (and_iff_right_of_imp fun placed => ?_)
    refine Nat.lt_of_le_of_ne segment.ordered ?_
    rintro rfl
    exact other l (Option.some.inj (found.symm.trans placed))
  labels t l after upTo placed := by
    rcases Nat.lt_or_eq_of_le (Nat.le_of_lt_succ upTo) with below | rfl
    · exact segment.labels t l after below placed
    · exact other l (Option.some.inj (found.symm.trans placed))
  jumps t c' after upTo found' := by
    refine segment.jumps t c' after ?_ found'
    change t + 1 < pos + 1 at upTo
    omega

theorem Segment.begin {l : Symbol} (found : codes[pos]? = some (.label l)) :
    Segment codes (some l) pos (pos + 1) where
  ordered := Nat.le_succ pos
  opened l' := by simp [found]
  labels t l after upTo := by omega
  jumps t c after upTo found' := by
    have same : t = pos := by omega
    subst same
    cases found.symm.trans found'
    rfl

theorem cut_covers {rest : List Code} (segment : Segment codes label start pos)
    (bound : pos ≤ codes.length) (left : codes.drop pos = rest) :
    Covers (cut pos start label rest) start codes.length ∧
      ∀ s ∈ cut pos start label rest, Framed codes s := by
  have next {pos : Nat} {c : Code} {rest : List Code} (left : codes.drop pos = c :: rest) :
      codes[pos]? = some c ∧ pos + 1 ≤ codes.length ∧ codes.drop (pos + 1) = rest := by
    have found : codes[pos]? = some c := by rw [← List.head?_drop, left, List.head?_cons]
    refine ⟨found, (List.getElem?_eq_some_iff.mp found).1, ?_⟩
    rw [← List.tail_drop, left, List.tail_cons]
  fun_induction cut pos start label rest with
  | case1 pos start label below =>
    have last : pos = codes.length := Nat.le_antisymm bound (List.drop_eq_nil_iff.mp left)
    refine ⟨⟨rfl, below, last⟩, fun s inside => ?_⟩
    rw [List.mem_singleton.mp inside]
    exact segment.framed below
  | case2 pos start label full =>
    have last : pos = codes.length := Nat.le_antisymm bound (List.drop_eq_nil_iff.mp left)
    have ordered := segment.ordered
    exact ⟨show start = codes.length by omega, nofun⟩
  | case3 pos start label l rest later below ih =>
    obtain ⟨found, bound, left⟩ := next left
    obtain ⟨covers, framed⟩ := ih (.begin found) bound left
    refine ⟨⟨rfl, below, covers⟩, ?_⟩
    rintro s (_ | ⟨_, inside⟩)
    · exact segment.framed below
    · exact framed s inside
  | case4 pos start label l rest later full ih =>
    obtain ⟨found, bound, left⟩ := next left
    obtain ⟨covers, framed⟩ := ih (.begin found) bound left
    have same : start = pos := Nat.le_antisymm segment.ordered (Nat.le_of_not_lt full)
    exact ⟨same ▸ covers, framed⟩
  | case5 pos start label c rest other jumps ih =>
    obtain ⟨found, bound, left⟩ := next left
    obtain ⟨covers, framed⟩ := ih .empty bound left
    refine ⟨⟨rfl, Nat.lt_succ_of_le segment.ordered, covers⟩, ?_⟩
    rintro s (_ | ⟨_, inside⟩)
    · exact segment.finish found other
    · exact framed s inside
  | case6 pos start label c rest other plain ih =>
    obtain ⟨found, bound, left⟩ := next left
    exact ih (segment.grow found other (by simpa using plain)) bound left

theorem spans_cons (some_ : codes ≠ []) : spans codes = cut 0 0 none codes := by
  have filled : codes.isEmpty = false := by simpa using some_
  rw [spans, filled]
  rfl

theorem spans_covers (some_ : codes ≠ []) : Covers (spans codes) 0 codes.length := by
  rw [spans_cons some_]
  exact (cut_covers .empty (Nat.zero_le _) rfl).1

theorem spans_framed {s : Span} (inside : s ∈ spans codes) : Framed codes s := by
  cases codes with
  | nil =>
    rw [List.mem_singleton.mp inside]
    exact ⟨by simp, by simp, by simp⟩
  | cons c rest =>
    rw [spans_cons (List.cons_ne_nil c rest)] at inside
    exact (cut_covers .empty (Nat.zero_le _) rfl).2 s inside

section Covers

variable {ss : List Span} {stop i : Nat} {s : Span}

theorem Covers.le (covers : Covers ss start stop) : start ≤ stop := by
  induction ss generalizing start with
  | nil => exact Nat.le_of_eq covers
  | cons s rest ih =>
    have := ih covers.2.2
    have := covers.2.1
    omega

theorem Covers.positions (covers : Covers ss start stop) :
    (ss.flatMap fun s => List.range' s.start (s.stop - s.start)) =
      List.range' start (stop - start) := by
  induction ss generalizing start with
  | nil =>
    cases covers
    simp
  | cons s rest ih =>
    obtain ⟨rfl, below, covers⟩ := covers
    have upTo := covers.le
    have joined : s.start + (s.stop - s.start) = s.stop := by omega
    have total : stop - s.start = (s.stop - s.start) + (stop - s.stop) := by omega
    rw [List.flatMap_cons, ih covers, total, ← List.range'_append_1, joined]

theorem Covers.nonempty (covers : Covers ss start stop) (inside : s ∈ ss) : s.start < s.stop := by
  induction ss generalizing start with
  | nil => cases inside
  | cons first rest ih =>
    obtain ⟨rfl, below, covers⟩ := covers
    rcases List.mem_cons.mp inside with rfl | later
    · exact below
    · exact ih covers later

theorem Covers.following (covers : Covers ss start stop) (here : ss[i]? = some s)
    (more : s.stop < stop) : ∃ s', ss[i + 1]? = some s' ∧ s'.start = s.stop := by
  induction ss generalizing start i with
  | nil => simp at here
  | cons first rest ih =>
    obtain ⟨rfl, below, covers⟩ := covers
    cases i with
    | succ i => exact ih covers here
    | zero =>
      cases here
      cases rest with
      | nil => exact absurd covers (Nat.ne_of_lt more)
      | cons second rest => exact ⟨second, rfl, covers.1⟩

theorem Covers.find (covers : Covers ss start stop) {p : Nat} (after : start ≤ p) (upTo : p < stop) :
    ∃ (k : Nat) (s : Span), ss[k]? = some s ∧ s.start ≤ p ∧ p < s.stop := by
  induction ss generalizing start with
  | nil => exact absurd (covers ▸ after) (Nat.not_le_of_lt upTo)
  | cons first rest ih =>
    obtain ⟨rfl, -, covers⟩ := covers
    by_cases here : p < first.stop
    · exact ⟨0, first, rfl, after, here⟩
    · obtain ⟨k, s, found, place⟩ := ih covers (Nat.le_of_not_lt here)
      exact ⟨k + 1, s, found, place⟩

theorem Covers.stop_le (covers : Covers ss start stop) (inside : s ∈ ss) : s.stop ≤ stop := by
  induction ss generalizing start with
  | nil => cases inside
  | cons first rest ih =>
    rcases List.mem_cons.mp inside with rfl | later
    · exact covers.2.2.le
    · exact ih covers.2.2 later

theorem Covers.le_start (covers : Covers ss start stop) (inside : s ∈ ss) : start ≤ s.start := by
  induction ss generalizing start with
  | nil => cases inside
  | cons first rest ih =>
    obtain ⟨rfl, below, covers⟩ := covers
    rcases List.mem_cons.mp inside with rfl | later
    · exact Nat.le_refl _
    · exact Nat.le_trans (Nat.le_of_lt below) (ih covers later)

theorem Covers.index_unique {s' : Span} {j p : Nat} (covers : Covers ss start stop)
    (here : ss[i]? = some s) (there : ss[j]? = some s') (in₁ : s.start ≤ p ∧ p < s.stop)
    (in₂ : s'.start ≤ p ∧ p < s'.stop) : i = j := by
  induction ss generalizing start i j with
  | nil => simp at here
  | cons first rest ih =>
    obtain ⟨-, -, covers⟩ := covers
    match i, j with
    | 0, 0 => rfl
    | i + 1, j + 1 => exact congrArg (· + 1) (ih covers here there)
    | 0, j + 1 =>
      cases here
      have later := covers.le_start (List.mem_of_getElem? there)
      omega
    | i + 1, 0 =>
      cases there
      have later := covers.le_start (List.mem_of_getElem? here)
      omega

theorem Covers.adjacent {s' : Span} (covers : Covers ss start stop) (here : ss[i]? = some s)
    (there : ss[i + 1]? = some s') : s'.start = s.stop := by
  induction ss generalizing start i with
  | nil => simp at here
  | cons first rest ih =>
    obtain ⟨-, -, covers⟩ := covers
    cases i with
    | succ i => exact ih covers here there
    | zero =>
      cases here
      cases rest with
      | nil => simp at there
      | cons second rest =>
        cases there
        exact covers.1

end Covers

theorem covers_codes {codes : Array Code} (some_ : 0 < codes.size) :
    Covers (spans codes.toList) 0 codes.size := by
  have filled : codes.toList ≠ [] := by simpa [← Array.size_pos_iff] using some_
  exact spans_covers filled

theorem exists_span_of_label {l : Symbol} (placed : .label l ∈ codes) :
    ∃ s ∈ spans codes, s.label = some l := by
  obtain ⟨i, here⟩ := List.mem_iff_getElem?.mp placed
  have bound := (List.getElem?_eq_some_iff.mp here).1
  obtain ⟨k, s, found, after, upTo⟩ :=
    (spans_covers (List.ne_nil_of_mem placed)).find (Nat.zero_le i) bound
  have inside := List.mem_of_getElem? found
  have framed := spans_framed inside
  have first : s.start = i := by
    refine Nat.le_antisymm after (Nat.le_of_not_lt fun later => ?_)
    exact framed.labels i l later upTo here
  exact ⟨s, inside, (framed.opened l).mpr (first ▸ here)⟩

theorem length_cut_le (pos start : Nat) (label : Option Symbol) (rest : List Code) :
    (cut pos start label rest).length ≤ rest.countP Code.isLabel + rest.countP Code.isJump + 1 := by
  fun_induction cut pos start label rest with
  | case1 | case2 => simp
  | case3 pos start label l rest later below ih | case4 pos start label l rest later full ih =>
    simp only [List.length_cons, List.countP_cons, Code.isLabel, Code.isJump]
    grind
  | case5 pos start label c rest other jumps ih =>
    simp only [List.length_cons, List.countP_cons, jumps]
    grind
  | case6 pos start label c rest other plain ih =>
    simp only [List.countP_cons]
    grind

theorem le_length_cut (pos start : Nat) (label : Option Symbol) (rest : List Code) :
    rest.countP Code.isLabel + (if start < pos then 1 else 0) ≤ (cut pos start label rest).length := by
  fun_induction cut pos start label rest with
  | case1 | case2 => simp [*]
  | case3 pos start label l rest later below ih | case4 pos start label l rest later full ih =>
    simp only [List.length_cons, List.countP_cons, Code.isLabel]
    grind
  | case5 pos start label c rest other jumps ih =>
    simp only [List.length_cons, List.countP_cons, Code.isLabel_of_ne other]
    grind
  | case6 pos start label c rest other plain ih =>
    simp only [List.countP_cons, Code.isLabel_of_ne other]
    grind

theorem length_spans_le (codes : List Code) :
    (spans codes).length ≤ codes.countP Code.isLabel + codes.countP Code.isJump + 1 := by
  by_cases some_ : codes = []
  · simp [some_, spans]
  · rw [spans_cons some_]
    exact length_cut_le 0 0 none codes

theorem le_length_spans (codes : List Code) :
    max 1 (codes.countP Code.isLabel) ≤ (spans codes).length := by
  by_cases some_ : codes = []
  · simp [some_, spans]
  refine Nat.max_le.mpr ⟨List.length_pos_iff.mpr fun none => ?_, ?_⟩
  · have covers := spans_covers some_
    rw [none] at covers
    exact some_ (List.eq_nil_of_length_eq_zero covers.symm)
  · rw [spans_cons some_]
    exact le_length_cut 0 0 none codes

end FlowGraph

end CBackend
