import Mathlib.Logic.Relation
import CBackend.Proofs.Flow
import CBackend.Proofs.Lowering.Unshared

/-!
How linear code is put together, one code at a time. A ledger is a draft with what is still open in
it: the values that wait for their use, and the labels that have yet to be placed, each with the
number of values that waited when it was made. Only a value that waits can be used, only an open
label can be jumped to, and a label is placed when the same values wait as when it was made. A label
that is jumped back to is placed where nothing waits.
-/

namespace CBackend

namespace Code

/-- The values a code uses by itself; those of an operator are its operands. -/
def operands : Code → List LinId
  | arg l | branch l _ | ret (some l) | zeroFill l _ => [l]
  | _ => []

def lin? : Code → Option LinId
  | eval l => some l
  | _ => none

def label? : Code → Option Symbol
  | label l => some l
  | _ => none

def reads (nodes : List LinNode) : Code → List LinId
  | eval l => (nodes[l.index]?.map LinNode.kids).getD []
  | c => c.operands

def isPlain : Code → Bool
  | eval _ | label _ => false
  | _ => true

def isFill : Code → Bool
  | zeroFill .. => true
  | _ => false

end Code

/-- Operands come first operand first, a leaf carries a symbol, and an address is a leaf. -/
def LinNode.Proper (n : LinNode) : Prop :=
  match n.left, n.right with
  | none, none => n.sym.isSome
  | some _, none => n.sym = none ∧ n.op ≠ .addr
  | some _, some _ => n.op ≠ .addr
  | none, some _ => False

structure Ledger where
  draft : Draft
  pending : List (LinId × Nat) := []
  ahead : List (Symbol × Nat) := []
  heads : List Nat := []
  spans : List (Nat × Nat) := []

namespace Ledger

variable {l : Symbol} {pos : Nat} {c : Code}

def Waits (g : Ledger) (l : LinId) : Prop := ∃ a, (l, a) ∈ g.pending

def Available (g : Ledger) (l : Symbol) : Prop :=
  (∃ h, (l, h) ∈ g.ahead) ∨ ∃ t ∈ g.heads, g.draft.codes[t]? = some (.label l)

/-- The spans of the values that the next code uses. -/
def used (g : Ledger) (ls : List LinId) : List (Nat × Nat) :=
  (g.pending.filter fun x => decide (x.1 ∈ ls)).map fun x => (x.2, g.draft.codes.length)

def emit (g : Ledger) (n : LinNode) : Ledger :=
  { g with
    draft := g.draft.emit n
    pending := (g.draft.next, g.draft.codes.length) :: g.pending
    spans := g.used n.kids ++ g.spans }

def code (g : Ledger) (c : Code) : Ledger :=
  { g with draft := g.draft.code c, spans := g.used c.operands ++ g.spans }

def label (g : Ledger) : Ledger :=
  { g with draft := g.draft.label, ahead := (g.draft.fresh, g.pending.length) :: g.ahead }

/-- One step of putting code together; clearing codes are written only if `fills`. -/
inductive Step (exit : Symbol) (fills : Bool) : Ledger → Ledger → Prop
  | settle {g : Ledger} (done : List (Nat × LinId)) :
      Step exit fills g { g with draft := { g.draft with done } }
  | intern {g : Ledger} {symbols : SymbolTable} (more : g.draft.symbols.size ≤ symbols.size) :
      Step exit fills g { g with draft := { g.draft with symbols } }
  | emit {g : Ledger} {n : LinNode} (proper : n.Proper) (wait : ∀ l ∈ n.kids, g.Waits l) :
      Step exit fills g (g.emit n)
  | code {g : Ledger} {c : Code} (plain : c.isPlain = true) (fill : c.isFill = true → fills = true)
      (wait : ∀ l ∈ c.operands, g.Waits l) (target : ∀ l, c.target? exit = some l → g.Available l) :
      Step exit fills g (g.code c)
  | label {g : Ledger} : Step exit fills g g.label
  | place {g : Ledger} {l : Symbol} {before after : List (Symbol × Nat)}
      (open_ : g.ahead = before ++ (l, g.pending.length) :: after) :
      Step exit fills g { g with draft := g.draft.place l, ahead := before ++ after }
  | head {g : Ledger} {l : Symbol} {before after : List (Symbol × Nat)}
      (open_ : g.ahead = before ++ (l, 0) :: after) (idle : g.pending = []) :
      Step exit fills g
        { g with
          draft := g.draft.place l
          ahead := before ++ after
          heads := g.draft.codes.length :: g.heads }
  | drop {g : Ledger} {top kept rest : List (LinId × Nat)} (split : g.pending = top ++ rest)
      (kept_ : kept.Sublist top) (safe : ∀ x ∈ g.ahead, x.2 ≤ rest.length) :
      Step exit fills g { g with pending := kept ++ rest }

abbrev Steps (exit : Symbol) (fills : Bool) : Ledger → Ledger → Prop :=
  Relation.ReflTransGen (Step exit fills)

section Lists

variable {α β : Type}

theorem getElem?_concat_eq_some {xs : List α} {x y : α} {i : Nat} :
    (xs ++ [x])[i]? = some y ↔ xs[i]? = some y ∨ i = xs.length ∧ x = y := by
  rcases Nat.lt_trichotomy i xs.length with below | same | above
  · rw [List.getElem?_append_left below]
    simp [Nat.ne_of_lt below]
  · subst same
    simp
  · rw [List.getElem?_eq_none (by simp; omega), List.getElem?_eq_none (by omega)]
    simp [Nat.ne_of_gt above]

theorem index_unique {f : α → Option β} {xs : List α} (distinct : (xs.filterMap f).Nodup)
    {i j : Nat} {x y : α} {b : β} (first : xs[i]? = some x) (second : xs[j]? = some y)
    (left : f x = some b) (right : f y = some b) : i = j := by
  induction xs generalizing i j with
  | nil => simp at first
  | cons head rest ih =>
    have later {k : Nat} {z : α} (found : rest[k]? = some z) (maps : f z = some b) :
        b ∈ rest.filterMap f := List.mem_filterMap.mpr ⟨z, List.mem_of_getElem? found, maps⟩
    have tail : (rest.filterMap f).Nodup := distinct.sublist
      ((List.sublist_cons_self head rest).filterMap f)
    cases i <;> cases j
    · rfl
    · simp only
      [List.getElem?_cons_zero, Option.some.injEq, List.getElem?_cons_succ] at first second
      subst first
      rw [List.filterMap_cons_some left, List.nodup_cons] at distinct
      exact absurd (later second right) distinct.1
    · simp only
      [List.getElem?_cons_zero, Option.some.injEq, List.getElem?_cons_succ] at first second
      subst second
      rw [List.filterMap_cons_some right, List.nodup_cons] at distinct
      exact absurd (later first left) distinct.1
    · rw [ih tail first second]

theorem drop_append_bottom (top rest : List α) {h : Nat} (bound : h ≤ rest.length) :
    (top ++ rest).drop ((top ++ rest).length - h) = rest.drop (rest.length - h) := by
  have above : top.length ≤ (top ++ rest).length - h := by rw [List.length_append]; omega
  rw [List.drop_append, List.drop_eq_nil_of_le above, List.nil_append, List.length_append]
  congr 1
  omega

end Lists

variable {exit : Symbol} {fills : Bool} {g g' : Ledger}

/-- Every operator is evaluated at one place, in order, and uses only values that wait. -/
structure Numbered (fills : Bool) (g : Ledger) : Prop where
  evals : g.draft.codes.filterMap Code.lin? = (List.range g.draft.nodes.length).map LinId.mk
  proper : ∀ n ∈ g.draft.nodes, n.Proper
  fill : ∀ c ∈ g.draft.codes, c.isFill = true → fills = true
  evaluated : ∀ x ∈ g.pending, g.draft.codes[x.2]? = some (.eval x.1)
  spans : ∀ x ∈ g.spans, x.1 < x.2 ∧ x.2 < g.draft.codes.length
  reads : ∀ pos c, g.draft.codes[pos]? = some c → ∀ l ∈ c.reads g.draft.nodes,
    ∃ a, (a, pos) ∈ g.spans ∧ g.draft.codes[a]? = some (.eval l)

theorem Numbered.before (numbered : Numbered fills g) {x : LinId × Nat} (waits : x ∈ g.pending) :
    x.2 < g.draft.codes.length :=
  (List.getElem?_eq_some_iff.mp (numbered.evaluated x waits)).1

theorem Numbered.known (numbered : Numbered fills g) {l : LinId}
    (evaluated : g.draft.codes[pos]? = some (.eval l)) : l.index < g.draft.nodes.length := by
  have inside : l ∈ g.draft.codes.filterMap Code.lin? :=
    List.mem_filterMap.mpr ⟨_, List.mem_of_getElem? evaluated, rfl⟩
  rw [numbered.evals, List.mem_map] at inside
  obtain ⟨n, bound, rfl⟩ := inside
  exact List.mem_range.mp bound

theorem mem_used {ls : List LinId} {x : Nat × Nat} :
    x ∈ g.used ls ↔ ∃ l ∈ ls, (l, x.1) ∈ g.pending ∧ x.2 = g.draft.codes.length := by
  obtain ⟨a, c⟩ := x
  simp only [used, List.mem_map, List.mem_filter, decide_eq_true_eq, Prod.exists, Prod.mk.injEq]
  constructor
  · rintro ⟨l, b, ⟨waits, inside⟩, rfl, rfl⟩
    exact ⟨l, inside, waits, rfl⟩
  · rintro ⟨l, inside, waits, rfl⟩
    exact ⟨l, a, ⟨waits, inside⟩, rfl, rfl⟩

@[simp] theorem used_nil : g.used [] = [] := by simp [used]

theorem Numbered.append (numbered : Numbered fills g) {nodes : List LinNode}
    {pending : List (LinId × Nat)} (ls : List LinId) (wait : ∀ l ∈ ls, g.Waits l)
    (kept : ∀ n < g.draft.nodes.length, nodes[n]? = g.draft.nodes[n]?) (uses : c.reads nodes = ls)
    (evals : (g.draft.codes ++ [c]).filterMap Code.lin? = (List.range nodes.length).map LinId.mk)
    (proper : ∀ n ∈ nodes, n.Proper) (fill : c.isFill = true → fills = true)
    (evaluated : ∀ x ∈ pending, (g.draft.codes ++ [c])[x.2]? = some (.eval x.1))
    {symbols : SymbolTable} {done : List (Nat × LinId)} {ahead : List (Symbol × Nat)}
    {heads : List Nat} {spans : List (Nat × Nat)} (more : spans = g.used ls ++ g.spans) :
    Numbered fills
      ⟨⟨symbols, g.draft.codes ++ [c], nodes, done⟩, pending, ahead, heads, spans⟩ where
  evals := evals
  proper := proper
  fill c' inside := by
    rcases List.mem_append.mp inside with old | new
    · exact numbered.fill c' old
    · rw [List.mem_singleton.mp new]; exact fill
  evaluated := evaluated
  spans x inside := by
    simp only [List.length_append, List.length_singleton]
    rcases List.mem_append.mp (more ▸ inside) with new | old
    · obtain ⟨l, -, waits, same⟩ := mem_used.mp new
      have := numbered.before waits
      omega
    · have := numbered.spans x old
      omega
  reads pos c' found l used := by
    rcases getElem?_concat_eq_some.mp found with old | ⟨rfl, rfl⟩
    · have same : c'.reads nodes = c'.reads g.draft.nodes := by
        cases c' with
        | eval l' => simp only [Code.reads]; rw [kept _ (numbered.known old)]
        | _ => rfl
      rw [same] at used
      obtain ⟨a, inside, evaluated⟩ := numbered.reads pos c' old l used
      refine ⟨a, ?_, getElem?_concat_eq_some.mpr (.inl evaluated)⟩
      exact more ▸ List.mem_append_right _ inside
    · rw [uses] at used
      obtain ⟨a, waits⟩ := wait l used
      refine ⟨a, ?_, getElem?_concat_eq_some.mpr (.inl (numbered.evaluated _ waits))⟩
      exact more ▸ List.mem_append_left _ (mem_used.mpr ⟨l, used, waits, rfl⟩)

theorem Numbered.step (numbered : Numbered fills g) (step : Step exit fills g g') :
    Numbered fills g' := by
  have old {c : Code} {x : LinId × Nat} (waits : x ∈ g.pending) :
      (g.draft.codes ++ [c])[x.2]? = some (.eval x.1) :=
    getElem?_concat_eq_some.mpr (.inl (numbered.evaluated x waits))
  cases step with
  | settle done => exact ⟨numbered.1, numbered.2, numbered.3, numbered.4, numbered.5, numbered.6⟩
  | intern more => exact ⟨numbered.1, numbered.2, numbered.3, numbered.4, numbered.5, numbered.6⟩
  | label => exact ⟨numbered.1, numbered.2, numbered.3, numbered.4, numbered.5, numbered.6⟩
  | @emit n proper wait =>
    refine numbered.append (c := .eval _) _ wait (fun k bound => List.getElem?_append_left bound)
      ?_ ?_ ?_ nofun ?_ rfl
    · simp [Code.reads, Draft.next]
    · simp [List.filterMap_append, numbered.evals, List.range_succ, Draft.next, Code.lin?]
    · intro m inside
      rcases List.mem_append.mp inside with old | new
      · exact numbered.proper m old
      · rw [List.mem_singleton.mp new]; exact proper
    · intro x inside
      rcases List.mem_cons.mp inside with rfl | waits
      · exact getElem?_concat_eq_some.mpr (.inr ⟨rfl, rfl⟩)
      · exact old waits
  | @code c plain fill wait target =>
    refine numbered.append _ wait (fun _ _ => rfl) ?_ ?_ numbered.proper fill
      (fun x waits => old waits) rfl
    · cases c <;> first | rfl | cases plain
    · have none : c.lin? = none := by cases c <;> first | rfl | cases plain
      simp [List.filterMap_append, numbered.evals, none]
  | @place l before after open_ =>
    exact numbered.append (c := .label l) [] nofun (fun _ _ => rfl) rfl
      (by simp [List.filterMap_append, numbered.evals, Code.lin?]) numbered.proper nofun
      (fun x waits => old waits) (by simp)
  | @head l before after open_ idle =>
    exact numbered.append (c := .label l) [] nofun (fun _ _ => rfl) rfl
      (by simp [List.filterMap_append, numbered.evals, Code.lin?]) numbered.proper nofun
      (fun x waits => old waits) (by simp)
  | drop split kept safe =>
    refine
      ⟨numbered.1, numbered.2, numbered.3, fun x waits => numbered.4 x ?_, numbered.5, numbered.6⟩
    rw [split]
    exact (kept.append_right _).subset waits

/-- Labels are made before they are jumped to and placed once. -/
structure Labelled (exit : Symbol) (g : Ledger) : Prop where
  targets : ∀ c ∈ g.draft.codes, ∀ l, c.target? exit = some l → l.index < g.draft.symbols.size
  placed : ∀ l, Code.label l ∈ g.draft.codes → l.index < g.draft.symbols.size
  once : (g.draft.codes.filterMap Code.label?).Nodup
  ahead : ∀ x ∈ g.ahead, x.1.index < g.draft.symbols.size ∧ Code.label x.1 ∉ g.draft.codes
  distinct : (g.ahead.map Prod.fst).Nodup
  heads : ∀ t ∈ g.heads, ∃ l, g.draft.codes[t]? = some (.label l)

theorem Labelled.made (labelled : Labelled exit g) (available : g.Available l) :
    l.index < g.draft.symbols.size := by
  rcases available with ⟨h, inside⟩ | ⟨t, -, placed⟩
  · exact (labelled.ahead _ inside).1
  · exact labelled.placed l (List.mem_of_getElem? placed)

theorem Labelled.append (labelled : Labelled exit g) (unlabelled : c.label? = none)
    (made : ∀ l, c.target? exit = some l → l.index < g.draft.symbols.size) (nodes : List LinNode)
    (pending : List (LinId × Nat)) (spans : List (Nat × Nat)) :
    Labelled exit ⟨⟨g.draft.symbols, g.draft.codes ++ [c], nodes, g.draft.done⟩, pending, g.ahead,
      g.heads, spans⟩ where
  targets c' inside := by
    rcases List.mem_append.mp inside with old | new
    · exact labelled.targets c' old
    · rw [List.mem_singleton.mp new]; exact made
  placed l inside := by
    rcases List.mem_append.mp inside with old | new
    · exact labelled.placed l old
    · rw [← List.mem_singleton.mp new] at unlabelled; cases unlabelled
  once := by simpa [List.filterMap_append, unlabelled] using labelled.once
  ahead x inside := by
    refine ⟨(labelled.ahead x inside).1, fun placed => ?_⟩
    rcases List.mem_append.mp placed with old | new
    · exact (labelled.ahead x inside).2 old
    · rw [← List.mem_singleton.mp new] at unlabelled; cases unlabelled
  distinct := labelled.distinct
  heads t inside := by
    obtain ⟨l, placed⟩ := labelled.heads t inside
    exact ⟨l, getElem?_concat_eq_some.mpr (.inl placed)⟩

theorem Labelled.place (labelled : Labelled exit g) {h : Nat} {before after : List (Symbol × Nat)}
    (open_ : g.ahead = before ++ (l, h) :: after) {nodes : List LinNode} {done : List (Nat × LinId)}
    {pending : List (LinId × Nat)} {spans : List (Nat × Nat)} {heads : List Nat}
    (marked : ∀ t ∈ heads, t ∈ g.heads ∨ t = g.draft.codes.length) :
    Labelled exit ⟨⟨g.draft.symbols, g.draft.codes ++ [.label l], nodes, done⟩, pending,
      before ++ after, heads, spans⟩ := by
  have moved : g.ahead.Perm ((l, h) :: (before ++ after)) := open_ ▸ List.perm_middle
  have inside : (l, h) ∈ g.ahead := moved.mem_iff.mpr List.mem_cons_self
  have distinct := List.nodup_cons.mp ((moved.map Prod.fst).nodup_iff.mp labelled.distinct)
  have others {x : Symbol × Nat} (rest : x ∈ before ++ after) : x ∈ g.ahead ∧ x.1 ≠ l := by
    refine ⟨moved.mem_iff.mpr (List.mem_cons_of_mem _ rest), fun same => distinct.1 ?_⟩
    exact List.mem_map.mpr ⟨x, rest, same⟩
  refine ⟨?_, ?_, ?_, ?_, distinct.2, ?_⟩
  · intro c inside' l' target
    rcases List.mem_append.mp inside' with old | new
    · exact labelled.targets c old l' target
    · rw [List.mem_singleton.mp new] at target; cases target
  · intro l' placed
    rcases List.mem_append.mp placed with old | new
    · exact labelled.placed l' old
    · cases List.mem_singleton.mp new
      exact (labelled.ahead _ inside).1
  · rw [List.filterMap_append, List.nodup_append]
    refine ⟨labelled.once, by simp [Code.label?], ?_⟩
    rintro l' old _ new rfl
    have same : l' = l := by simpa [Code.label?] using new
    obtain ⟨c, placed, names⟩ := List.mem_filterMap.mp old
    have place : c = .label l' := by
      cases c with
      | label k => cases names; rfl
      | _ => cases names
    exact (labelled.ahead _ inside).2 (same ▸ place ▸ placed)
  · intro x rest
    obtain ⟨old, other⟩ := others rest
    refine ⟨(labelled.ahead x old).1, fun placed => ?_⟩
    rcases List.mem_append.mp placed with earlier | new
    · exact (labelled.ahead x old).2 earlier
    · exact other (Code.label.inj (List.mem_singleton.mp new))
  · intro t inside'
    rcases marked t inside' with old | rfl
    · obtain ⟨l', placed⟩ := labelled.heads t old
      exact ⟨l', getElem?_concat_eq_some.mpr (.inl placed)⟩
    · exact ⟨l, getElem?_concat_eq_some.mpr (.inr ⟨rfl, rfl⟩)⟩

theorem Labelled.step (labelled : Labelled exit g) (step : Step exit fills g g') :
    Labelled exit g' := by
  cases step with
  | settle done =>
    exact ⟨labelled.1, labelled.2, labelled.3, labelled.4, labelled.5, labelled.6⟩
  | drop split kept safe =>
    exact ⟨labelled.1, labelled.2, labelled.3, labelled.4, labelled.5, labelled.6⟩
  | intern more =>
    refine ⟨fun c inside l target => ?_, fun l placed => ?_, labelled.once, fun x inside => ?_,
      labelled.distinct, labelled.heads⟩
    · exact Nat.lt_of_lt_of_le (labelled.targets c inside l target) more
    · exact Nat.lt_of_lt_of_le (labelled.placed l placed) more
    · exact ⟨Nat.lt_of_lt_of_le (labelled.ahead x inside).1 more, (labelled.ahead x inside).2⟩
  | label =>
    have grown : g.draft.label.symbols.size = g.draft.symbols.size + 1 := SymbolTable.size_push ..
    refine ⟨fun c inside l target => ?_, fun l placed => ?_, labelled.once, fun x inside => ?_,
      ?_, labelled.heads⟩
    · have := labelled.targets c inside l target
      change _ < g.draft.label.symbols.size
      omega
    · have := labelled.placed l placed
      change _ < g.draft.label.symbols.size
      omega
    · change _ < g.draft.label.symbols.size ∧ _
      rcases List.mem_cons.mp inside with rfl | old
      · refine ⟨by rw [grown]; exact Nat.lt_succ_self _, fun placed => ?_⟩
        exact Nat.lt_irrefl _ (labelled.placed _ placed)
      · have := (labelled.ahead x old).1
        exact ⟨by omega, (labelled.ahead x old).2⟩
    · refine List.nodup_cons.mpr ⟨fun old => ?_, labelled.distinct⟩
      obtain ⟨x, inside, same⟩ := List.mem_map.mp old
      have := (labelled.ahead x inside).1
      rw [same] at this
      exact Nat.lt_irrefl _ this
  | emit proper wait => exact labelled.append (c := .eval _) rfl nofun _ _ _
  | @code c plain fill wait target =>
    refine labelled.append ?_ (fun l found => labelled.made (target l found)) _ _ _
    cases c <;> first | rfl | cases plain
  | place open_ => exact labelled.place open_ fun t inside => .inl inside
  | head open_ idle =>
    refine labelled.place open_ fun t inside => ?_
    rcases List.mem_cons.mp inside with rfl | old
    · exact .inr rfl
    · exact .inl old

def GoesTo (exit : Symbol) (codes : List Code) (pos : Nat) (l : Symbol) : Prop :=
  ∃ c, codes[pos]? = some c ∧ c.target? exit = some l

/-- Every way into the codes after `start` and up to `stop` begins there. -/
def Closed (exit : Symbol) (codes : List Code) (start stop : Nat) : Prop :=
  ∀ t l pos, start < t → t ≤ stop → codes[t]? = some (.label l) → GoesTo exit codes pos l →
    start < pos ∧ pos ≤ stop

/-- No jump leads past the evaluation of a value to a place where it is used or waits. -/
structure Enclosed (exit : Symbol) (g : Ledger) : Prop where
  heights : ∀ x ∈ g.ahead, x.2 ≤ g.pending.length
  below : ∀ x ∈ g.ahead, ∀ y ∈ g.pending.drop (g.pending.length - x.2), ∀ pos,
    GoesTo exit g.draft.codes pos x.1 → y.2 < pos
  waiting : ∀ y ∈ g.pending, ∀ t l pos, y.2 < t → g.draft.codes[t]? = some (.label l) →
    GoesTo exit g.draft.codes pos l → y.2 < pos
  spans : ∀ y ∈ g.spans, Closed exit g.draft.codes y.1 y.2
  heads : ∀ t ∈ g.heads, (∀ y ∈ g.pending, t < y.2) ∧ ∀ y ∈ g.spans, t ≤ y.1 ∨ y.2 < t

theorem goesTo_concat {codes : List Code} (goes : GoesTo exit (codes ++ [c]) pos l) :
    GoesTo exit codes pos l ∨ pos = codes.length ∧ c.target? exit = some l := by
  obtain ⟨c', found, target⟩ := goes
  rcases getElem?_concat_eq_some.mp found with old | ⟨rfl, rfl⟩
  · exact .inl ⟨c', old, target⟩
  · exact .inr ⟨rfl, target⟩

theorem GoesTo.lt {codes : List Code} (goes : GoesTo exit codes pos l) : pos < codes.length := by
  obtain ⟨c, found, -⟩ := goes
  exact (List.getElem?_eq_some_iff.mp found).1

theorem Labelled.goesTo (labelled : Labelled exit g) (goes : GoesTo exit g.draft.codes pos l) :
    l.index < g.draft.symbols.size := by
  obtain ⟨c, found, target⟩ := goes
  exact labelled.targets c (List.mem_of_getElem? found) l target

theorem Labelled.unique (labelled : Labelled exit g) {t t' : Nat}
    (first : g.draft.codes[t]? = some (.label l)) (second : g.draft.codes[t']? = some (.label l)) :
    t = t' :=
  index_unique labelled.once first second rfl rfl

theorem Enclosed.append (enclosed : Enclosed exit g) (numbered : Numbered fills g)
    (labelled : Labelled exit g) (unlabelled : c.label? = none)
    (target : ∀ l, c.target? exit = some l → g.Available l) (ls : List LinId) (nodes : List LinNode) :
    Enclosed exit ⟨⟨g.draft.symbols, g.draft.codes ++ [c], nodes, g.draft.done⟩, g.pending, g.ahead,
      g.heads, g.used ls ++ g.spans⟩ := by
  have placed {t : Nat} {l : Symbol} (found : (g.draft.codes ++ [c])[t]? = some (.label l)) :
      g.draft.codes[t]? = some (.label l) := by
    rcases getElem?_concat_eq_some.mp found with old | ⟨-, rfl⟩
    · exact old
    · cases unlabelled
  -- A label that can be jumped to is not inside any span.
  have outside {y : Nat × Nat} (inside : y ∈ g.spans) {t : Nat} {l : Symbol} (after : y.1 < t)
      (upTo : t ≤ y.2) (found : g.draft.codes[t]? = some (.label l)) : ¬g.Available l := by
    rintro (⟨h, ahead⟩ | ⟨t', head, here⟩)
    · exact (labelled.ahead _ ahead).2 (List.mem_of_getElem? found)
    · have same := labelled.unique found here
      have := (enclosed.heads t' head).2 y inside
      omega
  refine ⟨enclosed.heights, ?_, ?_, ?_, ?_⟩
  · intro x ahead y waits pos goes
    rcases goesTo_concat goes with old | ⟨rfl, -⟩
    · exact enclosed.below x ahead y waits pos old
    · exact numbered.before (List.mem_of_mem_drop waits)
  · intro y waits t l pos after found goes
    rcases goesTo_concat goes with old | ⟨rfl, -⟩
    · exact enclosed.waiting y waits t l pos after (placed found) old
    · exact numbered.before waits
  · intro y inside t l pos after upTo found goes
    have old := placed found
    rcases List.mem_append.mp inside with new | earlier
    · obtain ⟨v, -, waits, last⟩ := mem_used.mp new
      rcases goesTo_concat goes with goes | ⟨rfl, -⟩
      · have := goes.lt
        exact ⟨enclosed.waiting _ waits t l pos after old goes, by omega⟩
      · have := numbered.before waits
        exact ⟨this, by omega⟩
    · rcases goesTo_concat goes with goes | ⟨-, new⟩
      · exact enclosed.spans y earlier t l pos after upTo old goes
      · exact absurd (target l new) (outside earlier after upTo old)
  · intro t head
    refine ⟨(enclosed.heads t head).1, fun y inside => ?_⟩
    rcases List.mem_append.mp inside with new | earlier
    · obtain ⟨v, -, waits, -⟩ := mem_used.mp new
      exact .inl (Nat.le_of_lt ((enclosed.heads t head).1 _ waits))
    · exact (enclosed.heads t head).2 y earlier

theorem Enclosed.push (enclosed : Enclosed exit g) (labelled : Labelled exit g) {l : LinId}
    (last : g.draft.codes.length = pos + 1) (evaluated : g.draft.codes[pos]? = some (.eval l)) :
    Enclosed exit { g with pending := (l, pos) :: g.pending } := by
  refine ⟨?_, ?_, ?_, enclosed.spans, ?_⟩
  · intro x ahead
    exact Nat.le_succ_of_le (enclosed.heights x ahead)
  · intro x ahead y waits
    have bound := enclosed.heights x ahead
    have shift : ((l, pos) :: g.pending).length - x.2 = (g.pending.length - x.2) + 1 := by
      rw [List.length_cons]; omega
    rw [shift, List.drop_succ_cons] at waits
    exact enclosed.below x ahead y waits
  · intro y waits t l' pos' after found goes
    rcases List.mem_cons.mp waits with rfl | old
    · have : t < g.draft.codes.length := (List.getElem?_eq_some_iff.mp found).1
      change pos < t at after
      omega
    · exact enclosed.waiting y old t l' pos' after found goes
  · intro t head
    refine ⟨fun y waits => ?_, (enclosed.heads t head).2⟩
    rcases List.mem_cons.mp waits with rfl | old
    · obtain ⟨l', placed⟩ := labelled.heads t head
      have inside := (List.getElem?_eq_some_iff.mp placed).1
      have other : t ≠ pos := by
        rintro rfl
        rw [placed] at evaluated
        cases evaluated
      change t < pos
      omega
    · exact (enclosed.heads t head).1 y old

theorem Enclosed.step (enclosed : Enclosed exit g) (numbered : Numbered fills g)
    (labelled : Labelled exit g) (step : Step exit fills g g') : Enclosed exit g' := by
  have placing {l l' : Symbol} {t : Nat}
      (found : (g.draft.codes ++ [.label l])[t]? = some (.label l')) :
      g.draft.codes[t]? = some (.label l') ∨ t = g.draft.codes.length ∧ l = l' := by
    rcases getElem?_concat_eq_some.mp found with old | ⟨rfl, same⟩
    · exact .inl old
    · exact .inr ⟨rfl, Code.label.inj same⟩
  have going {l l' : Symbol} {pos : Nat} (goes : GoesTo exit (g.draft.codes ++ [.label l]) pos l') :
      GoesTo exit g.draft.codes pos l' := by
    rcases goesTo_concat goes with old | ⟨-, new⟩
    · exact old
    · cases new
  have inSpans {l : Symbol} : ∀ y ∈ g.spans, Closed exit (g.draft.codes ++ [.label l]) y.1 y.2 := by
    intro y inside t l' pos after upTo found goes
    have := (numbered.spans y inside).2
    rcases placing found with old | ⟨rfl, -⟩
    · exact enclosed.spans y inside t l' pos after upTo old (going goes)
    · omega
  cases step with
  | settle done => exact ⟨enclosed.1, enclosed.2, enclosed.3, enclosed.4, enclosed.5⟩
  | intern more => exact ⟨enclosed.1, enclosed.2, enclosed.3, enclosed.4, enclosed.5⟩
  | @emit n proper wait =>
    have added := enclosed.append numbered labelled (c := .eval g.draft.next) rfl nofun n.kids
      (g.draft.nodes ++ [n])
    have labels := labelled.append (c := .eval g.draft.next) rfl nofun (g.draft.nodes ++ [n])
      g.pending (g.used n.kids ++ g.spans)
    exact added.push labels (by simp) (getElem?_concat_eq_some.mpr (.inr ⟨rfl, rfl⟩))
  | @code c plain fill wait target =>
    refine enclosed.append numbered labelled ?_ target c.operands g.draft.nodes
    cases c <;> first | rfl | cases plain
  | label =>
    refine ⟨?_, ?_, enclosed.waiting, enclosed.spans, enclosed.heads⟩
    · intro x inside
      rcases List.mem_cons.mp inside with rfl | old
      · exact Nat.le_refl _
      · exact enclosed.heights x old
    · intro x inside y waits pos goes
      rcases List.mem_cons.mp inside with rfl | old
      · exact absurd (labelled.goesTo goes) (Nat.lt_irrefl _)
      · exact enclosed.below x old y waits pos goes
  | @place l before after open_ =>
    have others {x : Symbol × Nat} (rest : x ∈ before ++ after) : x ∈ g.ahead := by
      rw [open_]
      exact List.perm_middle.mem_iff.mpr (List.mem_cons_of_mem _ rest)
    refine ⟨fun x rest => enclosed.heights x (others rest), ?_, ?_, inSpans, enclosed.heads⟩
    · intro x rest y waits pos goes
      exact enclosed.below x (others rest) y waits pos (going goes)
    · intro y waits t l' pos after' found goes
      rcases placing found with old | ⟨rfl, rfl⟩
      · exact enclosed.waiting y waits t l' pos after' old (going goes)
      · -- The values that wait now are those that waited when the label was made.
        refine enclosed.below (l, g.pending.length) ?_ y (by simpa using waits) pos (going goes)
        rw [open_]
        simp
  | @head l before after open_ idle =>
    refine ⟨?_, ?_, ?_, inSpans, ?_⟩
    · intro x rest
      refine enclosed.heights x ?_
      rw [open_]
      exact List.perm_middle.mem_iff.mpr (List.mem_cons_of_mem _ rest)
    · intro x rest y waits
      simp [idle] at waits
    · intro y waits
      simp [idle] at waits
    · intro t head
      refine ⟨fun y waits => by simp [idle] at waits, fun y inside => ?_⟩
      rcases List.mem_cons.mp head with rfl | old
      · exact .inr (numbered.spans y inside).2
      · exact (enclosed.heads t old).2 y inside
  | @drop top kept rest split kept_ safe =>
    have still {y : LinId × Nat} (waits : y ∈ kept ++ rest) : y ∈ g.pending := by
      rw [split]
      exact (kept_.append_right rest).subset waits
    refine ⟨fun x ahead => ?_, fun x ahead y waits => ?_, fun y waits =>
      enclosed.waiting y (still waits), enclosed.spans, fun t head => ⟨fun y waits =>
        (enclosed.heads t head).1 y (still waits), (enclosed.heads t head).2⟩⟩
    · have := safe x ahead
      simp only [List.length_append]
      omega
    · refine enclosed.below x ahead y ?_
      rw [drop_append_bottom kept rest (safe x ahead)] at waits
      rwa [split, drop_append_bottom top rest (safe x ahead)]

/-- What holds of every ledger that is put together step by step. -/
structure Sound (exit : Symbol) (fills : Bool) (g : Ledger) : Prop where
  numbered : Numbered fills g
  labelled : Labelled exit g
  enclosed : Enclosed exit g

theorem Sound.step (sound : Sound exit fills g) (step : Step exit fills g g') :
    Sound exit fills g' :=
  ⟨sound.numbered.step step, sound.labelled.step step,
    sound.enclosed.step sound.numbered sound.labelled step⟩

theorem Sound.steps (sound : Sound exit fills g) (steps : Steps exit fills g g') :
    Sound exit fills g' := by
  induction steps with
  | refl => exact sound
  | tail _ step ih => exact ih.step step

end Ledger

end CBackend
