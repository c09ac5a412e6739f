import Mathlib.Algebra.Ring.Nat
import Mathlib.Data.List.Forall2
import CBackend.Proofs.Lowering.Assembly
import CBackend.Proofs.Lowering.Growth
import CBackend.Proofs.Lowering.Nodes

/-!
The outline of linear code: its labels, its blocks and the arguments on their way to a call. A label
is made once, placed once and jumped to only after it has been made. Blocks are left in the reverse
order of their entry. Arguments are pushed and taken off like brackets, so that the same ones are
outstanding where a label was made, where it is placed and wherever it is jumped to from.
-/

namespace CBackend

/-- An argument on its way to a call: the place of the code that pushes it and the bytes it takes. -/
structure Push where
  place : Nat
  bytes : Nat
  deriving DecidableEq, Repr

namespace Push

def total (ps : List Push) : Nat := (ps.map bytes).sum

/-- Takes pushes off, the newest first, until they make up the bytes asked for. -/
def drain (need : Nat) : List Push → List Push
  | [] => []
  | p :: ps => if need = 0 then p :: ps else drain (need - p.bytes) ps

@[simp] theorem drain_zero (ps : List Push) : drain 0 ps = ps := by
  cases ps <;> simp [drain]

theorem total_append (ps qs : List Push) : total (ps ++ qs) = total ps + total qs := by
  simp [total]

theorem drain_append {own : List Push} (sized : ∀ p ∈ own, 0 < p.bytes) (rest : List Push) :
    drain (total own) (own ++ rest) = rest := by
  induction own with
  | nil => exact drain_zero rest
  | cons p own ih =>
    have := sized p List.mem_cons_self
    have need : total (p :: own) ≠ 0 := by
      simp only [total, List.map_cons, List.sum_cons]
      omega
    have left : total (p :: own) - p.bytes = total own := by
      simp [total]
    rw [List.cons_append, drain, if_neg need, left]
    exact ih fun q inside => sized q (List.mem_cons_of_mem p inside)

/-- The code at the place of a push pushes the value of an argument. -/
def Carries (codes : List Code) (value : Nat → Option LinId) (a : Expr) (x : Push) : Prop :=
  ∃ v, codes[x.place]? = some (.arg v) ∧ value a.number = some v ∧ x.bytes = roundToSlot a.ty.size

/-- The operator of a call: it calls the value of the callee and has the type of the call, or none
if the result is a struct. -/
def Calls (value : Nat → Option LinId) (n : LinNode) (tag : NodeTag) (callee : Expr) : Prop :=
  (∃ v, n.left = some v ∧ value callee.number = some v) ∧
    n.ty = if tag.ty.isStruct then .void else tag.ty

/-- The pushes of one call, the newest first: its arguments in order, under the address of the
temporary for a struct result. -/
def Owned (codes : List Code) (nodes : List LinNode) (value : Nat → Option LinId) (tag : NodeTag)
    (args : List Expr) (own : List Push) : Prop :=
  ∃ hidden rest, own = hidden ++ rest ∧ List.Forall₂ (Carries codes value) args rest ∧
    if tag.ty.isStruct then ∃ place v sym, hidden = [⟨place, roundToSlot CType.pointer.size⟩] ∧
      codes[place]? = some (.arg v) ∧
      nodes[v.index]? = some { op := .addr, ty := .pointer, sym := some sym }
    else hidden = []

end Push

namespace Code

/-- The operator whose type or kind decides what a code pushes or takes off. -/
def subject? : Code → Option LinId
  | arg l | eval l => some l
  | _ => none

def passes (nodes : List LinNode) (place : Nat) (ps : List Push) : Code → List Push
  | arg l => ⟨place, roundToSlot (nodes.getD l.index default).ty.size⟩ :: ps
  | eval l =>
    let n := nodes.getD l.index default
    if n.op = .call then Push.drain n.aux.toNat ps else ps
  | _ => ps

/-- The blocks that are open after a code, the innermost first; none if it leaves another block. -/
def nest (levels : List Nat) : Code → Option (List Nat)
  | blockEnter level => some (level :: levels)
  | blockLeave level =>
    match levels with
    | top :: rest => if top = level then some rest else none
    | [] => none
  | _ => some levels

end Code

/-- The arguments outstanding before the code at a position, by reading the codes in order. -/
def outstanding (nodes : List LinNode) (codes : List Code) : Nat → List Push
  | 0 => []
  | pos + 1 =>
    match codes[pos]? with
    | some c => c.passes nodes pos (outstanding nodes codes pos)
    | none => outstanding nodes codes pos

namespace Expr

def linearType : Expr → CType
  | const tag _ | deref tag _ | call tag .. => tag.ty
  | addr .. => .pointer
  | unary tag op _ => if op = .not then .int else tag.ty
  | binary tag op .. => if op.arith?.isSome then tag.ty else .int
  | assign tag _ v => if narrows tag.ty v.ty then tag.ty else v.linearType
  | cond tag .. => if tag.ty = .void then .int else tag.ty
  | cast tag x =>
    if tag.ty = .void ∨ x.ty.valueClass = tag.ty.valueClass then x.linearType else tag.ty
  | comma _ _ b => b.linearType

/-- The arguments of a call are as large as the operators that give their values. -/
def ArgsFit : Expr → Prop
  | call _ _ args => ∀ a ∈ args, a.linearType.size = a.ty.size
  | _ => True

instance : DecidablePred ArgsFit
  | call _ _ args => inferInstanceAs (Decidable (∀ a ∈ args, a.linearType.size = a.ty.size))
  | const .. | addr .. | deref .. | unary .. | binary .. | assign .. | cond .. | cast .. | comma .. =>
    isTrue trivial

end Expr

/-- Every number names one node, and the arguments of every call have their size. -/
structure Sized (nodes : List Expr) : Prop where
  same : SameNodes nodes
  fits : ∀ e ∈ nodes, e.ArgsFit

section Outstanding

variable {nodes nodes' : List LinNode} {codes : List Code}

theorem getD_of_prefix (grown : nodes <+: nodes') {l : LinId} (known : l.index < nodes.length) :
    nodes'.getD l.index default = nodes.getD l.index default := by
  obtain ⟨more, rfl⟩ := grown
  rw [List.getD_eq_getElem?_getD, List.getD_eq_getElem?_getD, List.getElem?_append_left known]

theorem Code.passes_of_prefix (grown : nodes <+: nodes') {c : Code}
    (known : ∀ l, c.subject? = some l → l.index < nodes.length) (place : Nat) (ps : List Push) :
    c.passes nodes' place ps = c.passes nodes place ps := by
  cases c with
  | arg l | eval l => simp only [passes, getD_of_prefix grown (known l rfl)]
  | _ => rfl

theorem outstanding_append (grown : nodes <+: nodes')
    (known : ∀ c ∈ codes, ∀ l, c.subject? = some l → l.index < nodes.length) (more : List Code)
    {pos : Nat} (bound : pos ≤ codes.length) :
    outstanding nodes' (codes ++ more) pos = outstanding nodes codes pos := by
  induction pos with
  | zero => rfl
  | succ pos ih =>
    rw [outstanding, outstanding, List.getElem?_append_left bound, ih (Nat.le_of_succ_le bound),
      List.getElem?_eq_getElem bound]
    exact Code.passes_of_prefix grown (known _ (List.getElem_mem bound)) _ _

theorem outstanding_succ {pos : Nat} {c : Code} (here : codes[pos]? = some c) :
    outstanding nodes codes (pos + 1) = c.passes nodes pos (outstanding nodes codes pos) := by
  rw [outstanding, here]

end Outstanding

namespace Draft

def Holds (d : Draft) (id : LinId) (ty : CType) : Prop :=
  ∃ n, d.nodes[id.index]? = some n ∧ n.ty = ty

/-- Whatever has been noted about the nodes has the type that is expected. -/
def Noted (nodes : List Expr) (d : Draft) : Prop :=
  ∀ e ∈ nodes, ∀ id, d.done.lookup e.number = some id → d.Holds id e.linearType

def Numbered (d : Draft) : Prop :=
  d.codes.filterMap Code.lin? = (List.range d.nodes.length).map LinId.mk

/-- Blocks are left in the reverse order of their entry; these are still open. -/
def Nested (d : Draft) (levels : List Nat) : Prop := d.codes.foldlM Code.nest [] = some levels

/-- Labels are made before they are jumped to and placed once; these are still to be placed. -/
structure Labelled (exit : Symbol) (d : Draft) (made : List Symbol) (ahead : List Symbol) :
    Prop where
  bound : ∀ l ∈ made, l.index < d.symbols.size
  distinct : made.Nodup
  waiting : ∀ l ∈ ahead, l ∈ made
  apart : ahead.Nodup
  placed : ∀ l, .label l ∈ d.codes ↔ l ∈ made ∧ l ∉ ahead
  once : (d.codes.filterMap Code.label?).Nodup
  targets : ∀ c ∈ d.codes, ∀ l, c.target? exit = some l → l ∈ made

structure Balanced (exit : Symbol) (nodes : List Expr) (d : Draft) (pushed : List Push)
    (made : List (Symbol × List Push)) : Prop where
  known : ∀ c ∈ d.codes, ∀ l, c.subject? = some l → l.index < d.nodes.length
  noted : d.Noted nodes
  now : outstanding d.nodes d.codes d.codes.length = pushed
  placed : ∀ pos l, d.codes[pos]? = some (.label l) → (l, outstanding d.nodes d.codes pos) ∈ made
  jumps : ∀ pos c l, d.codes[pos]? = some c → c.target? exit = some l →
    (l, outstanding d.nodes d.codes pos) ∈ made
  calls : ∀ pos l n, d.codes[pos]? = some (.eval l) → d.nodes[l.index]? = some n → n.op = .call →
    ∃ tag callee args own, .call tag callee args ∈ nodes ∧
      Push.Calls (d.done.lookup ·) n tag callee ∧
      outstanding d.nodes d.codes pos = own ++ outstanding d.nodes d.codes (pos + 1) ∧
      (Push.total own : Int) = n.aux ∧ Push.Owned d.codes d.nodes (d.done.lookup ·) tag args own

theorem Holds.grow {d d' : Draft} {id : LinId} {ty : CType} (holds : d.Holds id ty)
    (grown : d.nodes <+: d'.nodes) : d'.Holds id ty := by
  obtain ⟨n, found, same⟩ := holds
  exact ⟨n, getElem?_of_grown grown found, same⟩

theorem Noted.grow {nodes : List Expr} {d d' : Draft} (noted : d.Noted nodes)
    (grown : d.nodes <+: d'.nodes) (done : d'.done = d.done) : d'.Noted nodes := by
  intro e inside id known
  rw [done] at known
  exact (noted e inside id known).grow grown

end Draft

theorem Push.Carries.grow {codes codes' : List Code} {value value' : Nat → Option LinId} {a : Expr}
    {x : Push} (carries : Push.Carries codes value a x) (longer : codes <+: codes')
    (stays : ∀ n v, value n = some v → value' n = some v) : Push.Carries codes' value' a x := by
  obtain ⟨v, pushed, known, bytes⟩ := carries
  exact ⟨v, getElem?_of_grown longer pushed, stays _ v known, bytes⟩

theorem Push.Calls.grow {value value' : Nat → Option LinId} {n : LinNode} {tag : NodeTag}
    {callee : Expr} (calls : Push.Calls value n tag callee)
    (stays : ∀ n v, value n = some v → value' n = some v) : Push.Calls value' n tag callee := by
  obtain ⟨⟨v, left, known⟩, same⟩ := calls
  exact ⟨⟨v, left, stays _ v known⟩, same⟩

theorem Push.Owned.grow {codes codes' : List Code} {nodes nodes' : List LinNode}
    {value value' : Nat → Option LinId} {tag : NodeTag} {args : List Expr} {own : List Push}
    (owned : Push.Owned codes nodes value tag args own) (longer : codes <+: codes')
    (grown : nodes <+: nodes') (stays : ∀ n v, value n = some v → value' n = some v) :
    Push.Owned codes' nodes' value' tag args own := by
  obtain ⟨hidden, rest, split, carried, address⟩ := owned
  refine ⟨hidden, rest, split, carried.imp fun _ _ carries => carries.grow longer stays, ?_⟩
  split at address
  · rename_i struct
    obtain ⟨place, v, sym, only, pushed, evaluated⟩ := address
    rw [if_pos struct]
    exact ⟨place, v, sym, only, getElem?_of_grown longer pushed,
      getElem?_of_grown grown evaluated⟩
  · rename_i scalar
    rw [if_neg scalar]
    exact address

theorem Push.Owned.pos {codes : List Code} {nodes : List LinNode} {value : Nat → Option LinId}
    {tag : NodeTag} {args : List Expr} {own : List Push}
    (owned : Push.Owned codes nodes value tag args own) : ∀ x ∈ own, 0 < x.bytes := by
  obtain ⟨hidden, rest, rfl, carried, address⟩ := owned
  have first : ∀ x ∈ hidden, 0 < x.bytes := by
    split at address
    · obtain ⟨place, v, sym, rfl, -, -⟩ := address
      exact List.forall_mem_singleton.mpr (roundToSlot_pos _)
    · subst address
      exact List.forall_mem_nil _
  have later : ∀ x ∈ rest, 0 < x.bytes := by
    induction carried with
    | nil => exact List.forall_mem_nil _
    | cons head _ ih =>
      obtain ⟨v, -, -, bytes⟩ := head
      exact List.forall_mem_cons.mpr ⟨bytes ▸ roundToSlot_pos _, ih⟩
  exact List.forall_mem_append.mpr ⟨first, later⟩

namespace Draft

section Steps

variable {exit : Symbol} {nodes : List Expr} {d : Draft} {pushed : List Push}
  {made made' : List (Symbol × List Push)}

theorem Balanced.append (balanced : Balanced exit nodes d pushed made) (c : Code)
    {operators : List LinNode} (grown : d.nodes <+: operators) (kept : made ⊆ made')
    (known : ∀ l, c.subject? = some l → l.index < operators.length)
    (label : ∀ l, c = .label l → (l, pushed) ∈ made')
    (jump : ∀ l, c.target? exit = some l → (l, pushed) ∈ made')
    (call : ∀ l n, c = .eval l → operators[l.index]? = some n → n.op = .call →
      ∃ tag callee args own, .call tag callee args ∈ nodes ∧
        Push.Calls (d.done.lookup ·) n tag callee ∧ pushed = own ++ c.passes operators d.codes.length pushed ∧
        (Push.total own : Int) = n.aux ∧ Push.Owned d.codes d.nodes (d.done.lookup ·) tag args own)
    (symbols : SymbolTable) :
    Balanced exit nodes ⟨symbols, d.codes ++ [c], operators, d.done⟩
      (c.passes operators d.codes.length pushed) made' := by
  have old {pos : Nat} (bound : pos ≤ d.codes.length) :
      outstanding operators (d.codes ++ [c]) pos = outstanding d.nodes d.codes pos :=
    outstanding_append grown balanced.known [c] bound
  have last : outstanding operators (d.codes ++ [c]) d.codes.length = pushed := by
    rw [old (Nat.le_refl _), balanced.now]
  have after : outstanding operators (d.codes ++ [c]) (d.codes.length + 1) =
      c.passes operators d.codes.length pushed := by
    rw [outstanding_succ (c := c) (by simp), last]
  -- What is outstanding at an old position does not change; the new code is the one at `last`.
  refine ⟨?_, balanced.noted.grow grown rfl, ?_, ?_, ?_, ?_⟩
  · intro c' inside l subject
    rcases List.mem_append.mp inside with before | new
    · exact Nat.lt_of_lt_of_le (balanced.known c' before l subject) grown.length_le
    · rw [List.mem_singleton.mp new] at subject
      exact known l subject
  · simpa using after
  · intro pos l here
    rcases Ledger.getElem?_concat_eq_some.mp here with before | ⟨rfl, rfl⟩
    · rw [old (Nat.le_of_lt (List.getElem?_eq_some_iff.mp before).1)]
      exact kept (balanced.placed pos l before)
    · exact last ▸ label l rfl
  · intro pos c' l here target
    rcases Ledger.getElem?_concat_eq_some.mp here with before | ⟨rfl, rfl⟩
    · rw [old (Nat.le_of_lt (List.getElem?_eq_some_iff.mp before).1)]
      exact kept (balanced.jumps pos c' l before target)
    · exact last ▸ jump l target
  · intro pos l n here found called
    have longer : d.codes <+: d.codes ++ [c] := List.prefix_append _ _
    rcases Ledger.getElem?_concat_eq_some.mp here with before | ⟨rfl, rfl⟩
    · have bound := (List.getElem?_eq_some_iff.mp before).1
      have operator := balanced.known _ (List.mem_of_getElem? before) l rfl
      have found' : d.nodes[l.index]? = some n := by
        rw [← found]
        obtain ⟨more, rfl⟩ := grown
        exact (List.getElem?_append_left operator).symm
      obtain ⟨tag, callee, args, own, inside, calls, taken, bytes, owned⟩ :=
        balanced.calls pos l n before found' called
      refine ⟨tag, callee, args, own, inside, calls, ?_, bytes,
        owned.grow longer grown fun _ _ k => k⟩
      rw [old (Nat.le_of_lt bound), old bound]
      exact taken
    · obtain ⟨tag, callee, args, own, inside, calls, taken, bytes, owned⟩ :=
        call l n rfl found called
      refine ⟨tag, callee, args, own, inside, calls, ?_, bytes,
        owned.grow longer grown fun _ _ k => k⟩
      rw [last, after]
      exact taken

theorem Balanced.enter (balanced : Balanced exit nodes d pushed made) (symbols : SymbolTable)
    (kept : made ⊆ made') : Balanced exit nodes { d with symbols } pushed made' where
  known := balanced.known
  noted := balanced.noted
  now := balanced.now
  placed pos l here := kept (balanced.placed pos l here)
  jumps pos c l here target := kept (balanced.jumps pos c l here target)
  calls := balanced.calls

theorem Balanced.settle (balanced : Balanced exit nodes d pushed made) (same : SameNodes nodes)
    {e : Expr} (inside : e ∈ nodes) {id : LinId} (holds : d.Holds id e.linearType)
    (unknown : d.done.lookup e.number = none) :
    Balanced exit nodes (d.settle e.number id) pushed made where
  known := balanced.known
  noted e' inside' id' known := by
    rw [lookup_settle] at known
    split at known
    · rename_i equal
      cases known
      rw [same e' inside' e inside equal]
      exact holds
    · exact balanced.noted e' inside' id' known
  now := balanced.now
  placed := balanced.placed
  jumps := balanced.jumps
  calls pos l n here found called := by
    obtain ⟨tag, callee, args, own, inside, calls, taken, bytes, owned⟩ :=
      balanced.calls pos l n here found called
    have stays (n v) (known : d.done.lookup n = some v) :
        (d.settle e.number id).done.lookup n = some v := stable_settle unknown known
    exact ⟨tag, callee, args, own, inside, calls.grow stays, taken, bytes,
      owned.grow List.prefix_rfl List.prefix_rfl stays⟩

end Steps

section Steps

variable {exit : Symbol} {d : Draft} {made ahead : List Symbol}

theorem Labelled.append (labelled : Labelled exit d made ahead) {c : Code}
    (unlabelled : c.label? = none) (target : ∀ l, c.target? exit = some l → l ∈ made)
    (operators : List LinNode) :
    Labelled exit ⟨d.symbols, d.codes ++ [c], operators, d.done⟩ made ahead where
  bound := labelled.bound
  distinct := labelled.distinct
  waiting := labelled.waiting
  apart := labelled.apart
  placed l := by
    have other : c ≠ .label l := by
      rintro rfl
      cases unlabelled
    rw [← labelled.placed l, List.mem_append, List.mem_singleton]
    simp [Ne.symm other]
  once := by simpa [List.filterMap_append, unlabelled] using labelled.once
  targets c' inside l goes := by
    rcases List.mem_append.mp inside with old | new
    · exact labelled.targets c' old l goes
    · rw [List.mem_singleton.mp new] at goes
      exact target l goes

theorem Labelled.enter (labelled : Labelled exit d made ahead) {symbols : SymbolTable}
    (more : d.symbols.size ≤ symbols.size) : Labelled exit { d with symbols } made ahead where
  bound l inside := Nat.lt_of_lt_of_le (labelled.bound l inside) more
  distinct := labelled.distinct
  waiting := labelled.waiting
  apart := labelled.apart
  placed := labelled.placed
  once := labelled.once
  targets := labelled.targets

theorem size_label (d : Draft) : d.label.symbols.size = d.symbols.size + 1 :=
  SymbolTable.size_push ..

theorem Labelled.label (labelled : Labelled exit d made ahead) :
    Labelled exit d.label (d.fresh :: made) (d.fresh :: ahead) := by
  have unmade : d.fresh ∉ made := fun inside => Nat.lt_irrefl _ (labelled.bound _ inside)
  have unplaced : .label d.fresh ∉ d.codes := fun inside =>
    unmade ((labelled.placed d.fresh).mp inside).1
  refine ⟨?_, List.nodup_cons.mpr ⟨unmade, labelled.distinct⟩, ?_, ?_, ?_, labelled.once, ?_⟩
  · intro l inside
    rw [size_label]
    rcases List.mem_cons.mp inside with rfl | old
    · exact Nat.lt_succ_self _
    · exact Nat.lt_succ_of_lt (labelled.bound l old)
  · intro l inside
    rcases List.mem_cons.mp inside with rfl | old
    · exact List.mem_cons_self
    · exact List.mem_cons_of_mem _ (labelled.waiting l old)
  · exact List.nodup_cons.mpr ⟨fun old => unmade (labelled.waiting _ old), labelled.apart⟩
  · intro l
    change .label l ∈ d.codes ↔ _
    by_cases same : l = d.fresh
    · subst same
      simpa using unplaced
    · simpa [same] using labelled.placed l
  · intro c inside l goes
    exact List.mem_cons_of_mem _ (labelled.targets c inside l goes)

theorem Labelled.place {before after : List Symbol} {l : Symbol}
    (labelled : Labelled exit d made (before ++ l :: after)) :
    Labelled exit (d.place l) made (before ++ after) := by
  have moved : (before ++ l :: after).Perm (l :: (before ++ after)) := List.perm_middle
  have apart := List.nodup_cons.mp (moved.nodup_iff.mp labelled.apart)
  have open_ : l ∈ before ++ l :: after := by simp
  have unplaced : .label l ∉ d.codes := fun inside => ((labelled.placed l).mp inside).2 open_
  refine ⟨labelled.bound, labelled.distinct, ?_, apart.2, ?_, ?_, ?_⟩
  · intro k inside
    exact labelled.waiting k (moved.mem_iff.mpr (List.mem_cons_of_mem l inside))
  · intro k
    rw [Draft.place, code, List.mem_append, List.mem_singleton, labelled.placed k, moved.mem_iff]
    by_cases same : k = l
    · subst same
      simp [apart.1, labelled.waiting k open_]
    · simp [same]
  · rw [Draft.place, code, List.filterMap_append, List.nodup_append]
    refine ⟨labelled.once, by simp [Code.label?], ?_⟩
    rintro k old _ new rfl
    have same : k = l := by simpa [Code.label?] using new
    obtain ⟨c, placed, names⟩ := List.mem_filterMap.mp old
    cases c with
    | label m =>
      cases names
      exact unplaced (same ▸ placed)
    | _ => cases names
  · intro c inside k goes
    rcases List.mem_append.mp inside with old | new
    · exact labelled.targets c old k goes
    · rw [List.mem_singleton.mp new] at goes
      cases goes

end Steps

end Draft

end CBackend
