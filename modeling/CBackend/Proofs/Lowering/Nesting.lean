import CBackend.Proofs.Lowering.Unshared
import CBackend.Proofs.StateError

/-!
The budget for nesting. Lowering counts the expressions that are open and closes each one it has
opened, whether or not what is inside fails. The refusal itself is the exception: the expression that
is refused stays counted. So the counter rises by one with every such refusal and with nothing else,
and what an expression is refused for depends on the expression, on which labels are given and on the
counter only.

Both facts come from two runs side by side that have equally many expressions open and know the same
nodes of the expression. They differ in the code, the symbols and the labels made before, and in the
nodes known from elsewhere.
-/

namespace CBackend

open Lower

def CompileError.tooDeep : CompileError := .unsupported (.nesting maxDepth)

def CompileError.leftOpen (e : CompileError) : Nat := if e = tooDeep then 1 else 0

/-- Two passes with equally many open expressions that know the same ones of these nodes. -/
structure Lowering.Level (ns : List Nat) (s s' : Lowering) : Prop where
  depth : s'.depth = s.depth
  known : ∀ n ∈ ns, (s'.done.lookup n).isSome = (s.done.lookup n).isSome

namespace Lowering

def opened (s : Lowering) : Lowering := { s with depth := s.depth + 1 }

def closed (s : Lowering) : Lowering := { s with depth := s.depth - 1 }

@[simp]
theorem opened_depth (s : Lowering) : s.opened.depth = s.depth + 1 := rfl

@[simp]
theorem closed_depth (s : Lowering) : s.closed.depth = s.depth - 1 := rfl

end Lowering

namespace Lower

variable {α β γ δ : Type} {ns : List Nat} {s s' : Lowering}

/-- Outcomes of two runs that began with so many expressions open. -/
inductive Agree (ns : List Nat) (depth : Nat) :
    EStateM.Result CompileError Lowering α → EStateM.Result CompileError Lowering β → Prop
  | ok {a b s s'} (closed : s.depth = depth) (level : s.Level ns s') : Agree ns depth (.ok a s) (.ok b s')
  | failed {e s s'} (left : s.depth = depth + e.leftOpen) (right : s'.depth = s.depth) :
      Agree ns depth (.error e s) (.error e s')

def Alike (ns : List Nat) (x : Lower α) (y : Lower β) : Prop :=
  ∀ s s', s.Level ns s' → Agree ns s.depth (x s) (y s')

/-- Computations that neither fail nor touch the counter or the notes. -/
def Steady (x : Lower α) : Prop :=
  ∀ s, ∃ a s', x s = .ok a s' ∧ s'.depth = s.depth ∧ s'.done = s.done

def close : EStateM.Result CompileError Lowering α → EStateM.Result CompileError Lowering α
  | .ok a s => .ok a s.closed
  | .error e s => .error e s.closed

theorem nested_run (x : Lower α) (s : Lowering) :
    nested x s = if maxDepth < s.depth + 1 then .error .tooDeep s.opened else close (x s.opened) := by
  have entered : enter s =
      if maxDepth < s.depth + 1 then .error .tooDeep s.opened else .ok () s.opened := by
    change (if maxDepth < s.depth + 1 then (throw .tooDeep : Lower Unit) else pure ()) s.opened = _
    by_cases deep : maxDepth < s.depth + 1
    · simp only [if_pos deep]
      rfl
    · simp only [if_neg deep]
      rfl
  change EStateM.bind enter _ s = _
  by_cases deep : maxDepth < s.depth + 1
  · rw [EStateM.bind, entered, if_pos deep, if_pos deep]
  · rw [EStateM.bind, entered, if_neg deep, if_neg deep]
    change EStateM.map _ _ s.opened = _
    simp only [EStateM.map, tryFinally']
    cases x s.opened <;> rfl

theorem Agree.close {depth : Nat} {r : EStateM.Result CompileError Lowering α}
    {r' : EStateM.Result CompileError Lowering β} (agree : Agree ns (depth + 1) r r') :
    Agree ns depth (close r) (close r') := by
  cases agree with
  | ok closed level => exact .ok (by simp [closed]) ⟨by simp [level.depth], level.known⟩
  | failed left right =>
    refine .failed ?_ (by simp [right])
    simp only [Lowering.closed_depth, left]
    omega

section Steady

theorem Steady.pure (a : α) : Steady (pure a) := fun s => ⟨a, s, rfl, rfl, rfl⟩

theorem Steady.bind {x : Lower α} {f : α → Lower β} (first : Steady x) (next : ∀ a, Steady (f a)) :
    Steady (x >>= f) := by
  intro s
  obtain ⟨a, s₁, run, depth, done⟩ := first s
  obtain ⟨b, s₂, run', depth', done'⟩ := next a s₁
  exact ⟨b, s₂, by rw [bind_run run, run'], depth'.trans depth, done'.trans done⟩

theorem steady_get : Steady get := fun s => ⟨s, s, rfl, rfl, rfl⟩

theorem steady_code (c : Code) : Steady (code c) := fun _ => ⟨_, _, rfl, rfl, rfl⟩

theorem steady_emit (n : LinNode) : Steady (emit n) := fun _ => ⟨_, _, rfl, rfl, rfl⟩

theorem steady_onSymbols (step : SymbolTable → α × SymbolTable) : Steady (onSymbols step) :=
  fun _ => ⟨_, _, rfl, rfl, rfl⟩

theorem steady_freshLabel : Steady freshLabel := steady_onSymbols _

theorem steady_zero (ty : CType) : Steady (zero ty) :=
  (steady_onSymbols _).bind fun _ => steady_emit _

theorem steady_freshTemp (ty : CType) : Steady (freshTemp ty) :=
  (steady_onSymbols _).bind fun _ => (steady_code _).bind fun _ => .pure _

theorem steady_storeTo (sym : Symbol) (ty : CType) (v : LinId) : Steady (storeTo sym ty v) :=
  (steady_emit _).bind fun _ => (steady_emit _).bind fun _ => .pure _

theorem steady_loadFrom (sym : Symbol) (ty : CType) : Steady (loadFrom sym ty) :=
  (steady_emit _).bind fun _ => steady_emit _

end Steady

namespace Alike

variable {x : Lower α} {y : Lower β} {f : α → Lower γ} {g : β → Lower δ}

theorem of_steady (left : Steady x) (right : Steady y) : Alike ns x y := by
  intro s s' level
  obtain ⟨a, s₁, run, depth, done⟩ := left s
  obtain ⟨b, s₁', run', depth', done'⟩ := right s'
  rw [run, run']
  refine .ok depth ⟨?_, ?_⟩
  · rw [depth, depth', level.depth]
  · rw [done, done']
    exact level.known

theorem pure (a : α) (b : β) : Alike ns (pure a) (pure b) := of_steady (.pure a) (.pure b)

theorem throw {e : CompileError} (other : e ≠ .tooDeep) :
    Alike ns (throw e : Lower α) (throw e : Lower β) := by
  intro s s' level
  exact .failed (by simp [CompileError.leftOpen, other]) level.depth

theorem bind (first : Alike ns x y) (next : ∀ a b, Alike ns (f a) (g b)) :
    Alike ns (x >>= f) (y >>= g) := by
  intro s s' level
  have agree := first s s' level
  change Agree ns s.depth (EStateM.bind x f s) (EStateM.bind y g s')
  unfold EStateM.bind
  cases run : x s with
  | ok a s₁ =>
    cases run' : y s' with
    | ok b s₁' =>
      rw [run, run'] at agree
      cases agree with
      | ok closed level' => exact closed ▸ next a b s₁ s₁' level'
    | error e s₁' =>
      rw [run, run'] at agree
      cases agree
  | error e s₁ =>
    cases run' : y s' with
    | ok b s₁' =>
      rw [run, run'] at agree
      cases agree
    | error e' s₁' =>
      rw [run, run'] at agree
      cases agree with
      | failed left right => exact .failed left right

theorem after (left : Steady x) (right : Steady y) (next : ∀ a b, Alike ns (f a) (g b)) :
    Alike ns (x >>= f) (y >>= g) := (of_steady left right).bind next

theorem look {n : Nat} {f : Option LinId → Lower γ} {g : Option LinId → Lower δ} (inside : n ∈ ns)
    (known : ∀ v w, Alike ns (f (some v)) (g (some w))) (unknown : Alike ns (f none) (g none)) :
    Alike ns (lowered? n >>= f) (lowered? n >>= g) := by
  intro s s' level
  have same := level.known n inside
  change Agree ns s.depth (f (s.done.lookup n) s) (g (s'.done.lookup n) s')
  cases left : s.done.lookup n with
  | none =>
    rw [left, Option.isSome_none, Option.isSome_eq_false_iff, Option.isNone_iff_eq_none] at same
    rw [same]
    exact unknown s s' level
  | some v =>
    rw [left, Option.isSome_some, Option.isSome_iff_exists] at same
    obtain ⟨w, right⟩ := same
    rw [right]
    exact known v w s s' level

theorem nested (inner : Alike ns x y) : Alike ns (nested x) (nested y) := by
  intro s s' level
  rw [nested_run, nested_run, level.depth]
  split
  · exact .failed (by simp [CompileError.leftOpen]) (by simp [level.depth])
  · exact (inner s.opened s'.opened ⟨by simp [level.depth], level.known⟩).close

theorem once {n : Nat} {x y : Lower LinId} (inside : n ∈ ns) (inner : Alike ns x y) :
    Alike ns (once n x) (once n y) := by
  refine look inside (fun v w => pure v w) (bind (nested inner) fun v w => ?_)
  intro s s' level
  refine .ok rfl ⟨level.depth, fun m member => ?_⟩
  change (List.lookup m ((n, w) :: s'.done)).isSome = (List.lookup m ((n, v) :: s.done)).isSome
  simp only [List.lookup_cons]
  split
  · rfl
  · exact level.known m member

end Alike

inductive Given : Option Symbol → Option Symbol → Prop
  | absent : Given none none
  | present {l l'} : Given (some l) (some l')

/-- Jumps whose course depends on which labels are given, not on the labels. -/
def JumpsAlike (ns : List Nat) (jump : (t f : Option Symbol) → Lower Unit) : Prop :=
  ∀ {t t' f f'}, Given t t' → Given f f' → Alike ns (jump t f) (jump t' f')

theorem Alike.compare (cond cond' : Cond) (l r l' r' : LinId) {t t' f f' : Option Symbol}
    (yes : Given t t') (no : Given f f') :
    Alike ns (compare cond l r t f) (compare cond' l' r' t' f') := by
  cases yes with
  | present =>
    refine after (steady_emit _) (steady_emit _) fun c c' =>
      after (steady_code _) (steady_code _) fun _ _ => ?_
    cases no with
    | present => exact of_steady (steady_code _) (steady_code _)
    | absent => exact pure _ _
  | absent =>
    cases no with
    | present =>
      exact after (steady_emit _) (steady_emit _) fun c c' =>
        of_steady (steady_code _) (steady_code _)
    | absent => exact throw (by decide)

theorem Alike.testValue (ty : CType) (v w : LinId) {t t' f f' : Option Symbol} (yes : Given t t')
    (no : Given f f') : Alike ns (testValue ty v t f) (testValue ty w t' f') :=
  after (steady_zero ty) (steady_zero ty) fun _ _ => compare _ _ _ _ _ _ yes no

end Lower

structure NodeLowering.Alike (ns : List Nat) (n : NodeLowering) : Prop where
  value : Lower.Alike ns (n .value) (n .value)
  effect : Lower.Alike ns (n .effect) (n .effect)
  branch : JumpsAlike ns fun t f => n (.branch t f)

namespace NodeLowering

variable {ns : List Nat} {tag : NodeTag} {inner : Lower LinId} {special : Lower Unit}
  {jump : (t f : Option Symbol) → Lower Unit} {p q r : Part}

theorem branchWith_alike (inside : tag.number ∈ ns) (jumps : JumpsAlike ns jump) :
    JumpsAlike ns (branchWith tag jump) := by
  intro t t' f f' yes no
  unfold branchWith
  split
  · exact .bind (.throw (by decide)) fun _ _ =>
      .look inside (fun v w => .testValue _ v w yes no) (jumps yes no)
  · exact .look inside (fun v w => .testValue _ v w yes no) (jumps yes no)

theorem effectWith_alike (inside : tag.number ∈ ns) (runs : Lower.Alike ns special special) :
    Lower.Alike ns (effectWith tag special) (effectWith tag special) :=
  .look inside (fun _ _ => .pure _ _) runs

theorem ofJump_alike (inside : tag.number ∈ ns) (computes : Lower.Alike ns inner inner)
    (jumps : JumpsAlike ns jump) : (ofJump tag inner jump).Alike ns where
  value := .once inside computes
  effect := .bind (.once inside computes) fun _ _ => .pure _ _
  branch yes no := .nested (branchWith_alike inside jumps yes no)

theorem ofValue_alike (inside : tag.number ∈ ns) (computes : Lower.Alike ns inner inner) :
    (ofValue tag inner).Alike ns :=
  ofJump_alike inside computes fun yes no =>
    .bind (.once inside computes) fun v w => .testValue _ v w yes no

theorem const_alike (inside : tag.number ∈ ns) (sym : Symbol) : (const tag sym).Alike ns := by
  refine ofJump_alike inside (.of_steady (steady_emit _) (steady_emit _)) fun {t t' f f'} _ _ => ?_
  refine .of_steady (steady_get.bind fun _ => ?_) (steady_get.bind fun _ => ?_) <;>
  · dsimp only
    split
    · exact steady_code _
    · exact .pure _

theorem deref_alike (inside : tag.number ∈ ns) (address : p.lower.Alike ns) :
    (deref tag p).Alike ns :=
  ofValue_alike inside <| .bind address.value fun _ _ => .of_steady (steady_emit _) (steady_emit _)

theorem unary_alike (inside : tag.number ∈ ns) (op : UnaryOp) (operand : p.lower.Alike ns) :
    (unary tag op p).Alike ns := by
  have arith (op : Op) : (arithUnary tag op p).Alike ns :=
    ofValue_alike inside <| .bind operand.value fun _ _ => .of_steady (steady_emit _) (steady_emit _)
  cases op with
  | neg => exact arith .neg
  | compl => exact arith .compl
  | not =>
    refine ofJump_alike inside ?_ fun yes no => operand.branch no yes
    exact .bind operand.value fun _ _ => .after (steady_zero _) (steady_zero _) fun _ _ =>
      .of_steady (steady_emit _) (steady_emit _)

theorem truthValue_alike (jumps : JumpsAlike ns jump) :
    Lower.Alike ns (truthValue jump) (truthValue jump) :=
  .after (steady_freshTemp _) (steady_freshTemp _) fun _ _ =>
  .after steady_freshLabel steady_freshLabel fun _ _ =>
  .after steady_freshLabel steady_freshLabel fun _ _ => .bind (jumps .absent .present) fun _ _ =>
  .after (steady_onSymbols _) (steady_onSymbols _) fun _ _ =>
  .after (steady_emit _) (steady_emit _) fun _ _ =>
  .after (steady_storeTo _ _ _) (steady_storeTo _ _ _) fun _ _ =>
  .after (steady_code _) (steady_code _) fun _ _ => .after (steady_code _) (steady_code _) fun _ _ =>
  .after (steady_zero _) (steady_zero _) fun _ _ =>
  .after (steady_storeTo _ _ _) (steady_storeTo _ _ _) fun _ _ =>
  .after (steady_code _) (steady_code _) fun _ _ =>
  .of_steady (steady_loadFrom _ _) (steady_loadFrom _ _)

theorem logical_alike (inside : tag.number ∈ ns) (jumps : JumpsAlike ns jump)
    (runs : Lower.Alike ns special special) : (logical tag jump special).Alike ns := by
  have whole := ofJump_alike inside (truthValue_alike (branchWith_alike inside jumps)) jumps
  exact ⟨whole.value, effectWith_alike inside runs, whole.branch⟩

section Binary

variable (inside : tag.number ∈ ns) (left : p.lower.Alike ns) (right : q.lower.Alike ns)
include inside left right

theorem arith_alike (op : Op) : (arith tag op p q).Alike ns :=
  ofValue_alike inside <| .bind left.value fun _ _ => .bind right.value fun _ _ =>
    .of_steady (steady_emit _) (steady_emit _)

theorem relation_alike (cond : Cond) : (relation tag cond p q).Alike ns := by
  refine ofJump_alike inside ?_ fun yes no => ?_
  · exact .bind left.value fun _ _ => .bind right.value fun _ _ =>
      .of_steady (steady_emit _) (steady_emit _)
  · exact .bind left.value fun _ _ => .bind right.value fun _ _ => .compare _ _ _ _ _ _ yes no

theorem logAnd_alike : (logAnd tag p q).Alike ns := by
  refine logical_alike inside (fun yes no => ?_) ?_
  · cases no with
    | present => exact .bind (left.branch .absent .present) fun _ _ => right.branch yes .present
    | absent =>
      exact .after steady_freshLabel steady_freshLabel fun _ _ =>
        .bind (left.branch .absent .present) fun _ _ => .bind (right.branch yes .absent) fun _ _ =>
        .of_steady (steady_code _) (steady_code _)
  · exact .after steady_freshLabel steady_freshLabel fun _ _ =>
      .bind (left.branch .absent .present) fun _ _ => .bind right.effect fun _ _ =>
      .of_steady (steady_code _) (steady_code _)

theorem logOr_alike : (logOr tag p q).Alike ns := by
  refine logical_alike inside (fun yes no => ?_) ?_
  · cases yes with
    | present => exact .bind (left.branch .present .absent) fun _ _ => right.branch .present no
    | absent =>
      exact .after steady_freshLabel steady_freshLabel fun _ _ =>
        .bind (left.branch .present .absent) fun _ _ => .bind (right.branch .absent no) fun _ _ =>
        .of_steady (steady_code _) (steady_code _)
  · exact .after steady_freshLabel steady_freshLabel fun _ _ =>
      .bind (left.branch .present .absent) fun _ _ => .bind right.effect fun _ _ =>
      .of_steady (steady_code _) (steady_code _)

theorem binary_alike (op : BinaryOp) : (binary tag op p q).Alike ns := by
  cases op with
  | logAnd => exact logAnd_alike inside left right
  | logOr => exact logOr_alike inside left right
  | eq | ne | lt | le | gt | ge => exact relation_alike inside left right _
  | add | sub | mul | div | mod | and | or | xor | shl | shr => exact arith_alike inside left right _

theorem assign_alike : (assign tag p q).Alike ns := by
  refine ofValue_alike inside <| .bind left.value fun _ _ => .bind right.value fun _ _ =>
    .after (steady_emit _) (steady_emit _) fun _ _ => ?_
  split
  · exact .of_steady (steady_emit _) (steady_emit _)
  · exact .pure _ _

theorem comma_alike : (comma tag p q).Alike ns := by
  have whole := ofJump_alike inside (.bind left.effect fun _ _ => right.value)
    fun yes no => .bind left.effect fun _ _ => right.branch yes no
  exact ⟨whole.value, .bind left.effect fun _ _ => right.effect, whole.branch⟩

end Binary

theorem choose_alike (test : p.lower.Alike ns) (left : q.lower.Alike ns) (right : r.lower.Alike ns) :
    Lower.Alike ns (choose p q r) (choose p q r) :=
  .after steady_freshLabel steady_freshLabel fun _ _ =>
  .after steady_freshLabel steady_freshLabel fun _ _ =>
  .bind (test.branch .absent .present) fun _ _ => .bind left.effect fun _ _ =>
  .after (steady_code _) (steady_code _) fun _ _ => .after (steady_code _) (steady_code _) fun _ _ =>
  .bind right.effect fun _ _ => .of_steady (steady_code _) (steady_code _)

theorem chooseValue_alike (ty : CType) (test : p.lower.Alike ns) (left : q.lower.Alike ns)
    (right : r.lower.Alike ns) : Lower.Alike ns (chooseValue ty p q r) (chooseValue ty p q r) :=
  .after (steady_freshTemp _) (steady_freshTemp _) fun _ _ =>
  .after steady_freshLabel steady_freshLabel fun _ _ =>
  .after steady_freshLabel steady_freshLabel fun _ _ =>
  .bind (test.branch .absent .present) fun _ _ => .bind left.value fun _ _ =>
  .after (steady_storeTo _ _ _) (steady_storeTo _ _ _) fun _ _ =>
  .after (steady_code _) (steady_code _) fun _ _ => .after (steady_code _) (steady_code _) fun _ _ =>
  .bind right.value fun _ _ => .after (steady_storeTo _ _ _) (steady_storeTo _ _ _) fun _ _ =>
  .after (steady_code _) (steady_code _) fun _ _ =>
  .of_steady (steady_loadFrom _ _) (steady_loadFrom _ _)

theorem cond_alike (inside : tag.number ∈ ns) (test : p.lower.Alike ns) (left : q.lower.Alike ns)
    (right : r.lower.Alike ns) : (cond tag p q r).Alike ns := by
  have whole : (ofValue tag (if tag.ty = .void then do
        choose p q r
        zero .int
      else chooseValue tag.ty p q r)).Alike ns := by
    refine ofValue_alike inside ?_
    split
    · exact .bind (choose_alike test left right) fun _ _ => .of_steady (steady_zero _) (steady_zero _)
    · exact chooseValue_alike _ test left right
  exact ⟨whole.value, effectWith_alike inside (choose_alike test left right), whole.branch⟩

theorem countBytes_alike {α β : Type} (bytes size : Nat) {f : Nat → Lower α} {g : Nat → Lower β}
    (rest : ∀ bytes, Lower.Alike ns (f bytes) (g bytes)) :
    Lower.Alike ns (countBytes bytes size >>= f) (countBytes bytes size >>= g) := by
  rw [countBytes_bind, countBytes_bind]
  split
  · exact rest _
  · exact .throw nofun

theorem pushArgs_alike {α β : Type} {args : List Part} (each : ∀ p ∈ args, p.lower.Alike ns)
    (bytes : Nat) {f : Nat → Lower α} {g : Nat → Lower β}
    (rest : ∀ bytes, Lower.Alike ns (f bytes) (g bytes)) :
    Lower.Alike ns (pushArgs bytes args >>= f) (pushArgs bytes args >>= g) := by
  induction args generalizing bytes with
  | nil => exact rest bytes
  | cons arg args ih =>
    simp only [pushArgs, bind_assoc]
    refine .bind (each arg List.mem_cons_self).value fun _ _ => ?_
    refine .after (steady_code _) (steady_code _) fun _ _ => countBytes_alike _ _ fun bytes => ?_
    exact ih (fun p later => each p (List.mem_cons_of_mem arg later)) bytes

theorem call_alike (inside : tag.number ∈ ns) (callee : p.lower.Alike ns) {args : List Part}
    (each : ∀ a ∈ args, a.lower.Alike ns) : (call tag p args).Alike ns := by
  have reversed (a : Part) (member : a ∈ args.reverse) := each a (List.mem_reverse.mp member)
  refine ofValue_alike inside ?_
  split
  · refine .after (steady_freshTemp _) (steady_freshTemp _) fun _ _ => ?_
    refine pushArgs_alike reversed 0 fun _ => .after (steady_emit _) (steady_emit _) fun _ _ => ?_
    refine .after (steady_code _) (steady_code _) fun _ _ => countBytes_alike _ _ fun _ => ?_
    exact .bind callee.value fun _ _ => .after (steady_emit _) (steady_emit _) fun _ _ =>
      .of_steady (steady_loadFrom _ _) (steady_loadFrom _ _)
  · exact pushArgs_alike reversed 0 fun _ => .bind callee.value fun _ _ =>
      .of_steady (steady_emit _) (steady_emit _)

theorem cast_alike (inside : tag.number ∈ ns) (operand : p.lower.Alike ns) :
    (cast tag p).Alike ns := by
  refine ofValue_alike inside <| .bind operand.value fun _ _ => ?_
  split
  · exact .pure _ _
  · exact .of_steady (steady_emit _) (steady_emit _)

end NodeLowering

namespace Expr

variable {ns : List Nat}

mutual

theorem alike : (e : Expr) → e.numbers ⊆ ns → e.lower.Alike ns
  | .const _ sym, within => NodeLowering.const_alike (within List.mem_cons_self) sym
  | .addr _ _, within =>
    NodeLowering.ofValue_alike (within List.mem_cons_self) (.of_steady (steady_emit _) (steady_emit _))
  | .deref _ x, within => by
    obtain ⟨inside, operand⟩ := List.cons_subset.mp within
    exact NodeLowering.deref_alike inside (alike x operand)
  | .unary _ op x, within => by
    obtain ⟨inside, operand⟩ := List.cons_subset.mp within
    exact NodeLowering.unary_alike inside op (alike x operand)
  | .cast _ x, within => by
    obtain ⟨inside, operand⟩ := List.cons_subset.mp within
    exact NodeLowering.cast_alike inside (alike x operand)
  | .binary _ op a b, within => by
    obtain ⟨inside, operands⟩ := List.cons_subset.mp within
    obtain ⟨left, right⟩ := List.append_subset.mp operands
    exact NodeLowering.binary_alike inside (alike a left) (alike b right) op
  | .assign _ a b, within => by
    obtain ⟨inside, operands⟩ := List.cons_subset.mp within
    obtain ⟨left, right⟩ := List.append_subset.mp operands
    exact NodeLowering.assign_alike inside (alike a left) (alike b right)
  | .comma _ a b, within => by
    obtain ⟨inside, operands⟩ := List.cons_subset.mp within
    obtain ⟨left, right⟩ := List.append_subset.mp operands
    exact NodeLowering.comma_alike inside (alike a left) (alike b right)
  | .cond _ c a b, within => by
    obtain ⟨inside, operands⟩ := List.cons_subset.mp within
    obtain ⟨test, arms⟩ := List.append_subset.mp operands
    obtain ⟨left, right⟩ := List.append_subset.mp arms
    exact NodeLowering.cond_alike inside (alike c test) (alike a left) (alike b right)
  | .call _ callee args, within => by
    obtain ⟨inside, operands⟩ := List.cons_subset.mp within
    obtain ⟨first, rest⟩ := List.append_subset.mp operands
    exact NodeLowering.call_alike inside (alike callee first) (parts_alike args rest)

theorem parts_alike : (es : List Expr) → allNumbers es ⊆ ns → ∀ p ∈ parts es, p.lower.Alike ns
  | [], _, _, member => absurd member List.not_mem_nil
  | e :: es, within, p, member => by
    obtain ⟨head, rest⟩ := List.append_subset.mp within
    rcases List.mem_cons.mp member with rfl | later
    · exact alike e head
    · exact parts_alike es rest p later

end

end Expr

/-- A request to lower an expression, for its value if no label is given and else as a branch. -/
structure Linearization where
  expr : Expr
  onTrue : Option Symbol := none
  onFalse : Option Symbol := none

namespace Linearization

def run (l : Linearization) : Lower (Option LinId) := linearize l.expr l.onTrue l.onFalse

def failure (l : Linearization) (s : Lowering) : Option CompileError :=
  match l.run s with
  | .ok .. => none
  | .error e _ => some e

def Unseen (l : Linearization) (s : Lowering) : Prop := ∀ n ∈ l.expr.numbers, s.done.lookup n = none

instance (l : Linearization) (s : Lowering) : Decidable (l.Unseen s) :=
  inferInstanceAs (Decidable (∀ n ∈ l.expr.numbers, s.done.lookup n = none))

end Linearization

namespace Lowering

/-- The pass after a request, whether or not that fails. -/
def serve (s : Lowering) (l : Linearization) : Lowering :=
  match l.run s with
  | .ok _ s' | .error _ s' => s'

/-- How many of the requests are refused because of their nesting. -/
def refusals (s : Lowering) : List Linearization → Nat
  | [] => 0
  | l :: ls => (if l.failure s = some .tooDeep then 1 else 0) + (s.serve l).refusals ls

end Lowering

namespace Linearization

variable {s s' : Lowering}

theorem alike (l : Linearization) : Lower.Alike l.expr.numbers l.run l.run := by
  have whole := l.expr.alike (List.Subset.refl l.expr.numbers)
  have same (t : Option Symbol) : Lower.Given t t := by cases t <;> constructor
  unfold run linearize
  split
  · change Lower.Alike _ (l.expr.value >>= fun v => pure (some v)) (l.expr.value >>= fun v => pure (some v))
    exact .bind whole.value fun _ _ => .pure _ _
  · exact .bind (whole.branch (same _) (same _)) fun _ _ => .pure _ _

theorem serve_depth (l : Linearization) (s : Lowering) :
    (s.serve l).depth = s.depth + if l.failure s = some .tooDeep then 1 else 0 := by
  have agree := l.alike s s ⟨rfl, fun _ _ => rfl⟩
  unfold Lowering.serve failure
  generalize l.run s = outcome at agree ⊢
  cases agree with
  | ok closed _ => simpa using closed
  | failed left _ => simpa [CompileError.leftOpen] using left

theorem failure_congr (l : Linearization) (depth : s'.depth = s.depth) (unseen : l.Unseen s)
    (unseen' : l.Unseen s') : l.failure s' = l.failure s := by
  have agree := l.alike s s' ⟨depth, fun n inside => by rw [unseen n inside, unseen' n inside]⟩
  unfold failure
  generalize l.run s = outcome, l.run s' = outcome' at agree ⊢
  cases agree with
  | ok => rfl
  | failed => rfl

end Linearization

theorem Lowering.foldl_serve_depth (s : Lowering) (ls : List Linearization) :
    (ls.foldl serve s).depth = s.depth + s.refusals ls := by
  induction ls generalizing s with
  | nil => rfl
  | cons l ls ih =>
    rw [List.foldl_cons, ih, l.serve_depth, refusals, Nat.add_assoc]

/-- A constant under so many negations, with consecutive numbers from `first` on. -/
def Expr.negations (first : Nat) : Nat → Expr
  | 0 => .const ⟨first, .int⟩ ⟨0⟩
  | n + 1 => .unary ⟨first + n + 1, .int⟩ .neg (negations first n)

def Linearization.deepest : Linearization := { expr := .negations 1000 (maxDepth - 1) }

def Linearization.oneTooDeep : Linearization := { expr := .negations 0 maxDepth }

theorem Linearization.oneTooDeep_then_deepest :
    let s := Lowering.start default
    let s' := [oneTooDeep].foldl .serve s
    s'.depth = 1 ∧ deepest.Unseen s ∧ deepest.Unseen s' ∧ deepest.failure s = none ∧
      deepest.failure s' = some .tooDeep := by
  decide +kernel

/-- After any requests the counter stands where it stood, plus one for each that was refused for its
nesting. A request for an expression none of whose nodes has been computed then fails as it does in
any other pass with that counter. -/
theorem nesting_budget_spent (s : Lowering) (ls : List Linearization) :
    (ls.foldl Lowering.serve s).depth = s.depth + s.refusals ls ∧
    ∀ (l : Linearization) (s₀ : Lowering), l.Unseen (ls.foldl Lowering.serve s) → l.Unseen s₀ →
      s₀.depth = s.depth + s.refusals ls →
      l.failure (ls.foldl Lowering.serve s) = l.failure s₀ := by
  refine ⟨s.foldl_serve_depth ls, fun l s₀ unseen unseen₀ depth => ?_⟩
  exact l.failure_congr ((s.foldl_serve_depth ls).trans depth.symm) unseen₀ unseen

theorem deepest_after_refusal :
    let s := Lowering.start default
    let s' := [Linearization.oneTooDeep].foldl .serve s
    let s₀ := { s with depth := 1 }
    Linearization.deepest.Unseen s' ∧ Linearization.deepest.Unseen s₀ ∧
      s₀.depth = s.depth + s.refusals [.oneTooDeep] ∧
      Linearization.deepest.failure s' = Linearization.deepest.failure s₀ := by
  intro s s' s₀
  obtain ⟨depth, unseen, unseen', -, -⟩ := Linearization.oneTooDeep_then_deepest
  have counted : s₀.depth = s.depth + s.refusals [.oneTooDeep] :=
    depth.symm.trans (s.foldl_serve_depth [.oneTooDeep])
  exact ⟨unseen', unseen, counted,
    (nesting_budget_spent s [.oneTooDeep]).2 .deepest s₀ unseen' unseen counted⟩

/-- An expression at the limit is accepted at first, and no longer after another one was refused. -/
theorem refusal_shrinks_budget :
    let s := Lowering.start default
    let s' := [Linearization.oneTooDeep].foldl .serve s
    s'.depth ≠ s.depth ∧ Linearization.deepest.Unseen s ∧ Linearization.deepest.Unseen s' ∧
      Linearization.deepest.failure s' ≠ Linearization.deepest.failure s := by
  intro s s'
  obtain ⟨depth, unseen, unseen', accepted, refused⟩ := Linearization.oneTooDeep_then_deepest
  refine ⟨?_, unseen, unseen', ?_⟩
  · rw [depth]
    decide
  · rw [accepted, refused]
    decide

end CBackend
