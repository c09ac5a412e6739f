import CBackend.Proofs.Lowering.Derivation
import CBackend.Proofs.Lowering.Notes

/-!
Conditions jump no more than they have to. A condition made of comparisons by `&&`, `||` and `!` is
lowered to one branch for each comparison, and to one jump at its end only if it has to go somewhere
in both cases. The one thing to watch is a comparison that has been evaluated as part of an operand:
its value is then tested, again with one branch.
-/

namespace CBackend

namespace Code

def isBranch : Code → Bool
  | branch .. => true
  | _ => false

def isGoto : Code → Bool
  | jump _ => true
  | _ => false

end Code

def Draft.Smooth (d d' : Draft) : Prop :=
  ∃ cs, d'.codes = d.codes ++ cs ∧ ∀ c ∈ cs, c.isJump = false

namespace Expr

def Quiet (e : Expr) : Prop :=
  ∀ s id s', e.value s = .ok id s' → s.draft.Smooth s'.draft

/-- Conditions made of comparisons with quiet operands. -/
inductive Condition : Expr → Prop
  | relation {tag op l r} (relational : op.isRelational = true) (left : l.Quiet)
      (right : r.Quiet) : Condition (.binary tag op l r)
  | not {tag x} (operand : Condition x) : Condition (.unary tag .not x)
  | logical {tag op a b} (joins : op.isLogical = true) (first : Condition a)
      (second : Condition b) : Condition (.binary tag op a b)

/-- The number of parts that are joined to a condition. -/
def leaves : Expr → Nat
  | .unary _ .not x => x.leaves
  | .binary _ op a b => if op.isLogical then a.leaves + b.leaves else 1
  | _ => 1

end Expr

/-- The code of a condition with these labels: a branch for each leaf, a jump at the end if there are
two labels, and no branch but to the labels or forward. -/
structure Sparing (leaves : Nat) (t f : Option Symbol) (cs : List Code) : Prop where
  branches : cs.countP Code.isBranch = leaves
  jumps : cs.countP Code.isGoto = if t.isSome && f.isSome then 1 else 0
  last : t.isSome = true → f.isSome = true →
    ∃ l, cs.getLast? = some (.jump l) ∧ (f = some l ∨ t = some l)
  targets : ∀ (i : Nat) (v : LinId) (l : Symbol), cs[i]? = some (.branch v l) →
    t = some l ∨ f = some l ∨ ∃ j, i < j ∧ cs[j]? = some (.label l)

namespace Sparing

variable {m n : Nat} {t f t' f' : Option Symbol} {xs ys : List Code}

theorem plain (quiet : ∀ c ∈ xs, c.isJump = false) (half : (t.isSome && f.isSome) = false) :
    Sparing 0 t f xs where
  branches := by
    rw [List.countP_eq_zero]
    intro c inside branches
    cases c <;> cases branches
    cases quiet _ inside
  jumps := by
    rw [half, if_neg Bool.false_ne_true, List.countP_eq_zero]
    intro c inside jumps
    cases c <;> cases jumps
    cases quiet _ inside
  last yes no := by simp [yes, no] at half
  targets i v l here := by cases quiet _ (List.mem_of_getElem? here)

theorem append (first : Sparing m t' f' xs) (half : (t'.isSome && f'.isSome) = false)
    (second : Sparing n t f ys)
    (on : ∀ l, t' = some l ∨ f' = some l → t = some l ∨ f = some l ∨ .label l ∈ ys) :
    Sparing (m + n) t f (xs ++ ys) where
  branches := by rw [List.countP_append, first.branches, second.branches]
  jumps := by rw [List.countP_append, first.jumps, second.jumps, half, if_neg Bool.false_ne_true,
    Nat.zero_add]
  last yes no := by
    obtain ⟨l, last, goes⟩ := second.last yes no
    exact ⟨l, by rw [List.getLast?_append, last]; rfl, goes⟩
  targets i v l here := by
    have behind {j : Nat} (there : ys[j]? = some (.label l)) :
        (xs ++ ys)[xs.length + j]? = some (.label l) := by
      rw [List.getElem?_append_right (Nat.le_add_right ..), Nat.add_sub_cancel_left, there]
    rw [List.getElem?_append] at here
    split at here
    · rcases or_assoc.mpr (first.targets i v l here) with own | ⟨j, after, there⟩
      · refine (on l own).imp_right (Or.imp_right fun placed => ?_)
        obtain ⟨j, there⟩ := List.mem_iff_getElem?.mp placed
        exact ⟨xs.length + j, by omega, behind there⟩
      · exact .inr (.inr ⟨j, after, getElem?_of_grown (List.prefix_append xs ys) there⟩)
    · rcases or_assoc.mpr (second.targets _ v l here) with own | ⟨j, after, there⟩
      · exact or_assoc.mp (.inl own)
      · exact .inr (.inr ⟨xs.length + j, by omega, behind there⟩)

theorem swap (sparing : Sparing n f t xs) : Sparing n t f xs where
  branches := sparing.branches
  jumps := by rw [sparing.jumps, Bool.and_comm]
  last yes no := by
    obtain ⟨l, last, goes⟩ := sparing.last no yes
    exact ⟨l, last, goes.symm⟩
  targets i v l here := or_left_comm.mp (sparing.targets i v l here)

end Sparing

/-- A condition inside an expression whose value has been computed has one leaf only. -/
def Tested (root : Expr) (done : List (Nat × LinId)) : Prop :=
  ∀ x ∈ root.nodes, x.Condition → (done.lookup x.number).isSome = true → x.leaves = 1

namespace Draft

/-- From one draft to another the code of a condition is written. -/
structure Spares (root : Expr) (leaves : Nat) (t f : Option Symbol) (d d' : Draft) : Prop where
  tested : Tested root d'.done
  sparing : ∃ cs, d'.codes = d.codes ++ cs ∧ Sparing leaves t f cs

variable {root : Expr} {m n : Nat} {t f t' f' : Option Symbol} {d d₁ d₂ : Draft}

theorem Spares.swap (spares : Spares root n f t d d₁) : Spares root n t f d d₁ :=
  ⟨spares.tested, spares.sparing.imp fun _ ⟨added, sparing⟩ => ⟨added, sparing.swap⟩⟩

theorem Spares.trans (first : Spares root m t' f' d d₁) (half : (t'.isSome && f'.isSome) = false)
    (second : Spares root n t f d₁ d₂) (on : ∀ l, t' = some l ∨ f' = some l → t = some l ∨ f = some l) :
    Spares root (m + n) t f d d₂ := by
  obtain ⟨-, xs, here, sparing⟩ := first
  obtain ⟨tested, ys, there, sparing'⟩ := second
  refine ⟨tested, xs ++ ys, by rw [there, here, List.append_assoc], ?_⟩
  exact sparing.append half sparing' fun l own => or_assoc.mp (.inl (on l own))

theorem Spares.around {l : Symbol} (first : Spares root m t' f' d.label d₁)
    (half' : (t'.isSome && f'.isSome) = false) (second : Spares root n t f d₁ d₂)
    (half : (t.isSome && f.isSome) = false) (on : ∀ l', t' = some l' ∨ f' = some l' → l' = l) :
    Spares root (m + n) t f d (d₂.place l) := by
  obtain ⟨-, xs, here, sparing⟩ := first
  obtain ⟨tested, ys, there, sparing'⟩ := second
  have label : Sparing 0 t f [Code.label l] := .plain (by simp [Code.isJump]) half
  have behind : Sparing (n + 0) t f (ys ++ [Code.label l]) := sparing'.append half label fun l' own =>
    or_assoc.mp (.inl own)
  refine ⟨tested, xs ++ (ys ++ [.label l]), ?_, ?_⟩
  · change d₂.codes ++ [.label l] = d.codes ++ _
    rw [there, here, List.append_assoc, List.append_assoc]
    rfl
  · refine sparing.append half' behind fun l' own => .inr (.inr ?_)
    rw [on l' own]
    exact List.mem_append_right _ List.mem_cons_self

theorem spares_compare (tested : Tested root d.done) (cond : Cond) (l r : LinId)
    (labelled : t.isSome ∨ f.isSome) : Spares root 1 t f d (d.compare cond l r t f) := by
  refine ⟨by rw [done_compare]; exact tested, ?_⟩
  cases t with
  | none =>
    cases f with
    | none => simp at labelled
    | some no =>
      refine ⟨[.eval d.next, .branch d.next no], by simp [compare, comparison, code, emit],
        ⟨rfl, rfl, fun yes _ => absurd yes Bool.false_ne_true, ?_⟩⟩
      rintro (_ | _ | i) v l here <;> cases here
      exact .inr (.inl rfl)
  | some yes =>
    cases f with
    | none =>
      refine ⟨[.eval d.next, .branch d.next yes], by simp [compare, comparison, code, emit],
        ⟨rfl, rfl, fun _ no => absurd no Bool.false_ne_true, ?_⟩⟩
      rintro (_ | _ | i) v l here <;> cases here
      exact .inl rfl
    | some no =>
      refine ⟨[.eval d.next, .branch d.next yes, .jump no],
        by simp [compare, comparison, code, emit], ⟨rfl, rfl, fun _ _ => ⟨no, rfl, .inl rfl⟩, ?_⟩⟩
      rintro (_ | _ | _ | i) v l here <;> cases here
      exact .inl rfl

theorem spares_test (tested : Tested root d.done) (ty : CType) (v : LinId)
    (labelled : t.isSome ∨ f.isSome) : Spares root 1 t f d (d.test ty v t f) := by
  have zero : Spares root 0 none none d (d.zero ty) :=
    ⟨tested, [.eval d.next], rfl, .plain (by simp [Code.isJump]) rfl⟩
  have compare := spares_compare (d := d.zero ty) tested .ne v d.next labelled
  exact zero.trans rfl compare (by simp)

end Draft

theorem Draft.mem_of_grows {d d₁ d' : Draft} {c : Code} {cs : List Code} (before : d.Grows d₁)
    (after : (d₁.code c).Grows d') (added : d'.codes = d.codes ++ cs) : c ∈ cs := by
  obtain ⟨xs, here⟩ := before.codes
  obtain ⟨ys, there⟩ := after.codes
  have all : cs = xs ++ [c] ++ ys := by
    rw [added, code, ← here] at there
    simpa using there.symm
  rw [all]
  simp

open Draft in
theorem Lowers.jump_of_logical {output : Option Symbol} {sharing : Bool} {tag : NodeTag}
    {op : BinaryOp} {a b : Expr} {id : LinId} {d d' : Draft}
    (run : Lowers output sharing (.compute (.binary tag op a b) id) d d')
    (joins : op.isLogical = true) : ∃ d₁ l, d.Grows d₁ ∧ (d₁.code (.jump l)).Grows d' := by
  cases run with
  | binary arith => cases op <;> cases joins <;> cases arith
  | relation relational => cases op <;> cases joins <;> cases relational
  | truth _ declared jumps yes no =>
    subst declared yes no
    exact ⟨_, _, (((Grows.refl d).temp _).label.label.trans jumps.grows).one.store _ _ _,
      (((((Grows.refl _).place _).zero _).store _ _ _).place _).load _ _⟩

theorem Lowers.tested {output : Option Symbol} {sharing : Bool} {root : Expr} {task : Task}
    {d d' : Draft} (run : Lowers output sharing task d d') (same : SameNodes root.nodes)
    (within : task.nodes ⊆ root.nodes) (smooth : d.Smooth d') (tested : Tested root d.done) :
    Tested root d'.done := by
  have notes := run.notes same within
  obtain ⟨cs, added, quiet⟩ := smooth
  intro x inside condition known
  rw [Option.isSome_iff_exists] at known
  obtain ⟨id, known⟩ := known
  induction condition generalizing id with
  | @relation tag op l r relational =>
    rw [Expr.leaves, if_neg]
    cases op <;> cases relational <;> nofun
  | @not tag x operand ih =>
    cases before : d.done.lookup (Expr.unary tag .not x).number with
    | some v => exact tested _ inside operand.not (by rw [before]; rfl)
    | none =>
      obtain ⟨e, inside', number, d₁, d₂, ran, -, -, kept⟩ := notes.computed before known
      obtain rfl := same e inside' _ inside number
      cases ran with
      | unary arith => cases arith
      | not operand =>
        have part := (Expr.nodes_sublist inside).subset (List.mem_cons_of_mem _ x.self_mem_nodes)
        exact ih part _ (kept operand.value_known)
  | @logical tag op a b joins first second =>
    cases before : d.done.lookup (Expr.binary tag op a b).number with
    | some v => exact tested _ inside (.logical joins first second) (by rw [before]; rfl)
    | none =>
      obtain ⟨e, inside', number, d₁, d₂, ran, start, stop, -⟩ := notes.computed before known
      obtain rfl := same e inside' _ inside number
      obtain ⟨d₃, l, ahead, behind⟩ := ran.jump_of_logical joins
      cases quiet _ (Draft.mem_of_grows (start.trans ahead) (behind.trans stop) added)

section

variable {root x e : Expr} {s : Lowering} {t f : Option Symbol}

theorem Expr.Quiet.spares (quiet : x.Quiet) (same : SameNodes root.nodes)
    (within : x.nodes ⊆ root.nodes) (tested : Tested root s.done) :
    Writes s x.value fun _ d => s.draft.Spares root 0 none none d := by
  intro id s' ok
  have smooth := quiet s id s' ok
  obtain ⟨d, rfl, run⟩ := x.follows.value s ok
  refine ⟨d, rfl, run.tested same within smooth tested, ?_⟩
  obtain ⟨cs, added, plain⟩ := smooth
  exact ⟨cs, added, .plain plain rfl⟩

theorem Expr.Condition.spares_branch (condition : e.Condition) (inside : e ∈ root.nodes)
    (tested : Tested root s.done) {jump : (t f : Option Symbol) → Lower Unit}
    (jumps : ∀ depth, Writes { s with depth } (jump t f) fun _ d =>
      s.draft.Spares root e.leaves t f d) :
    Writes s (Lower.nested (NodeLowering.branchWith e.tag jump t f)) fun _ d =>
      s.draft.Spares root e.leaves t f d := by
  refine Writes.nested fun depth => Writes.branchWith (fun v _ known => ?_) fun _ _ => jumps depth
  refine Writes.testValue fun labelled => ?_
  rw [tested e inside condition (by rw [Expr.number, known]; rfl)]
  exact Draft.spares_test tested e.ty v labelled

theorem Expr.Condition.spares (condition : e.Condition) (same : SameNodes root.nodes)
    (within : e.nodes ⊆ root.nodes) (t f : Option Symbol) (s : Lowering)
    (tested : Tested root s.done) :
    Writes s (e.branch t f) fun _ d => s.draft.Spares root e.leaves t f d := by
  -- By induction on the condition, for all labels: `!` exchanges them, and the operands of `&&` and
  -- `||` get one of them each, or a new one.
  induction condition generalizing t f s with
  | @relation tag op l r relational left right =>
    obtain ⟨cond, found⟩ := Option.isSome_iff_exists.mp relational
    have lower : (Expr.binary tag op l r).lower =
        NodeLowering.relation tag cond ⟨l.ty, l.lower⟩ ⟨r.ty, r.lower⟩ := by
      cases op <;> cases found <;> rfl
    have leaf : (Expr.binary tag op l r).leaves = 1 := by
      rw [Expr.leaves, if_neg]
      cases op <;> cases relational <;> nofun
    rw [Expr.branch, lower]
    refine (Condition.relation relational left right).spares_branch (within (self_mem_nodes _))
      tested fun depth => ?_
    refine Writes.bind (left.spares same (within_kid within List.mem_cons_self) tested)
      fun v d₁ first => ?_
    refine Writes.bind (right.spares same (within_kid within (by simp [kids])) first.tested)
      fun w d₂ second => ?_
    refine Writes.compare fun labelled => ?_
    rw [leaf]
    exact first.trans rfl (second.trans rfl
      (Draft.spares_compare second.tested cond v w labelled) (by simp)) (by simp)
  | @not tag x operand ih =>
    refine operand.not.spares_branch (within (self_mem_nodes _)) tested fun depth => ?_
    have swapped := ih (within_kid within List.mem_cons_self) f t { s with depth } tested
    exact swapped.imp fun _ d spares => spares.swap
  | @logical tag op a b joins first second ih₁ ih₂ =>
    have ofFirst : a.nodes ⊆ root.nodes := within_kid within List.mem_cons_self
    have ofSecond : b.nodes ⊆ root.nodes := within_kid within (by simp [kids])
    obtain rfl | rfl : op = .logAnd ∨ op = .logOr := by cases op <;> cases joins <;> simp
    · refine (Condition.logical joins first second).spares_branch (within (self_mem_nodes _)) tested
        fun depth => ?_
      cases f with
      | some no =>
        refine Writes.bind (ih₁ ofFirst none (some no) _ tested) fun _ d₁ left => ?_
        refine (ih₂ ofSecond t (some no) _ left.tested).imp fun _ d₂ right => ?_
        exact left.trans rfl right (by simp)
      | none =>
        refine Writes.step (Lower.freshLabel_run _) ?_
        refine Writes.bind (ih₁ ofFirst none _ _ tested) fun _ d₁ left => ?_
        refine Writes.bind (ih₂ ofSecond t none _ left.tested) fun _ d₂ right => ?_
        exact Writes.of_run (Lower.place_run _ _) (left.around rfl right (by simp) (by simp))
    · refine (Condition.logical joins first second).spares_branch (within (self_mem_nodes _)) tested
        fun depth => ?_
      cases t with
      | some yes =>
        refine Writes.bind (ih₁ ofFirst (some yes) none _ tested) fun _ d₁ left => ?_
        refine (ih₂ ofSecond (some yes) f _ left.tested).imp fun _ d₂ right => ?_
        exact left.trans rfl right (by simp)
      | none =>
        refine Writes.step (Lower.freshLabel_run _) ?_
        refine Writes.bind (ih₁ ofFirst _ none _ tested) fun _ d₁ left => ?_
        refine Writes.bind (ih₂ ofSecond none f _ left.tested) fun _ d₂ right => ?_
        exact Writes.of_run (Lower.place_run _ _) (left.around rfl right rfl (by simp))

end

section Straight

variable {d d₁ d₂ : Draft}

theorem Draft.Smooth.refl (d : Draft) : d.Smooth d := ⟨[], by simp, by simp⟩

theorem Draft.Smooth.trans (first : d.Smooth d₁) (second : d₁.Smooth d₂) : d.Smooth d₂ := by
  obtain ⟨xs, here, left⟩ := first
  obtain ⟨ys, there, right⟩ := second
  refine ⟨xs ++ ys, by rw [there, here, List.append_assoc], fun c inside => ?_⟩
  exact (List.mem_append.mp inside).elim (left c) (right c)

theorem Draft.Smooth.code (smooth : d.Smooth d₁) {c : Code} (plain : c.isJump = false) :
    d.Smooth (d₁.code c) := smooth.trans ⟨[c], rfl, by simpa using plain⟩

theorem Draft.Smooth.emit (smooth : d.Smooth d₁) (n : LinNode) : d.Smooth (d₁.emit n) :=
  smooth.trans ⟨[.eval d₁.next], rfl, by simp [Code.isJump]⟩

theorem Draft.Smooth.temp (smooth : d.Smooth d₁) (ty : CType) : d.Smooth (d₁.temp ty) :=
  smooth.trans ⟨[.declare d₁.fresh], rfl, by simp [Code.isJump]⟩

theorem Draft.Smooth.zero (smooth : d.Smooth d₁) (ty : CType) : d.Smooth (d₁.zero ty) :=
  smooth.trans ⟨[.eval d₁.next], rfl, by simp [Code.isJump]⟩

def Task.inTurn : Task → Bool
  | .value .. | .compute .. | .effect _ | .args .. => true
  | _ => false

def Expr.forks : Expr → Bool
  | .binary _ op _ _ => op.isLogical
  | .cond .. => true
  | _ => false

open Draft in
theorem Lowers.smooth {output : Option Symbol} {sharing : Bool} {task : Task} {d' : Draft}
    (run : Lowers output sharing task d d') (part : task.inTurn = true)
    (straight : ∀ x ∈ task.nodes, x.forks = false) : d.Smooth d' := by
  have kid {e : Expr} (straight : ∀ x ∈ e.nodes, x.forks = false) {k : Expr} (inside : k ∈ e.kids) :
      ∀ x ∈ k.nodes, x.forks = false :=
    fun x part => straight x (Expr.within_kid (List.Subset.refl _) inside part)
  have args {tag : NodeTag} {callee : Expr} {args : List Expr}
      (straight : ∀ x ∈ (Expr.call tag callee args).nodes, x.forks = false) :
      ∀ x ∈ Expr.allNodes args.reverse, x.forks = false :=
    fun x part => straight x (Expr.within_args (List.Subset.refl _) part)
  induction run with
  | reuse | effectKnown | argsNil => exact .refl _
  | first _ _ ih | effectValue _ _ ih => exact ih rfl straight
  | const | addr => exact (Smooth.refl _).emit _
  | deref _ ih | unary _ _ ih | cast _ _ ih =>
    exact (ih rfl (kid straight List.mem_cons_self)).emit _
  | not _ ih => exact ((ih rfl (kid straight List.mem_cons_self)).zero _).emit _
  | binary _ _ _ ih₁ ih₂ | relation _ _ _ ih₁ ih₂ | assign _ _ _ ih₁ ih₂ =>
    exact ((ih₁ rfl (kid straight List.mem_cons_self)).trans
      (ih₂ rfl (kid straight (by simp [Expr.kids])))).emit _
  | truth logical => cases logical.symm.trans (straight _ (Expr.self_mem_nodes _))
  | assignNarrow _ _ _ stored ih₁ ih₂ =>
    subst stored
    exact (((ih₁ rfl (kid straight List.mem_cons_self)).trans
      (ih₂ rfl (kid straight (by simp [Expr.kids])))).emit _).emit _
  | condVoid | cond | effectCond | effectAnd | effectOr =>
    cases straight _ (Expr.self_mem_nodes _)
  | call _ _ _ ih₁ ih₂ =>
    exact ((ih₁ rfl (args straight)).trans (ih₂ rfl (kid straight List.mem_cons_self))).emit _
  | callStruct _ declared _ _ called ih₁ ih₂ =>
    subst declared called
    have pushed := ((Smooth.refl _).temp _).trans (ih₁ rfl (args straight))
    exact (((((pushed.emit _).code rfl).trans
      (ih₂ rfl (kid straight List.mem_cons_self))).emit _).emit _).emit _
  | castKeep _ _ ih => exact ih rfl (kid straight List.mem_cons_self)
  | comma _ _ ih₁ ih₂ | effectComma _ _ ih₁ ih₂ =>
    exact (ih₁ rfl (kid straight List.mem_cons_self)).trans
      (ih₂ rfl (kid straight (by simp [Expr.kids])))
  | argsCons _ _ ih₁ ih₂ =>
    obtain ⟨ofHead, ofRest⟩ := List.forall_mem_append.mp straight
    exact ((ih₁ rfl ofHead).code rfl).trans (ih₂ rfl ofRest)
  | _ => cases part

theorem Expr.quiet_of_straight {e : Expr} (straight : ∀ x ∈ e.nodes, x.forks = false) :
    e.Quiet := by
  intro s id s' ok
  obtain ⟨d, rfl, run⟩ := e.follows.value s ok
  exact run.smooth rfl straight

end Straight

/-- Conditions never jump more than they have to: lowered with at least one label, a condition whose
nodes have not been lowered before is written with one branch for each comparison in it, a jump at the
end only if both labels are given, and no branch but to the labels or to a label placed behind it. -/
theorem Lower.linearize_sparing {e : Expr} {t f : Option Symbol} {s s' : Lowering}
    {r : Option LinId} (condition : e.Condition) (same : SameNodes e.nodes)
    (fresh : ∀ n ∈ e.numbers, s.done.lookup n = none) (labelled : t.isSome = true ∨ f.isSome = true)
    (ok : Lower.linearize e t f s = .ok r s') :
    ∃ cs : List Code, s'.codes.toList = s.codes.toList ++ cs ∧ Sparing e.leaves t f cs := by
  have tested : Tested e s.done := by
    intro x inside _ known
    have number : x.number ∈ e.numbers := by
      rw [e.numbers_eq_map]
      exact List.mem_map_of_mem inside
    rw [fresh _ number] at known
    cases known
  have branches : (t.isNone && f.isNone) = false := by
    cases t <;> cases f <;> simp at labelled ⊢
  have ran : e.branch t f s = .ok () s' := by
    rw [Lower.linearize, branches, if_neg Bool.false_ne_true] at ok
    obtain ⟨_, _, run, last⟩ := bind_eq_ok.mp ok
    obtain ⟨-, rfl⟩ := pure_eq_ok.mp last
    exact run
  obtain ⟨d, rfl, spares⟩ := condition.spares same (List.Subset.refl _) t f s tested ran
  exact spares.sparing

/-- The condition `((a < b) == c) || !(a < b && c != a)`, with one node for both occurrences of each
part. -/
def Expr.crossed : Expr :=
  .binary ⟨11, .int⟩ .logOr (.binary ⟨7, .int⟩ .eq less c)
    (.unary ⟨10, .int⟩ .not (.binary ⟨9, .int⟩ .logAnd less (.binary ⟨8, .int⟩ .ne c a)))
where
  a : Expr := .deref ⟨1, .int⟩ (.addr ⟨0, .pointer⟩ ⟨0⟩)
  b : Expr := .deref ⟨3, .int⟩ (.addr ⟨2, .pointer⟩ ⟨1⟩)
  c : Expr := .deref ⟨5, .int⟩ (.addr ⟨4, .pointer⟩ ⟨2⟩)
  less : Expr := .binary ⟨6, .int⟩ .lt a b

def SymbolTable.crossed : SymbolTable where
  entries := #[⟨"a", .global, .int, none⟩, ⟨"b", .global, .int, none⟩, ⟨"c", .global, .int, none⟩,
    ⟨".yes", .label, .void, none⟩, ⟨".no", .label, .void, none⟩]

theorem Expr.crossed_numbered : SameNodes crossed.nodes := by
  let table : Nat → Expr
    | 0 => .addr ⟨0, .pointer⟩ ⟨0⟩
    | 1 => crossed.a
    | 2 => .addr ⟨2, .pointer⟩ ⟨1⟩
    | 3 => crossed.b
    | 4 => .addr ⟨4, .pointer⟩ ⟨2⟩
    | 5 => crossed.c
    | 6 => crossed.less
    | 7 => .binary ⟨7, .int⟩ .eq crossed.less crossed.c
    | 8 => .binary ⟨8, .int⟩ .ne crossed.c crossed.a
    | 9 => .binary ⟨9, .int⟩ .logAnd crossed.less (.binary ⟨8, .int⟩ .ne crossed.c crossed.a)
    | 10 => .unary ⟨10, .int⟩ .not
      (.binary ⟨9, .int⟩ .logAnd crossed.less (.binary ⟨8, .int⟩ .ne crossed.c crossed.a))
    | _ => crossed
  refine .of_table table ?_
  simp [crossed, crossed.a, crossed.b, crossed.c, crossed.less, nodes, table, number, tag]

theorem Expr.crossed_condition : crossed.Condition := by
  have a : crossed.a.Quiet := quiet_of_straight (by decide)
  have b : crossed.b.Quiet := quiet_of_straight (by decide)
  have c : crossed.c.Quiet := quiet_of_straight (by decide)
  have value : crossed.less.Quiet := quiet_of_straight (by decide)
  have less : crossed.less.Condition := .relation rfl a b
  exact .logical rfl (.relation rfl value c) (.not (.logical rfl less (.relation rfl c a)))

/-- Three branches, though the value of a comparison is known when it is met as a condition. -/
theorem Lower.crossed_sparing : ∃ s' cs,
    Lower.linearize .crossed (some ⟨3⟩) (some ⟨4⟩) { symbols := .crossed } = .ok none s' ∧
      s'.codes.toList = cs ∧ Sparing 3 (some ⟨3⟩) (some ⟨4⟩) cs := by
  obtain ⟨s', ok⟩ : ∃ s', Lower.linearize .crossed (some ⟨3⟩) (some ⟨4⟩) { symbols := .crossed } =
      .ok none s' := exists_of_run' (by decide +kernel)
  obtain ⟨cs, added, sparing⟩ := linearize_sparing Expr.crossed_condition Expr.crossed_numbered
    (fun _ _ => rfl) (.inl rfl) ok
  exact ⟨s', cs, ok, added, sparing⟩

end CBackend
