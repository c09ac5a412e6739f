import CBackend.Proofs.Lowering.Rules

/-!
Trees in which no node has two parents. Lowering never meets a node of such a tree a second time, so
the rules that refer to an earlier value play no part in it.
-/

namespace CBackend

mutual

def Expr.numbers : Expr → List Nat
  | .const tag _ | .addr tag _ => [tag.number]
  | .deref tag x | .unary tag _ x | .cast tag x => tag.number :: x.numbers
  | .binary tag _ a b | .assign tag a b | .comma tag a b => tag.number :: (a.numbers ++ b.numbers)
  | .cond tag c a b => tag.number :: (c.numbers ++ (a.numbers ++ b.numbers))
  | .call tag callee args => tag.number :: (callee.numbers ++ Expr.allNumbers args)

def Expr.allNumbers : List Expr → List Nat
  | [] => []
  | e :: es => e.numbers ++ Expr.allNumbers es

end

def Decl.numbers (d : Decl) : List Nat :=
  match d.init with
  | some e => e.numbers
  | none => []

mutual

def Stmt.numbers : Stmt → List Nat
  | .expr e | .ret (some e) => e.numbers
  | .when c body | .while c body => c.numbers ++ body.numbers
  | .ifElse c a b => c.numbers ++ (a.numbers ++ b.numbers)
  | .block decls body => decls.flatMap Decl.numbers ++ Stmt.allNumbers body
  | .ret none | .break | .continue => []

def Stmt.allNumbers : List Stmt → List Nat
  | [] => []
  | s :: ss => s.numbers ++ Stmt.allNumbers ss

end

/-- No expression node of the function has two parents. -/
def FunctionDef.Unshared (d : FunctionDef) : Prop := d.body.numbers.Nodup

instance (d : FunctionDef) : Decidable d.Unshared :=
  inferInstanceAs (Decidable d.body.numbers.Nodup)

theorem Expr.mem_numbers (e : Expr) : e.number ∈ e.numbers := by
  cases e <;> simp [Expr.numbers, Expr.number, Expr.tag]

theorem Expr.allNumbers_append (es fs : List Expr) :
    Expr.allNumbers (es ++ fs) = Expr.allNumbers es ++ Expr.allNumbers fs := by
  induction es with
  | nil => rfl
  | cons e es ih => simp [Expr.allNumbers, ih]

theorem Expr.allNumbers_reverse_perm (es : List Expr) :
    (Expr.allNumbers es.reverse).Perm (Expr.allNumbers es) := by
  induction es with
  | nil => rfl
  | cons e es ih =>
    rw [List.reverse_cons, allNumbers_append, allNumbers]
    refine (List.perm_append_comm).trans ?_
    simpa [allNumbers] using List.Perm.append_left e.numbers ih

def Task.numbers : Task → List Nat
  | .value e _ | .compute e _ | .effect e | .branch e _ _ | .jump e _ _ => e.numbers
  | .choose c a b => c.numbers ++ (a.numbers ++ b.numbers)
  | .args es _ => Expr.allNumbers es
  | .decls ds => ds.flatMap Decl.numbers
  | .stmt _ _ s => s.numbers
  | .stmts _ _ ss => Stmt.allNumbers ss

/-- Different nodes, none of which has been computed. -/
structure Fresh (numbers : List Nat) (done : List (Nat × LinId)) : Prop where
  distinct : numbers.Nodup
  unknown : ∀ n ∈ numbers, done.lookup n = none

def Settles (numbers : List Nat) (done done' : List (Nat × LinId)) : Prop :=
  ∀ n, n ∉ numbers → done'.lookup n = done.lookup n

section

variable {xs ys : List Nat} {n : Nat} {d d₁ d₂ : List (Nat × LinId)}

theorem Fresh.sublist (fresh : Fresh ys d) (sub : xs.Sublist ys) : Fresh xs d :=
  ⟨fresh.distinct.sublist sub, fun n inside => fresh.unknown n (sub.subset inside)⟩

theorem Fresh.tail (fresh : Fresh (n :: xs) d) : Fresh xs d :=
  fresh.sublist (List.sublist_cons_self n xs)

theorem Fresh.perm (fresh : Fresh xs d) (same : xs.Perm ys) : Fresh ys d :=
  ⟨same.nodup_iff.mp fresh.distinct, fun n inside => fresh.unknown n (same.mem_iff.mpr inside)⟩

theorem Fresh.left (fresh : Fresh (xs ++ ys) d) : Fresh xs d :=
  fresh.sublist (List.sublist_append_left xs ys)

theorem Fresh.right (fresh : Fresh (xs ++ ys) d) (settles : Settles xs d d₁) : Fresh ys d₁ := by
  obtain ⟨-, distinct, apart⟩ := List.nodup_append.mp fresh.distinct
  refine ⟨distinct, fun n inside => ?_⟩
  rw [settles n fun other => apart n other n inside rfl]
  exact fresh.unknown n (List.mem_append_right xs inside)

theorem Settles.mono (settles : Settles xs d d₁) (sub : xs ⊆ ys) : Settles ys d d₁ :=
  fun n outside => settles n fun inside => outside (sub inside)

theorem Settles.cons (settles : Settles xs d d₁) : Settles (n :: xs) d d₁ :=
  settles.mono (List.subset_cons_self n xs)

theorem Settles.append (first : Settles xs d d₁) (second : Settles ys d₁ d₂) :
    Settles (xs ++ ys) d d₂ := by
  intro n outside
  rw [List.mem_append, not_or] at outside
  rw [second n outside.2, first n outside.1]

theorem Settles.refl : Settles xs d d := fun _ _ => rfl

end

theorem Fresh.ofCall {callee : Expr} {args : List Expr} {d : List (Nat × LinId)}
    (fresh : Fresh (callee.numbers ++ Expr.allNumbers args) d) :
    Fresh (Expr.allNumbers args.reverse ++ callee.numbers) d :=
  fresh.perm (List.perm_append_comm.trans
    ((Expr.allNumbers_reverse_perm args).symm.append_right callee.numbers))

theorem Settles.ofCall {callee : Expr} {args : List Expr} {d d' : List (Nat × LinId)}
    (settles : Settles (Expr.allNumbers args.reverse ++ callee.numbers) d d') :
    Settles (callee.numbers ++ Expr.allNumbers args) d d' :=
  settles.mono (((Expr.allNumbers_reverse_perm args).append_right callee.numbers).trans
    List.perm_append_comm).subset

theorem Draft.done_compare (d : Draft) (cond : Cond) (l r : LinId) (t f : Option Symbol) :
    (d.compare cond l r t f).done = d.done := by
  cases t <;> cases f <;> rfl

theorem Draft.done_jumpTo (d : Draft) (l : Option Symbol) : (d.jumpTo l).done = d.done := by
  cases l <;> rfl

theorem Draft.done_declare (d : Draft) (sym : Symbol) (zeroFill : Bool) :
    (if zeroFill then (d.code (.declare sym)).clear sym else d.code (.declare sym)).done = d.done := by
  cases zeroFill <;> rfl

theorem Lowers.settles {output : Option Symbol} {sharing : Bool} {task : Task} {d d' : Draft}
    (run : Lowers output sharing task d d') : Settles task.numbers d.done d'.done := by
  induction run with
  | reuse | const | addr | effectKnown | argsNil | declsNil | retNone | «break» | «continue»
  | stmtsNil => exact .refl
  | @first e id d d' unknown _ ih =>
    intro n outside
    have other : n ≠ e.number := fun same => outside (same ▸ e.mem_numbers)
    rw [← ih n outside]
    simp [Draft.settle, List.lookup_cons, beq_false_of_ne other]
  | deref _ ih | unary _ _ ih | not _ ih | condVoid _ _ ih | castKeep _ _ ih | cast _ _ ih
  | effectCond _ _ ih | jumpNot _ ih => exact ih.cons
  | binary _ _ _ ih₁ ih₂ | relation _ _ _ ih₁ ih₂ | assign _ _ _ ih₁ ih₂ | comma _ _ ih₁ ih₂
  | effectAnd _ _ _ ih₁ ih₂ | effectOr _ _ _ ih₁ ih₂ | effectComma _ _ ih₁ ih₂ | jumpAnd _ _ ih₁ ih₂
  | jumpAndOpen _ _ ih₁ ih₂ | jumpOr _ _ ih₁ ih₂ | jumpOrOpen _ _ ih₁ ih₂ | jumpComma _ _ ih₁ ih₂ =>
    exact (ih₁.append ih₂).cons
  | truth _ declared _ yes no ih =>
    subst declared yes no
    exact ih
  | assignNarrow _ _ _ stored ih₁ ih₂ =>
    subst stored
    exact (ih₁.append ih₂).cons
  | cond _ declared _ _ yes _ no ih₁ ih₂ ih₃ =>
    subst declared yes no
    exact (ih₁.append (ih₂.append ih₃)).cons
  | call _ _ _ ih₁ ih₂ => exact (ih₁.append ih₂).ofCall.cons
  | callStruct _ declared _ _ called ih₁ ih₂ =>
    subst declared called
    exact (ih₁.append ih₂).ofCall.cons
  | effectValue _ _ ih | branch _ _ _ ih | expr _ ih | ret _ _ ih => exact ih
  | choose _ _ _ ih₁ ih₂ ih₃ | ifElse _ _ _ ih₁ ih₂ ih₃ => exact ih₁.append (ih₂.append ih₃)
  | branchKnown =>
    rw [Draft.test, Draft.done_compare]
    exact .refl
  | jumpConst =>
    rw [Draft.done_jumpTo]
    exact .refl
  | jumpRelation _ _ _ _ ih₁ ih₂ =>
    rw [Draft.done_compare]
    exact (ih₁.append ih₂).cons
  | jumpValue _ _ _ ih =>
    rw [Draft.test, Draft.done_compare]
    exact ih
  | argsCons _ _ ih₁ ih₂ | «when» _ _ ih₁ ih₂ | block _ _ ih₁ ih₂ | stmtsCons _ _ ih₁ ih₂ =>
    exact ih₁.append ih₂
  | declsPlain declared _ ih =>
    subst declared
    rw [Draft.done_declare] at ih
    exact ih
  | declsInit declared _ _ ih₁ ih₂ =>
    subst declared
    rw [Draft.done_declare] at ih₁
    exact ih₁.append ih₂
  | «while» labels _ _ ih₁ ih₂ =>
    subst labels
    exact (ih₁.append ih₂).mono List.perm_append_comm.subset
  | retStruct _ _ _ pointer ih =>
    subst pointer
    exact ih

theorem Lowers.unshared {output : Option Symbol} {task : Task} {d d' : Draft}
    (run : Lowers output true task d d') (fresh : Fresh task.numbers d.done) :
    Lowers output false task d d' ∧ Settles task.numbers d.done d'.done := by
  refine ⟨?_, run.settles⟩
  induction run with
  | reuse _ known => simp [fresh.unknown _ (Expr.mem_numbers _)] at known
  | first unknown _ ih => exact .first unknown (ih fresh)
  | const => exact .const
  | addr => exact .addr
  | deref _ ih => exact .deref (ih fresh.tail)
  | unary arith _ ih => exact .unary arith (ih fresh.tail)
  | not _ ih => exact .not (ih fresh.tail)
  | binary arith left _ ih₁ ih₂ =>
    exact .binary arith (ih₁ fresh.tail.left) (ih₂ (fresh.tail.right left.settles))
  | relation relational left _ ih₁ ih₂ =>
    exact .relation relational (ih₁ fresh.tail.left) (ih₂ (fresh.tail.right left.settles))
  | truth logical declared _ yes no ih =>
    subst declared yes no
    exact .truth logical rfl (ih fresh) rfl rfl
  | assign wide address _ ih₁ ih₂ =>
    exact .assign wide (ih₁ fresh.tail.left) (ih₂ (fresh.tail.right address.settles))
  | assignNarrow narrow address _ stored ih₁ ih₂ =>
    exact .assignNarrow narrow (ih₁ fresh.tail.left) (ih₂ (fresh.tail.right address.settles)) stored
  | condVoid void _ ih => exact .condVoid void (ih fresh.tail)
  | cond valued declared test arm yes _ no ih₁ ih₂ ih₃ =>
    subst declared yes no
    have arms := fresh.tail.right test.settles
    exact .cond valued rfl (ih₁ fresh.tail.left) (ih₂ arms.left) rfl (ih₃ (arms.right arm.settles)) rfl
  | call scalar pushed _ ih₁ ih₂ =>
    have parts := fresh.tail.ofCall
    exact .call scalar (ih₁ parts.left) (ih₂ (parts.right pushed.settles))
  | callStruct struct declared pushed _ called ih₁ ih₂ =>
    subst declared called
    have parts := fresh.tail.ofCall
    exact .callStruct struct rfl (ih₁ parts.left) (ih₂ (parts.right pushed.settles)) rfl
  | castKeep same _ ih => exact .castKeep same (ih fresh.tail)
  | cast differs _ ih => exact .cast differs (ih fresh.tail)
  | comma first _ ih₁ ih₂ => exact .comma (ih₁ fresh.tail.left) (ih₂ (fresh.tail.right first.settles))
  | effectValue plain _ ih => exact .effectValue plain (ih fresh)
  | effectKnown _ known => simp [fresh.unknown _ (Expr.mem_numbers _)] at known
  | effectAnd unknown first _ ih₁ ih₂ =>
    exact .effectAnd unknown (ih₁ fresh.tail.left) (ih₂ (fresh.tail.right first.settles))
  | effectOr unknown first _ ih₁ ih₂ =>
    exact .effectOr unknown (ih₁ fresh.tail.left) (ih₂ (fresh.tail.right first.settles))
  | effectCond unknown _ ih => exact .effectCond unknown (ih fresh.tail)
  | effectComma first _ ih₁ ih₂ =>
    exact .effectComma (ih₁ fresh.tail.left) (ih₂ (fresh.tail.right first.settles))
  | choose test arm _ ih₁ ih₂ ih₃ =>
    have arms := fresh.right test.settles
    exact .choose (ih₁ fresh.left) (ih₂ arms.left) (ih₃ (arms.right arm.settles))
  | branchKnown _ _ _ known => simp [fresh.unknown _ (Expr.mem_numbers _)] at known
  | branch scalar unknown _ ih => exact .branch scalar unknown (ih fresh)
  | jumpConst => exact .jumpConst
  | jumpNot _ ih => exact .jumpNot (ih fresh.tail)
  | jumpRelation relational labelled left _ ih₁ ih₂ =>
    exact .jumpRelation relational labelled (ih₁ fresh.tail.left) (ih₂ (fresh.tail.right left.settles))
  | jumpAnd first _ ih₁ ih₂ =>
    exact .jumpAnd (ih₁ fresh.tail.left) (ih₂ (fresh.tail.right first.settles))
  | jumpAndOpen first _ ih₁ ih₂ =>
    exact .jumpAndOpen (ih₁ fresh.tail.left) (ih₂ (fresh.tail.right first.settles))
  | jumpOr first _ ih₁ ih₂ =>
    exact .jumpOr (ih₁ fresh.tail.left) (ih₂ (fresh.tail.right first.settles))
  | jumpOrOpen first _ ih₁ ih₂ =>
    exact .jumpOrOpen (ih₁ fresh.tail.left) (ih₂ (fresh.tail.right first.settles))
  | jumpComma first _ ih₁ ih₂ =>
    exact .jumpComma (ih₁ fresh.tail.left) (ih₂ (fresh.tail.right first.settles))
  | jumpValue plain labelled _ ih => exact .jumpValue plain labelled (ih fresh)
  | argsNil => exact .argsNil
  | argsCons head _ ih₁ ih₂ => exact .argsCons (ih₁ fresh.left) (ih₂ (fresh.right head.settles))
  | declsNil => exact .declsNil
  | @declsPlain sym zeroFill ds d d₁ d₂ declared _ ih =>
    subst declared
    refine .declsPlain rfl (ih ⟨fresh.distinct, fun n inside => ?_⟩)
    rw [Draft.done_declare]
    exact fresh.unknown n inside
  | @declsInit sym e v zeroFill ds d d₁ d₂ d₃ declared init _ ih₁ ih₂ =>
    subst declared
    have settled := init.settles
    rw [Draft.done_declare] at settled
    refine .declsInit rfl (ih₁ ⟨fresh.left.distinct, fun n inside => ?_⟩) (ih₂ (fresh.right settled))
    rw [Draft.done_declare]
    exact fresh.left.unknown n inside
  | expr _ ih => exact .expr (ih fresh)
  | «when» test _ ih₁ ih₂ => exact .when (ih₁ fresh.left) (ih₂ (fresh.right test.settles))
  | ifElse test arm _ ih₁ ih₂ ih₃ =>
    have arms := fresh.right test.settles
    exact .ifElse (ih₁ fresh.left) (ih₂ arms.left) (ih₃ (arms.right arm.settles))
  | «while» labels body _ ih₁ ih₂ =>
    subst labels
    have swapped := fresh.perm List.perm_append_comm
    exact .while rfl (ih₁ swapped.left) (ih₂ (swapped.right body.settles))
  | block heads _ ih₁ ih₂ => exact .block (ih₁ fresh.left) (ih₂ (fresh.right heads.settles))
  | retNone => exact .retNone
  | ret direct _ ih => exact .ret direct (ih fresh)
  | retStruct hidden struct _ pointer ih => exact .retStruct hidden struct (ih fresh) pointer
  | «break» => exact .break
  | «continue» => exact .continue
  | stmtsNil => exact .stmtsNil
  | stmtsCons head _ ih₁ ih₂ => exact .stmtsCons (ih₁ fresh.left) (ih₂ (fresh.right head.settles))

end CBackend
