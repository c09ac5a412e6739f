import CBackend.Proofs.Lowering.Unshared

/-!
The expression nodes of a function and what lowering remembers of them. A node may have several
parents, and its number says which occurrences are the same node. Whatever is noted about a node
stays noted, and while the value of a node is computed nothing is noted but about the nodes below.
-/

namespace CBackend

mutual

def Expr.nodes : Expr → List Expr
  | .const tag sym => [.const tag sym]
  | .addr tag sym => [.addr tag sym]
  | .deref tag x => .deref tag x :: x.nodes
  | .unary tag op x => .unary tag op x :: x.nodes
  | .binary tag op a b => .binary tag op a b :: (a.nodes ++ b.nodes)
  | .assign tag a v => .assign tag a v :: (a.nodes ++ v.nodes)
  | .cond tag c a b => .cond tag c a b :: (c.nodes ++ (a.nodes ++ b.nodes))
  | .call tag callee args => .call tag callee args :: (callee.nodes ++ Expr.allNodes args)
  | .cast tag x => .cast tag x :: x.nodes
  | .comma tag a b => .comma tag a b :: (a.nodes ++ b.nodes)

def Expr.allNodes : List Expr → List Expr
  | [] => []
  | e :: es => e.nodes ++ Expr.allNodes es

end

def Decl.nodes (d : Decl) : List Expr :=
  match d.init with
  | some e => e.nodes
  | none => []

mutual

/-- The expressions of a statement, each with all that is inside it. -/
def Stmt.nodes : Stmt → List Expr
  | .expr e | .ret (some e) => e.nodes
  | .when c body | .while c body => c.nodes ++ body.nodes
  | .ifElse c a b => c.nodes ++ (a.nodes ++ b.nodes)
  | .block decls body => decls.flatMap Decl.nodes ++ Stmt.allNodes body
  | .ret none | .break | .continue => []

def Stmt.allNodes : List Stmt → List Expr
  | [] => []
  | s :: ss => s.nodes ++ Stmt.allNodes ss

end

def Task.nodes : Task → List Expr
  | .value e _ | .compute e _ | .effect e | .branch e _ _ | .jump e _ _ => e.nodes
  | .choose c a b => c.nodes ++ (a.nodes ++ b.nodes)
  | .args es _ => Expr.allNodes es
  | .decls ds => ds.flatMap Decl.nodes
  | .stmt _ _ s => s.nodes
  | .stmts _ _ ss => Stmt.allNodes ss

/-- Occurrences with one number are one node. -/
def SameNodes (nodes : List Expr) : Prop :=
  ∀ a ∈ nodes, ∀ b ∈ nodes, a.number = b.number → a = b

/-- Every number of the function names one node, which may have several parents. -/
def FunctionDef.NodesNumbered (d : FunctionDef) : Prop := SameNodes d.body.nodes

theorem SameNodes.of_table {nodes : List Expr} (table : Nat → Expr)
    (found : ∀ e ∈ nodes, table e.number = e) : SameNodes nodes := by
  intro a first b second same
  rw [← found a first, ← found b second, same]

namespace Expr

def kids : Expr → List Expr
  | const .. | addr .. => []
  | deref _ x | unary _ _ x | cast _ x => [x]
  | binary _ _ a b | assign _ a b | comma _ a b => [a, b]
  | cond _ c a b => [c, a, b]
  | call _ callee args => callee :: args

theorem allNodes_eq_flatMap (es : List Expr) : allNodes es = es.flatMap nodes := by
  induction es with
  | nil => rfl
  | cons e es ih => rw [allNodes, ih, List.flatMap_cons]

theorem allNodes_reverse_subset (es : List Expr) : allNodes es.reverse ⊆ allNodes es := by
  intro x inside
  simpa [allNodes_eq_flatMap] using inside

def inner (e : Expr) : List Expr := e.kids.flatMap nodes

theorem nodes_eq_cons (e : Expr) : e.nodes = e :: e.inner := by
  cases e <;> simp [nodes, inner, kids, allNodes_eq_flatMap]

theorem self_mem_nodes (e : Expr) : e ∈ e.nodes := by
  rw [nodes_eq_cons]
  exact List.mem_cons_self

theorem nodes_sublist_of_mem_kids {e k : Expr} (kid : k ∈ e.kids) : k.nodes.Sublist e.inner :=
  List.sublist_flatten_of_mem (List.mem_map_of_mem kid)

theorem length_nodes_lt_of_mem_kids {e k : Expr} (kid : k ∈ e.kids) :
    k.nodes.length < e.nodes.length := by
  rw [e.nodes_eq_cons, List.length_cons]
  exact Nat.lt_succ_of_le (nodes_sublist_of_mem_kids kid).length_le

theorem nodes_sublist {e x : Expr} (inside : x ∈ e.nodes) : x.nodes.Sublist e.nodes := by
  induction size : e.nodes.length using Nat.strongRecOn generalizing e with
  | ind n ih =>
    rw [nodes_eq_cons, List.mem_cons] at inside
    rcases inside with rfl | inside
    · exact List.Sublist.refl _
    obtain ⟨k, kid, inside⟩ := List.mem_flatMap.mp inside
    have smaller := length_nodes_lt_of_mem_kids kid
    refine (ih _ (by omega) inside rfl).trans ((nodes_sublist_of_mem_kids kid).trans ?_)
    rw [nodes_eq_cons]
    exact List.sublist_cons_self e e.inner

theorem not_mem_inner (e : Expr) : e ∉ e.inner := by
  intro inside
  obtain ⟨k, kid, inside⟩ := List.mem_flatMap.mp inside
  have shorter := (nodes_sublist inside).length_le
  have smaller := length_nodes_lt_of_mem_kids kid
  omega

theorem number_ne_of_mem_inner {e x : Expr} {nodes : List Expr} (same : SameNodes nodes)
    (within : e.nodes ⊆ nodes) (inside : x ∈ e.inner) : x.number ≠ e.number := by
  intro equal
  have part : x ∈ e.nodes := by
    rw [nodes_eq_cons]
    exact List.mem_cons_of_mem e inside
  have : x = e := same x (within part) e (within e.self_mem_nodes) equal
  exact e.not_mem_inner (this ▸ inside)

theorem allNumbers_eq_flatMap (es : List Expr) : allNumbers es = es.flatMap numbers := by
  induction es with
  | nil => rfl
  | cons e es ih => rw [allNumbers, ih, List.flatMap_cons]

theorem numbers_eq_cons (e : Expr) : e.numbers = e.number :: e.kids.flatMap numbers := by
  cases e <;> simp [numbers, kids, number, tag, allNumbers_eq_flatMap]

theorem numbers_eq_map (e : Expr) : e.numbers = e.nodes.map number := by
  induction size : e.nodes.length using Nat.strongRecOn generalizing e with
  | ind n ih =>
    have below : ∀ k ∈ e.kids, k.numbers = k.nodes.map number := by
      intro k kid
      have smaller := length_nodes_lt_of_mem_kids kid
      exact ih _ (by omega) k rfl
    rw [numbers_eq_cons, nodes_eq_cons, List.map_cons, inner, List.map_flatMap, List.flatMap_def,
      List.flatMap_def, List.map_congr_left below]

theorem tail_numbers (e : Expr) : e.numbers.tail = e.inner.map number := by
  rw [numbers_eq_map, nodes_eq_cons]
  rfl

end Expr

namespace Draft

theorem lookup_settle (d : Draft) (number : Nat) (id : LinId) (n : Nat) :
    (d.settle number id).done.lookup n = if n = number then some id else d.done.lookup n := by
  rw [settle, List.lookup_cons]
  split
  · rename_i equal
    rw [if_pos (eq_of_beq equal)]
  · rename_i differs
    rw [if_neg (ne_of_beq_false differs)]

theorem stable_settle {d : Draft} {number : Nat} {id : LinId}
    (unknown : d.done.lookup number = none) {n : Nat} {id' : LinId}
    (known : d.done.lookup n = some id') : (d.settle number id).done.lookup n = some id' := by
  rw [lookup_settle, if_neg, known]
  rintro rfl
  rw [unknown] at known
  cases known

end Draft

namespace Lowers

variable {output : Option Symbol} {sharing : Bool} {task : Task} {d d' : Draft}

theorem stable (run : Lowers output sharing task d d') {n : Nat} {id : LinId}
    (known : d.done.lookup n = some id) : d'.done.lookup n = some id := by
  -- Only `first` notes something, and only about a node that nothing was noted about.
  induction run with
  | reuse | const | addr | effectKnown | argsNil | declsNil | retNone | «break» | «continue»
  | stmtsNil => exact known
  | @first e id' d d' unknown _ ih =>
    have other : n ≠ e.number := by
      rintro rfl
      rw [unknown] at known
      cases known
    rw [Draft.lookup_settle, if_neg other]
    exact ih known
  | deref _ ih | unary _ _ ih | not _ ih | condVoid _ _ ih | castKeep _ _ ih | cast _ _ ih
  | effectCond _ _ ih | jumpNot _ ih | effectValue _ _ ih | branch _ _ _ ih | expr _ ih
  | ret _ _ ih => exact ih known
  | binary _ _ _ ih₁ ih₂ | relation _ _ _ ih₁ ih₂ | assign _ _ _ ih₁ ih₂ | comma _ _ ih₁ ih₂
  | effectAnd _ _ _ ih₁ ih₂ | effectOr _ _ _ ih₁ ih₂ | effectComma _ _ ih₁ ih₂ | jumpAnd _ _ ih₁ ih₂
  | jumpAndOpen _ _ ih₁ ih₂ | jumpOr _ _ ih₁ ih₂ | jumpOrOpen _ _ ih₁ ih₂ | jumpComma _ _ ih₁ ih₂
  | call _ _ _ ih₁ ih₂ | argsCons _ _ ih₁ ih₂ | «when» _ _ ih₁ ih₂ | block _ _ ih₁ ih₂
  | stmtsCons _ _ ih₁ ih₂ => exact ih₂ (ih₁ known)
  | truth _ declared _ yes no ih =>
    subst declared yes no
    exact ih known
  | assignNarrow _ _ _ stored ih₁ ih₂ =>
    subst stored
    exact ih₂ (ih₁ known)
  | cond _ declared _ _ yes _ no ih₁ ih₂ ih₃ =>
    subst declared yes no
    exact ih₃ (ih₂ (ih₁ known))
  | callStruct _ declared _ _ called ih₁ ih₂ =>
    subst declared called
    exact ih₂ (ih₁ known)
  | choose _ _ _ ih₁ ih₂ ih₃ | ifElse _ _ _ ih₁ ih₂ ih₃ => exact ih₃ (ih₂ (ih₁ known))
  | branchKnown =>
    rw [Draft.test, Draft.done_compare]
    exact known
  | jumpConst =>
    rw [Draft.done_jumpTo]
    exact known
  | jumpRelation _ _ _ _ ih₁ ih₂ =>
    rw [Draft.done_compare]
    exact ih₂ (ih₁ known)
  | jumpValue _ _ _ ih =>
    rw [Draft.test, Draft.done_compare]
    exact ih known
  | declsPlain declared _ ih =>
    subst declared
    rw [Draft.done_declare] at ih
    exact ih known
  | declsInit declared _ _ ih₁ ih₂ =>
    subst declared
    rw [Draft.done_declare] at ih₁
    exact ih₂ (ih₁ known)
  | «while» labels _ _ ih₁ ih₂ =>
    subst labels
    exact ih₂ (ih₁ known)
  | retStruct _ _ _ pointer ih =>
    subst pointer
    exact ih known

theorem logical_settles {tag : NodeTag} {op : BinaryOp} {a b : Expr} {t f : Option Symbol}
    (run : Lowers output sharing (.jump (.binary tag op a b) t f) d d') (logical : op.isLogical = true) :
    Settles (a.numbers ++ b.numbers) d.done d'.done := by
  cases run with
  | jumpAnd first second | jumpAndOpen first second | jumpOr first second | jumpOrOpen first second =>
    exact first.settles.append second.settles
  | jumpRelation relational => cases op <;> cases logical <;> cases relational
  | jumpValue plain => cases op <;> cases logical <;> cases plain

theorem compute_settles {e : Expr} {id : LinId}
    (run : Lowers output sharing (.compute e id) d d') : Settles e.numbers.tail d.done d'.done := by
  cases run with
  | const | addr => exact .refl
  | deref run | unary _ run | not run | condVoid _ run | castKeep _ run | cast _ run =>
    exact run.settles
  | binary _ first second | relation _ first second | assign _ first second | comma first second =>
    exact first.settles.append second.settles
  | truth logical declared jumps yes no =>
    subst declared yes no
    exact jumps.logical_settles logical
  | assignNarrow _ first second stored =>
    subst stored
    exact first.settles.append second.settles
  | cond _ declared test arm yes other no =>
    subst declared yes no
    exact test.settles.append (arm.settles.append other.settles)
  | call _ pushed target => exact (pushed.settles.append target.settles).ofCall
  | callStruct _ declared pushed target called =>
    subst declared called
    exact (pushed.settles.append target.settles).ofCall

theorem compute_unknown {e : Expr} {id : LinId} {nodes : List Expr}
    (run : Lowers output sharing (.compute e id) d d') (same : SameNodes nodes)
    (within : e.nodes ⊆ nodes) (unknown : d.done.lookup e.number = none) :
    d'.done.lookup e.number = none := by
  rw [run.compute_settles e.number, unknown]
  rw [e.tail_numbers, List.mem_map]
  rintro ⟨x, inside, equal⟩
  exact Expr.number_ne_of_mem_inner same within inside equal

end Lowers

end CBackend
