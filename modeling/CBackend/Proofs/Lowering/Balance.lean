import Mathlib.Data.List.Nodup
import CBackend.Proofs.Lowering.Structure

/-!
The arguments of calls balance. To every position of a function's code belong the arguments that are
outstanding there, by whatever way control comes to it: none at the beginning and between statements,
one more after each push, and after a call those that were outstanding before the first of its own.
-/

namespace CBackend

open Draft

/-- While a part is lowered from `d` to `d'`, a statement inside it is lowered from `a` to `b`. -/
inductive Lowers.Statement (output : Option Symbol) :
    Task → (d d' a b : Draft) → Prop
  | whole {loops level s d d'} (run : Lowers output true (.stmt loops level s) d d') :
      Statement output (.stmt loops level s) d d' d d'
  | when {loops level c body d d₁ d₂ a b}
      (test : Lowers output true (.branch c none (some d.fresh)) d.label d₁)
      (inner : Statement output (.stmt loops level body) d₁ d₂ a b) :
      Statement output (.stmt loops level (.when c body)) d (d₂.place d.fresh) a b
  | then' {loops level c x y d d₁ d₂ d₃ a b}
      (test : Lowers output true (.branch c none (some d.fresh)) d.label.label d₁)
      (inner : Statement output (.stmt loops level x) d₁ d₂ a b)
      (other : Lowers output true (.stmt loops level y)
        ((d₂.code (.jump d.label.fresh)).place d.fresh) d₃) :
      Statement output (.stmt loops level (.ifElse c x y)) d (d₃.place d.label.fresh) a b
  | else' {loops level c x y d d₁ d₂ d₃ a b}
      (test : Lowers output true (.branch c none (some d.fresh)) d.label.label d₁)
      (arm : Lowers output true (.stmt loops level x) d₁ d₂)
      (inner : Statement output (.stmt loops level y)
        ((d₂.code (.jump d.label.fresh)).place d.fresh) d₃ a b) :
      Statement output (.stmt loops level (.ifElse c x y)) d (d₃.place d.label.fresh) a b
  | while {loops level c body d d₂ d₃ a b}
      (inner : Statement output (.stmt (⟨d.label.fresh, d.label.label.fresh⟩ :: loops) level body)
        ((d.label.label.label.code (.jump d.label.fresh)).place d.fresh) d₂ a b)
      (test : Lowers output true (.branch c (some d.fresh) none) (d₂.place d.label.fresh) d₃) :
      Statement output (.stmt loops level (.while c body)) d (d₃.place d.label.label.fresh) a b
  | block {loops level decls body d d₁ d₂ a b}
      (heads : Lowers output true (.decls decls) (d.code (.blockEnter (level + 1))) d₁)
      (inner : Statement output (.stmts loops (level + 1) body) d₁ d₂ a b) :
      Statement output (.stmt loops level (.block decls body)) d
        (d₂.code (.blockLeave (level + 1))) a b
  | head {loops level s ss d d₁ d₂ a b} (inner : Statement output (.stmt loops level s) d d₁ a b)
      (rest : Lowers output true (.stmts loops level ss) d₁ d₂) :
      Statement output (.stmts loops level (s :: ss)) d d₂ a b
  | tail {loops level s ss d d₁ d₂ a b} (first : Lowers output true (.stmt loops level s) d d₁)
      (inner : Statement output (.stmts loops level ss) d₁ d₂ a b) :
      Statement output (.stmts loops level (s :: ss)) d d₂ a b

namespace Lowers.Statement

variable {output : Option Symbol} {task : Task} {d d' a b : Draft}

theorem grows (statement : Statement output task d d' a b) : a.Grows b ∧ b.Grows d' := by
  induction statement with
  | whole run => exact ⟨run.grows, .refl _⟩
  | «when» _ _ ih => exact ⟨ih.1, ih.2.place _⟩
  | then' _ _ other ih => exact ⟨ih.1, ((ih.2.code _ |>.place _).trans other.grows).place _⟩
  | else' _ _ _ ih => exact ⟨ih.1, ih.2.place _⟩
  | «while» _ test ih => exact ⟨ih.1, ((ih.2.place _).trans test.grows).place _⟩
  | block _ _ ih => exact ⟨ih.1, ih.2.code _⟩
  | head _ rest ih => exact ⟨ih.1, ih.2.trans rest.grows⟩
  | tail _ _ ih => exact ih

theorem outlines {exit : Symbol} {nodes : List Expr} (statement : Statement output task d d' a b)
    {pushed : List Push} {ahead : List Symbol} {levels : List Nat}
    {labels : List (Symbol × List Push)} (outlines : d.Outlines exit nodes pushed ahead levels labels)
    (ready : task.Ready exit nodes pushed labels) : ∃ ahead levels labels,
      a.Outlines exit nodes pushed ahead levels labels ∧
      b.Outlines exit nodes pushed ahead levels labels := by
  induction statement generalizing ahead levels labels with
  | whole run => exact ⟨_, _, _, outlines, run.builds outlines ready⟩
  | «when» test _ ih =>
    obtain ⟨condition, body⟩ := List.append_subset.mp ready.within
    have tested := test.builds.branch outlines.label condition
      (List.forall_mem_singleton.mpr (by simp))
    exact ih tested (ready.part rfl body (by simp))
  | then' test _ _ ih =>
    obtain ⟨condition, within⟩ := List.append_subset.mp ready.within
    have tested := test.builds.branch outlines.label.label condition
      (List.forall_mem_singleton.mpr (by simp))
    exact ih tested (ready.part rfl (List.append_subset.mp within).1 (by simp))
  | @else' loops level c x y d d₁ d₂ d₃ a b test arm _ ih =>
    obtain ⟨condition, within⟩ := List.append_subset.mp ready.within
    obtain ⟨first, second⟩ := List.append_subset.mp within
    have tested := test.builds.branch outlines.label.label condition
      (List.forall_mem_singleton.mpr (by simp))
    have taken : d₂.Outlines exit nodes pushed _ levels _ :=
      arm.builds tested (ready.part rfl first (by simp))
    exact ih ((taken.jump (l := d.label.fresh) (by simp)).place [_] (by simp))
      (ready.part rfl second (by simp))
  | «while» _ _ ih =>
    obtain ⟨start, inside⟩ := outlines.loop ready
    exact ih start inside
  | @block loops level decls body d d₁ d₂ a b heads _ ih =>
    obtain ⟨declared, within⟩ := List.append_subset.mp ready.within
    have opened := outlines.code (c := .blockEnter (level + 1)) rfl rfl rfl nofun
    exact ih (heads.builds opened ⟨nofun, declared⟩) (ready.part rfl within (List.Subset.refl _))
  | head _ _ ih =>
    exact ih outlines (ready.part rfl (List.append_subset.mp ready.within).1 (List.Subset.refl _))
  | tail first _ ih =>
    obtain ⟨here, below⟩ := List.append_subset.mp ready.within
    have run := first.builds outlines (ready.part rfl here (List.Subset.refl _))
    exact ih run (ready.part rfl below (List.Subset.refl _))

end Lowers.Statement

/-- A position of the code where a statement begins or ends. -/
def FunctionDef.Boundary (d : FunctionDef) (t : SymbolTable) (f : LinearFunction) (pos : Nat) :
    Prop :=
  ∃ body a b, Lowers.Statement d.output (.stmt [] 0 d.body) (opening t) body a b ∧
    body.codes <+: f.codes.toList ∧ body.nodes <+: f.nodes.toList ∧
    (pos = a.codes.length ∨ pos = b.codes.length)

/-- The arguments outstanding at every position, the newest first, agree along every way that control
may take. `value` gives the numbers of the values of expression nodes. -/
structure LinearFunction.Balances (f : LinearFunction) (nodes : List Expr)
    (pushed : Nat → List Push) (value : Nat → Option LinId) : Prop where
  start : pushed 0 = []
  arg : ∀ {i j l}, f.Follows i j → f.codes[i]? = some (.arg l) →
    pushed j = ⟨i, roundToSlot (f.node l).ty.size⟩ :: pushed i
  call : ∀ {i j l}, f.Follows i j → f.codes[i]? = some (.eval l) → (f.node l).op = .call →
    ∃ tag callee args own, .call tag callee args ∈ nodes ∧
      Push.Calls value (f.node l) tag callee ∧ pushed i = own ++ pushed j ∧
      (Push.total own : Int) = (f.node l).aux ∧
      Push.Owned f.codes.toList f.nodes.toList value tag args own
  other : ∀ {i j c}, f.Follows i j → f.codes[i]? = some c → (∀ l, c ≠ .arg l) →
    (∀ l, c = .eval l → (f.node l).op ≠ .call) → pushed j = pushed i

theorem LinearFunction.node_eq_getD (f : LinearFunction) (l : LinId) :
    f.node l = f.nodes.toList.getD l.index default := by
  rw [node, Array.getD_eq_getD_getElem?, List.getD_eq_getElem?_getD, Array.getElem?_toList]

theorem pushed_unique {made : List (Symbol × List Push)} (distinct : (made.map Prod.fst).Nodup)
    {l : Symbol} {p q : List Push} (first : (l, p) ∈ made) (second : (l, q) ∈ made) : p = q := by
  have := List.inj_on_of_nodup_map distinct first second rfl
  exact congrArg Prod.snd this

namespace Draft

variable {exit : Symbol} {nodes : List Expr} {d : Draft} {pushed : List Push}
  {made : List (Symbol × List Push)} {f : LinearFunction}

theorem Balanced.balances (balanced : Balanced f.exit nodes d pushed made)
    (distinct : (made.map Prod.fst).Nodup) (codes : f.codes.toList = d.codes)
    (operators : f.nodes.toList = d.nodes) :
    f.Balances nodes (outstanding f.nodes.toList f.codes.toList) (d.done.lookup ·) := by
  rw [codes, operators]
  have step {i j : Nat} {c : Code} (follows : f.Follows i j) (here : f.codes[i]? = some c) :
      outstanding d.nodes d.codes j = c.passes d.nodes i (outstanding d.nodes d.codes i) := by
    cases follows with
    | next found stays inside =>
      rw [← Array.getElem?_toList, codes] at here
      exact outstanding_succ here
    | jump found target there =>
      cases found.symm.trans here
      have passed : c.passes d.nodes i (outstanding d.nodes d.codes i) =
          outstanding d.nodes d.codes i := by
        cases c <;> first | rfl | cases target
      rw [← Array.getElem?_toList, codes] at here there
      rw [passed]
      exact pushed_unique distinct (balanced.placed j _ there) (balanced.jumps i c _ here target)
  have node (l : LinId) : f.node l = d.nodes.getD l.index default := by
    rw [f.node_eq_getD, operators]
  refine ⟨rfl, fun follows here => ?_, fun {i j l} follows here called => ?_,
    fun {i j c} follows here argument operator => ?_⟩
  · rw [step follows here, node]
    rfl
  · rw [node] at called ⊢
    have place := here
    rw [← Array.getElem?_toList, codes] at place
    have known := balanced.known _ (List.mem_of_getElem? place) l rfl
    have found : d.nodes[l.index]? = some (d.nodes.getD l.index default) := by
      rw [List.getD_eq_getElem?_getD, List.getElem?_eq_getElem known, Option.getD_some]
    obtain ⟨tag, callee, args, own, inside, calls, taken, bytes, owned⟩ :=
      balanced.calls i l _ place found called
    refine ⟨tag, callee, args, own, inside, calls, ?_, bytes,
      by rw [codes, operators]; exact owned⟩
    rw [step follows here, ← outstanding_succ place]
    exact taken
  · rw [step follows here]
    cases c with
    | arg l => exact absurd rfl (argument l)
    | eval l =>
      have pure := operator l rfl
      rw [node] at pure
      exact if_neg pure
    | _ => rfl

theorem Outlines.idle {ahead : List Symbol} {levels : List Nat} {labels : List (Symbol × List Push)}
    (outlines : d.Outlines exit nodes pushed ahead levels labels) (sized : Sized nodes)
    (codes : d.codes <+: f.codes.toList) (operators : d.nodes <+: f.nodes.toList) :
    outstanding f.nodes.toList f.codes.toList d.codes.length = pushed := by
  obtain ⟨made, -, outlined⟩ := outlines
  have balanced := outlined.balanced sized
  obtain ⟨more, appended⟩ := codes
  rw [← appended, outstanding_append operators balanced.known more (Nat.le_refl _)]
  exact balanced.now

end Draft

/-- If every argument has the size of its linear type, there are arguments outstanding at each
position that agree along every way control may take: none at the first code and between statements,
one more after a push, and at each call its own on top, which it takes off. -/
theorem FunctionDef.arguments_balance {d : FunctionDef} {t t' : SymbolTable} {f : LinearFunction}
    (lowered : d.lower t = .ok f t') (numbered : d.NodesNumbered)
    (fits : ∀ e ∈ d.body.nodes, e.ArgsFit) :
    ∃ pushed value, f.Balances d.body.nodes pushed value ∧
      (∀ pos, d.Boundary t f pos → pushed pos = []) ∧
      (∀ i j l, f.Follows i j → f.codes[i]? = some (.arg l) →
        Push.total (pushed j) = Push.total (pushed i) + roundToSlot (f.node l).ty.size) ∧
      ∀ i j l, f.Follows i j → f.codes[i]? = some (.eval l) → (f.node l).op = .call →
        (Push.total (pushed i) : Int) = Push.total (pushed j) + (f.node l).aux := by
  obtain ⟨body, made, run, start, outlined, codes, operators⟩ := FunctionDef.lower_outlined lowered
  have sized : Sized d.body.nodes := ⟨numbered, fits⟩
  have balances := (outlined.balanced sized).balances outlined.labelled.distinct codes operators
  refine ⟨_, _, balances, ?_, ?_, ?_⟩
  · rintro pos ⟨body', a, b, statement, longer, grown, place⟩
    have ready : Task.Ready f.exit d.body.nodes (.stmt [] 0 d.body) [] [(f.exit, [])] :=
      ⟨List.forall_mem_singleton.mpr List.mem_cons_self, List.Subset.refl _⟩
    obtain ⟨ahead, levels, labels, first, last⟩ := statement.outlines start ready
    obtain ⟨inside, upTo⟩ := statement.grows
    rcases place with rfl | rfl
    · exact first.idle sized ((inside.codes.trans upTo.codes).trans longer)
        ((inside.nodes.trans upTo.nodes).trans grown)
    · exact last.idle sized (upTo.codes.trans longer) (upTo.nodes.trans grown)
  · intro i j l follows here
    rw [balances.arg follows here, Push.total, List.map_cons, List.sum_cons, Nat.add_comm]
    rfl
  · intro i j l follows here called
    obtain ⟨tag, callee, args, own, -, -, taken, bytes, -⟩ := balances.call follows here called
    rw [taken, Push.total_append, ← bytes, Int.natCast_add, Int.add_comm]

/-- A call among whose arguments are a conditional value and a struct that another call returns; one
node is an argument of both calls and an arm of the condition. -/
def FunctionDef.nestedCalls : FunctionDef where
  name := ⟨0⟩
  ret := .int
  params := [⟨1⟩]
  output := none
  body := .expr outer
where
  read : Expr := .deref ⟨1, .int⟩ (.addr ⟨0, .pointer⟩ ⟨1⟩)
  choice : Expr := .cond ⟨3, .int⟩ read (.const ⟨2, .int⟩ ⟨4⟩) read
  inner : Expr := .call ⟨5, .struct 8⟩ (.addr ⟨4, .pointer⟩ ⟨3⟩) [read]
  outer : Expr := .call ⟨7, .int⟩ (.addr ⟨6, .pointer⟩ ⟨2⟩) [read, choice, inner]

def SymbolTable.nestedCalls : SymbolTable where
  entries := #[⟨"f", .function, .int, none⟩, ⟨"a", .param, .int, none⟩,
    ⟨"g", .function, .int, none⟩, ⟨"h", .function, .struct 8, none⟩, ⟨"1", .intConst 1, .int, none⟩]

theorem FunctionDef.nestedCalls_numbered : nestedCalls.NodesNumbered := by
  let table : Nat → Expr
    | 0 => .addr ⟨0, .pointer⟩ ⟨1⟩
    | 1 => nestedCalls.read
    | 2 => .const ⟨2, .int⟩ ⟨4⟩
    | 3 => nestedCalls.choice
    | 4 => .addr ⟨4, .pointer⟩ ⟨3⟩
    | 5 => nestedCalls.inner
    | 6 => .addr ⟨6, .pointer⟩ ⟨2⟩
    | _ => nestedCalls.outer
  refine .of_table table ?_
  simp [nestedCalls, nestedCalls.outer, nestedCalls.inner, nestedCalls.choice, nestedCalls.read,
    Stmt.nodes, Expr.nodes, Expr.allNodes, table, Expr.number, Expr.tag]

theorem FunctionDef.nestedCalls_balance : ∃ f t' pushed value,
    nestedCalls.lower .nestedCalls = .ok f t' ∧ f.Balances nestedCalls.body.nodes pushed value := by
  have accepted : (nestedCalls.lower.run' .nestedCalls).isSome = true := by decide +kernel
  obtain ⟨f, ran⟩ := Option.isSome_iff_exists.mp accepted
  obtain ⟨t', lowered⟩ := exists_of_run' ran
  obtain ⟨pushed, value, balances, -⟩ := arguments_balance lowered nestedCalls_numbered
    (by decide +kernel)
  exact ⟨f, t', pushed, value, lowered, balances⟩

end CBackend
