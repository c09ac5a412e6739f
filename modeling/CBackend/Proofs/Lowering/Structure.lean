import CBackend.Proofs.Lowering.Growth
import CBackend.Proofs.Lowering.Outline

/-!
Lowering keeps the outline of its code in order, whatever nodes are shared. The labels of a part are
made when the part begins and placed before it ends, blocks nest as statements do, and a call takes
off exactly what has been pushed for it.
-/

namespace CBackend

variable {nodes : List Expr} {op : BinaryOp} {exit : Symbol}

namespace Draft

/-- The labels, blocks and arguments of a draft are in order, with these arguments outstanding,
labels still to be placed and blocks still open. -/
structure Outlined (exit : Symbol) (nodes : List Expr) (d : Draft) (pushed : List Push)
    (made : List (Symbol × List Push)) (ahead : List Symbol) (levels : List Nat) : Prop where
  numbered : d.Numbered
  nested : d.Nested levels
  labelled : d.Labelled exit (made.map Prod.fst) ahead
  balanced : Sized nodes → d.Balanced exit nodes pushed made

def Outlines (exit : Symbol) (nodes : List Expr) (d : Draft) (pushed : List Push)
    (ahead : List Symbol) (levels : List Nat) (labels : List (Symbol × List Push)) : Prop :=
  ∃ made, labels ⊆ made ∧ d.Outlined exit nodes pushed made ahead levels

theorem Numbered.code {d : Draft} (numbered : d.Numbered) {c : Code} (other : c.lin? = none)
    (symbols : SymbolTable) (done : List (Nat × LinId)) :
    Numbered ⟨symbols, d.codes ++ [c], d.nodes, done⟩ := by
  simp only [Numbered, List.filterMap_append, List.filterMap_cons_none other, List.filterMap_nil,
    List.append_nil]
  exact numbered

theorem Numbered.emit {d : Draft} (numbered : d.Numbered) (n : LinNode) : (d.emit n).Numbered := by
  simp only [Numbered, Draft.emit, List.filterMap_append, List.length_append, List.length_singleton,
    List.range_succ, List.map_append]
  rw [numbered]
  rfl

theorem Nested.code {d : Draft} {levels levels' : List Nat} (nested : d.Nested levels) {c : Code}
    (next : c.nest levels = some levels') (symbols : SymbolTable) (operators : List LinNode)
    (done : List (Nat × LinId)) :
    Nested ⟨symbols, d.codes ++ [c], operators, done⟩ levels' := by
  simp only [Nested, List.foldlM_append]
  rw [nested]
  simpa using next

namespace Outlines

variable {d : Draft} {pushed : List Push} {ahead : List Symbol} {levels : List Nat}
  {labels : List (Symbol × List Push)}

theorem forget (outlines : Outlines exit nodes d pushed ahead levels labels)
    {fewer : List (Symbol × List Push)} (sub : fewer ⊆ labels) :
    Outlines exit nodes d pushed ahead levels fewer := by
  obtain ⟨made, known, outlined⟩ := outlines
  exact ⟨made, List.Subset.trans sub known, outlined⟩

theorem noted (outlines : Outlines exit nodes d pushed ahead levels labels) (sized : Sized nodes) :
    d.Noted nodes := by
  obtain ⟨made, known, outlined⟩ := outlines
  exact (outlined.balanced sized).noted

theorem settle (outlines : Outlines exit nodes d pushed ahead levels labels) {e : Expr} {id : LinId}
    (inside : e ∈ nodes) (holds : Sized nodes → d.Holds id e.linearType)
    (unknown : Sized nodes → d.done.lookup e.number = none) :
    Outlines exit nodes (d.settle e.number id) pushed ahead levels labels := by
  obtain ⟨made, known, outlined⟩ := outlines
  refine ⟨made, known, outlined.numbered, outlined.nested, ?_, fun sized => ?_⟩
  · exact outlined.labelled.enter (Nat.le_refl _) |> fun l => ⟨l.1, l.2, l.3, l.4, l.5, l.6, l.7⟩
  · exact (outlined.balanced sized).settle sized.same inside (holds sized) (unknown sized)

theorem enter (outlines : Outlines exit nodes d pushed ahead levels labels) {symbols : SymbolTable}
    (more : d.symbols.size ≤ symbols.size) :
    Outlines exit nodes { d with symbols } pushed ahead levels labels := by
  obtain ⟨made, known, outlined⟩ := outlines
  exact ⟨made, known, outlined.numbered, outlined.nested, outlined.labelled.enter more,
    fun sized => (outlined.balanced sized).enter symbols (List.Subset.refl made)⟩

theorem emitted (outlines : Outlines exit nodes d pushed ahead levels labels) {n : LinNode}
    {left : List Push} (passed : Sized nodes →
      (Code.eval d.next).passes (d.nodes ++ [n]) d.codes.length pushed = left)
    (call : Sized nodes → n.op = .call → ∃ tag callee args own, .call tag callee args ∈ nodes ∧
      Push.Calls (d.done.lookup ·) n tag callee ∧ pushed = own ++ left ∧ (Push.total own : Int) = n.aux ∧
      Push.Owned d.codes d.nodes (d.done.lookup ·) tag args own) :
    Outlines exit nodes (d.emit n) left ahead levels labels := by
  obtain ⟨made, known, outlined⟩ := outlines
  refine ⟨made, known, outlined.numbered.emit n, outlined.nested.code (c := .eval d.next) rfl _ _ _,
    outlined.labelled.append (c := .eval d.next) rfl (by simp [Code.target?]) _, fun sized => ?_⟩
  have balanced := (outlined.balanced sized).append (.eval d.next) (List.prefix_append _ [n])
    (List.Subset.refl made) (fun l subject => by cases subject; simp [next]) (by simp)
    (by simp [Code.target?])
    (fun l m same found called => ?_) d.symbols
  · rwa [passed sized] at balanced
  · cases same
    cases (show (d.nodes ++ [n])[d.next.index]? = some n by simp [next]).symm.trans found
    rw [passed sized]
    exact call sized called

theorem emit (outlines : Outlines exit nodes d pushed ahead levels labels) {n : LinNode}
    (other : n.op ≠ .call) : Outlines exit nodes (d.emit n) pushed ahead levels labels :=
  outlines.emitted (fun _ => by simp [Code.passes, next, other]) fun _ called => absurd called other

theorem call (own : List Push) {tag : NodeTag} {callee : Expr} {args : List Expr} {n : LinNode}
    (outlines : Outlines exit nodes d (own ++ pushed) ahead levels labels)
    (inside : .call tag callee args ∈ nodes) (calls : Push.Calls (d.done.lookup ·) n tag callee)
    (bytes : (Push.total own : Int) = n.aux)
    (owned : Sized nodes → Push.Owned d.codes d.nodes (d.done.lookup ·) tag args own)
    (called : n.op = .call) : Outlines exit nodes (d.emit n) pushed ahead levels labels := by
  refine outlines.emitted (fun sized => ?_) fun sized _ =>
    ⟨tag, callee, args, own, inside, calls, rfl, bytes, owned sized⟩
  have drained := Push.drain_append (owned sized).pos pushed
  simpa [Code.passes, next, called, ← bytes] using drained

theorem arg (outlines : Outlines exit nodes d pushed ahead levels labels) (v : LinId) (bytes : Nat)
    (size : Sized nodes → ∃ n, d.nodes[v.index]? = some n ∧ bytes = roundToSlot n.ty.size) :
    Outlines exit nodes (d.code (.arg v)) (⟨d.codes.length, bytes⟩ :: pushed) ahead levels
      labels := by
  obtain ⟨made, known, outlined⟩ := outlines
  refine ⟨made, known, outlined.numbered.code (c := .arg v) rfl _ _,
    outlined.nested.code (c := .arg v) rfl _ _ _, outlined.labelled.append (c := .arg v) rfl nofun _,
    fun sized => ?_⟩
  obtain ⟨n, found, rfl⟩ := size sized
  have balanced := (outlined.balanced sized).append (.arg v) List.prefix_rfl
    (List.Subset.refl made) (fun l subject => ?_) nofun nofun (fun _ _ same => nomatch same) d.symbols
  · simp only [Code.passes, List.getD_eq_getElem?_getD, found, Option.getD_some] at balanced
    exact balanced
  · cases subject
    exact (List.getElem?_eq_some_iff.mp found).1

theorem code (outlines : Outlines exit nodes d pushed ahead levels labels) {c : Code}
    {levels' : List Nat} (operator : c.subject? = none) (unlabelled : c.label? = none)
    (next : c.nest levels = some levels')
    (target : ∀ l, c.target? exit = some l → (l, pushed) ∈ labels) :
    Outlines exit nodes (d.code c) pushed ahead levels' labels := by
  obtain ⟨made, known, outlined⟩ := outlines
  have other : c.lin? = none := by cases c <;> first | rfl | cases operator
  have passed : c.passes d.nodes d.codes.length pushed = pushed := by
    cases c <;> first | rfl | cases operator
  refine ⟨made, known, outlined.numbered.code other _ _, outlined.nested.code next _ _ _, ?_,
    fun sized => ?_⟩
  · refine outlined.labelled.append unlabelled (fun l goes => ?_) _
    exact List.mem_map_of_mem (known (target l goes))
  · have balanced := (outlined.balanced sized).append c List.prefix_rfl (List.Subset.refl made)
      (fun l subject => ?_) (fun l same => ?_) (fun l goes => known (target l goes))
      (fun l n same => ?_) d.symbols
    · rwa [passed] at balanced
    · rw [operator] at subject
      cases subject
    · subst same
      cases unlabelled
    · subst same
      cases operator

theorem label (outlines : Outlines exit nodes d pushed ahead levels labels) :
    Outlines exit nodes d.label pushed (d.fresh :: ahead) levels ((d.fresh, pushed) :: labels) := by
  obtain ⟨made, known, outlined⟩ := outlines
  refine ⟨(d.fresh, pushed) :: made, List.cons_subset_cons _ known, outlined.numbered,
    outlined.nested, outlined.labelled.label, fun sized => ?_⟩
  exact (outlined.balanced sized).enter _ (List.subset_cons_self _ made)

theorem place (before : List Symbol) {l : Symbol} {after : List Symbol}
    (outlines : Outlines exit nodes d pushed (before ++ l :: after) levels labels)
    (made : (l, pushed) ∈ labels) :
    Outlines exit nodes (d.place l) pushed (before ++ after) levels labels := by
  obtain ⟨all, known, outlined⟩ := outlines
  refine ⟨all, known, outlined.numbered.code (c := .label l) rfl _ _,
    outlined.nested.code (c := .label l) rfl _ _ _, outlined.labelled.place, fun sized => ?_⟩
  exact (outlined.balanced sized).append (.label l) List.prefix_rfl (List.Subset.refl all) nofun
    (fun k same => by cases same; exact known made) nofun (fun _ _ same => nomatch same) d.symbols

theorem addr (outlines : Outlines exit nodes d pushed ahead levels labels) (sym : Symbol) :
    Outlines exit nodes (d.addr sym) pushed ahead levels labels := outlines.emit nofun

theorem zero (outlines : Outlines exit nodes d pushed ahead levels labels) (ty : CType) :
    Outlines exit nodes (d.zero ty) pushed ahead levels labels := by
  refine (outlines.enter ?_).emit nofun
  split
  · exact SymbolTable.size_le_intern ..
  · exact SymbolTable.size_le_intern ..

theorem one (outlines : Outlines exit nodes d pushed ahead levels labels) :
    Outlines exit nodes d.one pushed ahead levels labels :=
  (outlines.enter (SymbolTable.size_le_intern ..)).emit nofun

theorem temp (outlines : Outlines exit nodes d pushed ahead levels labels) (ty : CType) :
    Outlines exit nodes (d.temp ty) pushed ahead levels labels := by
  have grown : (d.symbols.temp ty).2.size = d.symbols.size + 1 := SymbolTable.size_push ..
  exact (outlines.enter (Nat.le.intro grown.symm)).code rfl rfl rfl nofun

theorem store (outlines : Outlines exit nodes d pushed ahead levels labels) (sym : Symbol)
    (ty : CType) (v : LinId) : Outlines exit nodes (d.store sym ty v) pushed ahead levels labels :=
  (outlines.addr sym).emit nofun

theorem assign (outlines : Outlines exit nodes d pushed ahead levels labels) (ty : CType)
    (a v : LinId) : Outlines exit nodes
      (d.emit { op := .assign, ty, left := some a, right := some v }) pushed ahead levels labels :=
  outlines.emit nofun

theorem load (outlines : Outlines exit nodes d pushed ahead levels labels) (sym : Symbol)
    (ty : CType) : Outlines exit nodes (d.load sym ty) pushed ahead levels labels :=
  (outlines.addr sym).emit nofun

theorem jump (outlines : Outlines exit nodes d pushed ahead levels labels) {l : Symbol}
    (made : (l, pushed) ∈ labels) :
    Outlines exit nodes (d.code (.jump l)) pushed ahead levels labels := by
  refine outlines.code rfl rfl rfl ?_
  rintro _ ⟨⟩
  exact made

theorem compare (outlines : Outlines exit nodes d pushed ahead levels labels) (cond : Cond)
    (v w : LinId) {t f : Option Symbol} (made : ∀ l ∈ t.toList ++ f.toList, (l, pushed) ∈ labels) :
    Outlines exit nodes (d.compare cond v w t f) pushed ahead levels labels := by
  have branch (cond : Cond) {l : Symbol} (made : (l, pushed) ∈ labels) :
      Outlines exit nodes ((d.comparison cond v w).code (.branch d.next l)) pushed ahead levels
        labels := by
    have compared : Outlines exit nodes (d.comparison cond v w) pushed ahead levels labels :=
      outlines.emit nofun
    refine compared.code rfl rfl rfl ?_
    rintro _ ⟨⟩
    exact made
  match t, f with
  | some t, some f => exact (branch cond (made t (by simp))).jump (made f (by simp))
  | some t, none => exact branch cond (made t (by simp))
  | none, some f => exact branch cond.negate (made f (by simp))
  | none, none => exact outlines

theorem test (outlines : Outlines exit nodes d pushed ahead levels labels) (ty : CType) (v : LinId)
    {t f : Option Symbol} (made : ∀ l ∈ t.toList ++ f.toList, (l, pushed) ∈ labels) :
    Outlines exit nodes (d.test ty v t f) pushed ahead levels labels :=
  (outlines.zero ty).compare .ne v _ made

theorem jumpTo (outlines : Outlines exit nodes d pushed ahead levels labels) {l : Option Symbol}
    (made : ∀ k ∈ l.toList, (k, pushed) ∈ labels) :
    Outlines exit nodes (d.jumpTo l) pushed ahead levels labels := by
  cases l with
  | none => exact outlines
  | some l => exact outlines.jump (made l List.mem_cons_self)

theorem ret (outlines : Outlines exit nodes d pushed ahead levels labels) (value : Option LinId)
    (made : (exit, pushed) ∈ labels) :
    Outlines exit nodes (d.code (.ret value)) pushed ahead levels labels := by
  refine outlines.code rfl rfl rfl ?_
  rintro _ ⟨⟩
  exact made

theorem declare (outlines : Outlines exit nodes d pushed ahead levels labels) (sym : Symbol)
    (zeroFill : Bool) :
    Outlines exit nodes (if zeroFill then (d.code (.declare sym)).clear sym
      else d.code (.declare sym)) pushed ahead levels labels := by
  have declared := outlines.code (c := .declare sym) rfl rfl rfl nofun
  cases zeroFill with
  | false => exact declared
  | true => exact (declared.addr sym).code rfl rfl rfl nofun

end Outlines

end Draft

open Draft

/-- What a part needs: the labels it may jump to, made when the same arguments were outstanding. -/
structure Task.Ready (exit : Symbol) (nodes : List Expr) (task : Task) (pushed : List Push)
    (labels : List (Symbol × List Push)) : Prop where
  labels : ∀ l ∈ task.labels exit, (l, pushed) ∈ labels
  within : task.nodes ⊆ nodes

/-- The arguments of a call have been pushed, the last one first. -/
def Draft.Pushes (exit : Symbol) (nodes : List Expr) (es : List Expr) (bytes : Nat) (d : Draft)
    (pushed : List Push) (ahead : List Symbol) (levels : List Nat)
    (labels : List (Symbol × List Push)) : Prop :=
  ∃ own, d.Outlines exit nodes (own ++ pushed) ahead levels labels ∧ Push.total own = bytes ∧
    (Sized nodes → List.Forall₂ (Push.Carries d.codes (d.done.lookup ·)) es.reverse own)

/-- What has been reached once a part is complete. -/
def Task.Reaches (exit : Symbol) (nodes : List Expr) (d : Draft) (pushed : List Push)
    (ahead : List Symbol) (levels : List Nat) (labels : List (Symbol × List Push)) : Task → Prop
  | .compute e id => d.Outlines exit nodes pushed ahead levels labels ∧
      (Sized nodes → d.Holds id e.linearType)
  | .args es bytes => (Sized nodes → ∀ e ∈ es, e.linearType.size = e.ty.size) →
      d.Pushes exit nodes es bytes pushed ahead levels labels
  | _ => d.Outlines exit nodes pushed ahead levels labels

def Task.Builds (exit : Symbol) (nodes : List Expr) (task : Task) (d d' : Draft) : Prop :=
  ∀ ⦃pushed ahead levels labels⦄, d.Outlines exit nodes pushed ahead levels labels →
    task.Ready exit nodes pushed labels → task.Reaches exit nodes d' pushed ahead levels labels

theorem Expr.within_kid {e k : Expr} (within : e.nodes ⊆ nodes) (kid : k ∈ e.kids) :
    k.nodes ⊆ nodes := by
  rw [nodes_eq_cons, List.cons_subset] at within
  exact List.Subset.trans (nodes_sublist_of_mem_kids kid).subset within.2

theorem Expr.within_args {tag : NodeTag} {callee : Expr} {args : List Expr}
    (within : (Expr.call tag callee args).nodes ⊆ nodes) : allNodes args.reverse ⊆ nodes := by
  rw [Expr.nodes, List.cons_subset, List.append_subset] at within
  exact List.Subset.trans (allNodes_reverse_subset args) within.2.2

theorem Lowers.value_known {output : Option Symbol} {sharing : Bool} {e : Expr} {v : LinId}
    {d d' : Draft} (run : Lowers output sharing (.value e v) d d') :
    d'.done.lookup e.number = some v := by
  cases run with
  | reuse shared known => exact known
  | first unknown run => simp [settle]

namespace Draft

theorem holds_emit (d : Draft) (n : LinNode) : (d.emit n).Holds d.next n.ty :=
  ⟨n, by simp [emit, next], rfl⟩

theorem Outlines.holds {d : Draft} {pushed : List Push} {ahead : List Symbol} {levels : List Nat}
    {labels : List (Symbol × List Push)}
    (outlines : d.Outlines exit nodes pushed ahead levels labels) {e : Expr} {v : LinId}
    (within : e.nodes ⊆ nodes) (known : d.done.lookup e.number = some v) (sized : Sized nodes) :
    d.Holds v e.linearType :=
  outlines.noted sized e (within e.self_mem_nodes) v known

end Draft

namespace Task.Builds

variable {d d₁ : Draft} {pushed : List Push} {ahead : List Symbol} {levels : List Nat}
  {labels : List (Symbol × List Push)} {e : Expr}

theorem value {v : LinId} (builds : Builds exit nodes (.value e v) d d₁)
    (outlines : d.Outlines exit nodes pushed ahead levels labels) (within : e.nodes ⊆ nodes) :
    d₁.Outlines exit nodes pushed ahead levels labels := builds outlines ⟨nofun, within⟩

theorem effect (builds : Builds exit nodes (.effect e) d d₁)
    (outlines : d.Outlines exit nodes pushed ahead levels labels) (within : e.nodes ⊆ nodes) :
    d₁.Outlines exit nodes pushed ahead levels labels := builds outlines ⟨nofun, within⟩

theorem branch {t f : Option Symbol} (builds : Builds exit nodes (.branch e t f) d d₁)
    (outlines : d.Outlines exit nodes pushed ahead levels labels) (within : e.nodes ⊆ nodes)
    (made : ∀ l ∈ t.toList ++ f.toList, (l, pushed) ∈ labels) :
    d₁.Outlines exit nodes pushed ahead levels labels := builds outlines ⟨made, within⟩

theorem args {es : List Expr} {bytes : Nat} (builds : Builds exit nodes (.args es.reverse bytes) d d₁)
    (outlines : d.Outlines exit nodes pushed ahead levels labels) {tag : NodeTag} {callee : Expr}
    (within : (Expr.call tag callee es).nodes ⊆ nodes) :
    d₁.Pushes exit nodes es.reverse bytes pushed ahead levels labels := by
  have inside := within (Expr.self_mem_nodes _)
  refine builds outlines ⟨List.forall_mem_nil _, Expr.within_args within⟩ fun sized e arg => ?_
  exact sized.fits _ inside e (List.mem_reverse.mp arg)

end Task.Builds

theorem Task.Ready.part {task part : Task} {pushed : List Push}
    {labels labels' : List (Symbol × List Push)} (ready : task.Ready exit nodes pushed labels)
    (same : part.labels exit = task.labels exit) (within : part.nodes ⊆ nodes)
    (more : labels ⊆ labels') : part.Ready exit nodes pushed labels' :=
  ⟨fun l inside => more (ready.labels l (same ▸ inside)), within⟩

theorem Draft.Outlines.loop {d : Draft} {pushed : List Push} {ahead : List Symbol}
    {levels : List Nat} {labels : List (Symbol × List Push)}
    (outlines : d.Outlines exit nodes pushed ahead levels labels) {loops : List LoopLabels}
    {level : Nat} {c : Expr} {body : Stmt}
    (ready : Task.Ready exit nodes (.stmt loops level (.while c body)) pushed labels) :
    ((d.label.label.label.code (.jump d.label.fresh)).place d.fresh).Outlines exit nodes pushed
      (d.label.label.fresh :: d.label.fresh :: ahead) levels
      ((d.label.label.fresh, pushed) :: (d.label.fresh, pushed) :: (d.fresh, pushed) :: labels) ∧
    Task.Ready exit nodes (.stmt (⟨d.label.fresh, d.label.label.fresh⟩ :: loops) level body) pushed
      ((d.label.label.fresh, pushed) :: (d.label.fresh, pushed) :: (d.fresh, pushed) :: labels) := by
  refine ⟨(outlines.label.label.label.jump (by simp)).place [_, _] (by simp), ?_,
    (List.append_subset.mp ready.within).2⟩
  intro l inside
  simp only [Task.labels, List.flatMap_cons, List.mem_cons, List.mem_append, List.not_mem_nil,
    or_false] at inside
  rcases inside with rfl | (rfl | rfl) | outer
  · simp [ready.labels l List.mem_cons_self]
  · simp
  · simp
  · simp [ready.labels l (List.mem_cons_of_mem _ outer)]

theorem UnaryOp.arith?_ne_call {op : UnaryOp} {o : Op} (arith : op.arith? = some o) :
    o ≠ .call ∧ op ≠ .not := by
  cases op <;> cases arith <;> exact ⟨nofun, nofun⟩

theorem BinaryOp.arith?_ne_call {o : Op} (arith : op.arith? = some o) : o ≠ .call := by
  cases op <;> cases arith <;> nofun

theorem BinaryOp.arith?_of_cond? {cond : Cond} (relational : op.cond? = some cond) :
    op.arith? = none := by
  cases op <;> cases relational <;> rfl

theorem BinaryOp.arith?_of_isLogical (logical : op.isLogical = true) : op.arith? = none := by
  cases op <;> cases logical <;> rfl

theorem Lowers.builds {output : Option Symbol} {sharing : Bool} {task : Task} {d d' : Draft}
    (run : Lowers output sharing task d d') : task.Builds exit nodes d d' := by
  -- The labels that a construct makes are all placed at its end and are then forgotten, so that what
  -- is said about the code around it does not depend on them.
  induction run with
  | reuse =>
    intro pushed ahead levels labels outlines ready
    exact outlines
  | @first e id d d' unknown run ih =>
    intro pushed ahead levels labels outlines ready
    obtain ⟨outlines, holds⟩ := ih outlines ⟨List.forall_mem_nil _, ready.within⟩
    exact outlines.settle (ready.within e.self_mem_nodes) holds
      fun sized => run.compute_unknown sized.same ready.within unknown
  | const =>
    intro pushed ahead levels labels outlines ready
    exact ⟨outlines.emit (by simp), fun _ => holds_emit _ _⟩
  | addr =>
    intro pushed ahead levels labels outlines ready
    exact ⟨outlines.addr _, fun _ => holds_emit _ _⟩
  | deref _ ih =>
    intro pushed ahead levels labels outlines ready
    have outlines := ih.value outlines (Expr.within_kid ready.within List.mem_cons_self)
    exact ⟨outlines.emit (by simp), fun _ => holds_emit _ _⟩
  | unary arith _ ih =>
    intro pushed ahead levels labels outlines ready
    obtain ⟨other, arithmetic⟩ := UnaryOp.arith?_ne_call arith
    have outlines := ih.value outlines (Expr.within_kid ready.within List.mem_cons_self)
    refine ⟨outlines.emit other, fun _ => ?_⟩
    rw [Expr.linearType, if_neg arithmetic]
    exact holds_emit _ _
  | not _ ih =>
    intro pushed ahead levels labels outlines ready
    have outlines := ih.value outlines (Expr.within_kid ready.within List.mem_cons_self)
    exact ⟨(outlines.zero _).emit (by simp), fun _ => holds_emit _ _⟩
  | binary arith _ _ ih₁ ih₂ =>
    intro pushed ahead levels labels outlines ready
    have left := ih₁.value outlines (Expr.within_kid ready.within List.mem_cons_self)
    have right := ih₂.value left (Expr.within_kid ready.within (by simp [Expr.kids]))
    refine ⟨right.emit (BinaryOp.arith?_ne_call arith), fun _ => ?_⟩
    rw [Expr.linearType, arith]
    exact holds_emit _ _
  | relation relational _ _ ih₁ ih₂ =>
    intro pushed ahead levels labels outlines ready
    have left := ih₁.value outlines (Expr.within_kid ready.within List.mem_cons_self)
    have right := ih₂.value left (Expr.within_kid ready.within (by simp [Expr.kids]))
    refine ⟨right.emit (by simp), fun _ => ?_⟩
    rw [Expr.linearType, BinaryOp.arith?_of_cond? relational]
    exact holds_emit _ _
  | @truth tag op a b d d₁ d₂ d₃ d₄ logical declared _ yes no ih =>
    intro pushed ahead levels labels outlines ready
    subst declared yes no
    have jumps : d₂.Outlines exit nodes pushed _ levels _ := ih (outlines.temp .int).label.label
      ⟨List.forall_mem_singleton.mpr (by simp), ready.within⟩
    have yes := ((jumps.one.store d.fresh .int d₂.next).jump (l := (d.temp .int).label.fresh)
      (by simp)).place [_] (by simp)
    have no (v : LinId) := ((yes.zero .int).store d.fresh .int v).place [] (by simp)
    refine ⟨((no _).load d.fresh .int).forget (by simp), fun _ => ?_⟩
    rw [Expr.linearType, BinaryOp.arith?_of_isLogical logical]
    exact holds_emit _ _
  | @assign tag a v x y d d₁ d₂ wide _ value ih₁ ih₂ =>
    intro pushed ahead levels labels outlines ready
    have within := Expr.within_kid ready.within (k := v) (by simp [Expr.kids])
    have left := ih₁.value outlines (Expr.within_kid ready.within List.mem_cons_self)
    have right := ih₂.value left within
    refine ⟨right.emit (by simp), fun sized => ?_⟩
    rw [Expr.linearType, wide]
    exact (right.holds within value.value_known sized).grow (List.prefix_append _ _)
  | assignNarrow narrow _ _ stored ih₁ ih₂ =>
    intro pushed ahead levels labels outlines ready
    subst stored
    have left := ih₁.value outlines (Expr.within_kid ready.within List.mem_cons_self)
    have right := ih₂.value left (Expr.within_kid ready.within (by simp [Expr.kids]))
    refine ⟨(right.assign _ _ _).emit (by simp), fun _ => ?_⟩
    rw [Expr.linearType, narrow]
    exact holds_emit _ _
  | condVoid void _ ih =>
    intro pushed ahead levels labels outlines ready
    have arms : Draft.Outlines exit nodes _ pushed ahead levels labels := ih outlines
      ⟨List.forall_mem_nil _, (List.cons_subset.mp ready.within).2⟩
    refine ⟨arms.zero .int, fun _ => ?_⟩
    rw [Expr.linearType, if_pos void]
    exact holds_emit _ _
  | @cond tag c a b v w d d₁ d₂ d₃ d₄ d₅ d₆ valued declared _ _ yes _ no ih₁ ih₂ ih₃ =>
    intro pushed ahead levels labels outlines ready
    subst declared yes no
    have test := ih₁.branch (outlines.temp tag.ty).label.label
      (Expr.within_kid ready.within List.mem_cons_self) (List.forall_mem_singleton.mpr (by simp))
    have arm := ih₂.value test (Expr.within_kid ready.within (by simp [Expr.kids]))
    have yes := ((arm.store d.fresh tag.ty v).jump (l := (d.temp tag.ty).label.fresh)
      (by simp)).place [_] (by simp)
    have other := ih₃.value yes (Expr.within_kid ready.within (by simp [Expr.kids]))
    have no := (other.store d.fresh tag.ty w).place [] (by simp)
    refine ⟨(no.load d.fresh tag.ty).forget (by simp), fun _ => ?_⟩
    rw [Expr.linearType, if_neg valued]
    exact holds_emit _ _
  | @call tag callee args f bytes d d₁ d₂ scalar pushes target ih₁ ih₂ =>
    intro pushed ahead levels labels outlines ready
    -- What the arguments have pushed is still on top when the callee has been evaluated.
    obtain ⟨own, outlines, total, carried⟩ := ih₁.args outlines ready.within
    have outlines := ih₂.value outlines (Expr.within_kid ready.within List.mem_cons_self)
    refine ⟨outlines.call own (ready.within (Expr.self_mem_nodes _))
      ⟨⟨f, rfl, target.value_known⟩, by simp [scalar]⟩ (by simp [total]) (fun sized => ⟨[], own, rfl, ?_, by simp [scalar]⟩) rfl, fun _ => holds_emit _ _⟩
    have carried := carried sized
    rw [List.reverse_reverse] at carried
    exact carried.imp fun _ _ carries => carries.grow target.grows.codes fun _ _ => target.stable
  | @callStruct tag callee args f bytes d d₁ d₂ d₃ d₄ struct declared pushes target called ih₁ ih₂ =>
    intro pushed ahead levels labels outlines ready
    subst declared called
    obtain ⟨own, outlines, total, carried⟩ := ih₁.args (outlines.temp tag.ty) ready.within
    -- The address of the temporary is pushed after the arguments, so the call takes it off first.
    have address := (outlines.addr d.fresh).arg d₂.next
      (roundToSlot CType.pointer.size) fun _ =>
        ⟨{ op := .addr, ty := .pointer, sym := some d.fresh }, by simp [Draft.addr, emit, next], rfl⟩
    have outlines := ih₂.value address (Expr.within_kid ready.within List.mem_cons_self)
    refine ⟨(Outlines.call (_ :: own) outlines (ready.within (Expr.self_mem_nodes _))
      ⟨⟨f, rfl, target.value_known⟩, by simp [struct]⟩ (by simp [Push.total, ← total, Nat.add_comm]) (fun sized => ⟨[_], own, rfl, ?_, ?_⟩) rfl).load
        d.fresh tag.ty, fun _ => holds_emit _ _⟩
    · have carried := carried sized
      rw [List.reverse_reverse] at carried
      have grown := ((Grows.refl d₂).addr d.fresh |>.code (.arg d₂.next)).trans target.grows
      exact carried.imp fun _ _ carries => carries.grow grown.codes fun _ _ => target.stable
    · rw [if_pos struct]
      refine ⟨_, d₂.next, d.fresh, rfl, getElem?_of_grown target.grows.codes ?_,
        getElem?_of_grown target.grows.nodes ?_⟩
      · simp [code]
      · simp [code, Draft.addr, emit, next]
  | @castKeep tag x v d d₁ same run ih =>
    intro pushed ahead levels labels outlines ready
    have within := Expr.within_kid ready.within (k := x) List.mem_cons_self
    have outlines := ih.value outlines within
    refine ⟨outlines, fun sized => ?_⟩
    rw [Expr.linearType, if_pos same]
    exact outlines.holds within run.value_known sized
  | cast differs _ ih =>
    intro pushed ahead levels labels outlines ready
    have outlines := ih.value outlines (Expr.within_kid ready.within List.mem_cons_self)
    refine ⟨outlines.emit (by simp), fun _ => ?_⟩
    rw [Expr.linearType, if_neg differs]
    exact holds_emit _ _
  | @comma tag a b v d d₁ d₂ _ second ih₁ ih₂ =>
    intro pushed ahead levels labels outlines ready
    have within := Expr.within_kid ready.within (k := b) (by simp [Expr.kids])
    have first := ih₁.effect outlines (Expr.within_kid ready.within List.mem_cons_self)
    have outlines := ih₂.value first within
    refine ⟨outlines, fun sized => ?_⟩
    rw [Expr.linearType]
    exact outlines.holds within second.value_known sized
  | effectValue _ _ ih =>
    intro pushed ahead levels labels outlines ready
    exact ih.value outlines ready.within
  | effectKnown =>
    intro pushed ahead levels labels outlines ready
    exact outlines
  | effectAnd _ _ _ ih₁ ih₂ | effectOr _ _ _ ih₁ ih₂ =>
    intro pushed ahead levels labels outlines ready
    have first := ih₁.branch outlines.label (Expr.within_kid ready.within List.mem_cons_self)
      (List.forall_mem_singleton.mpr (by simp))
    have second := ih₂.effect first (Expr.within_kid ready.within (by simp [Expr.kids]))
    exact (second.place [] (by simp)).forget (by simp)
  | effectCond _ _ ih =>
    intro pushed ahead levels labels outlines ready
    exact ih outlines ⟨List.forall_mem_nil _, (List.cons_subset.mp ready.within).2⟩
  | effectComma _ _ ih₁ ih₂ =>
    intro pushed ahead levels labels outlines ready
    have first := ih₁.effect outlines (Expr.within_kid ready.within List.mem_cons_self)
    exact ih₂.effect first (Expr.within_kid ready.within (by simp [Expr.kids]))
  | @choose c a b d d₁ d₂ d₃ _ _ _ ih₁ ih₂ ih₃ =>
    intro pushed ahead levels labels outlines ready
    obtain ⟨test, within⟩ := List.append_subset.mp ready.within
    obtain ⟨arm, other⟩ := List.append_subset.mp within
    have tested := ih₁.branch outlines.label.label test (List.forall_mem_singleton.mpr (by simp))
    have yes := ((ih₂.effect tested arm).jump (l := d.label.fresh) (by simp)).place [_] (by simp)
    exact ((ih₃.effect yes other).place [] (by simp)).forget (by simp)
  | branchKnown =>
    intro pushed ahead levels labels outlines ready
    exact outlines.test _ _ ready.labels
  | branch _ _ _ ih =>
    intro pushed ahead levels labels outlines ready
    exact ih outlines ⟨ready.labels, ready.within⟩
  | jumpConst =>
    intro pushed ahead levels labels outlines ready
    refine outlines.jumpTo fun k inside => ready.labels k ?_
    split at inside
    · exact List.mem_append_left _ inside
    · exact List.mem_append_right _ inside
  | jumpNot _ ih =>
    intro pushed ahead levels labels outlines ready
    refine ih.branch outlines (Expr.within_kid ready.within List.mem_cons_self) fun l inside => ?_
    exact ready.labels l (List.perm_append_comm.mem_iff.mp inside)
  | jumpRelation _ _ _ _ ih₁ ih₂ =>
    intro pushed ahead levels labels outlines ready
    have left := ih₁.value outlines (Expr.within_kid ready.within List.mem_cons_self)
    have right := ih₂.value left (Expr.within_kid ready.within (by simp [Expr.kids]))
    exact right.compare _ _ _ ready.labels
  | @jumpAnd tag a b t f d d₁ d₂ _ _ ih₁ ih₂ =>
    intro pushed ahead levels labels outlines ready
    have first := ih₁.branch outlines (Expr.within_kid ready.within List.mem_cons_self)
      (List.forall_mem_singleton.mpr (ready.labels f (List.mem_append_right _ List.mem_cons_self)))
    exact ih₂.branch first (Expr.within_kid ready.within (by simp [Expr.kids])) ready.labels
  | @jumpOr tag a b t f d d₁ d₂ _ _ ih₁ ih₂ =>
    intro pushed ahead levels labels outlines ready
    have first := ih₁.branch outlines (Expr.within_kid ready.within List.mem_cons_self)
      (List.forall_mem_singleton.mpr (ready.labels t (List.mem_append_left _ List.mem_cons_self)))
    exact ih₂.branch first (Expr.within_kid ready.within (by simp [Expr.kids])) ready.labels
  | jumpAndOpen _ _ ih₁ ih₂ | jumpOrOpen _ _ ih₁ ih₂ =>
    intro pushed ahead levels labels outlines ready
    have first := ih₁.branch outlines.label (Expr.within_kid ready.within List.mem_cons_self)
      (List.forall_mem_singleton.mpr (by simp))
    have second := ih₂.branch first (Expr.within_kid ready.within (by simp [Expr.kids]))
      fun l inside => List.mem_cons_of_mem _ (ready.labels l inside)
    exact (second.place [] (by simp)).forget (by simp)
  | jumpComma _ _ ih₁ ih₂ =>
    intro pushed ahead levels labels outlines ready
    have first := ih₁.effect outlines (Expr.within_kid ready.within List.mem_cons_self)
    exact ih₂.branch first (Expr.within_kid ready.within (by simp [Expr.kids])) ready.labels
  | jumpValue _ _ _ ih =>
    intro pushed ahead levels labels outlines ready
    exact (ih.value outlines ready.within).test _ _ ready.labels
  | argsNil =>
    intro pushed ahead levels labels outlines ready _
    exact ⟨[], outlines, rfl, fun _ => .nil⟩
  | @argsCons e es v bytes d d₁ d₂ head rest ih₁ ih₂ =>
    intro pushed ahead levels labels outlines ready fits
    obtain ⟨here, below⟩ := List.append_subset.mp ready.within
    have outlines := ih₁.value outlines here
    have argument := outlines.arg v (roundToSlot e.ty.size) fun sized => by
      obtain ⟨n, found, ty⟩ := outlines.holds here head.value_known sized
      exact ⟨n, found, by rw [ty, fits sized e List.mem_cons_self]⟩
    obtain ⟨own, outlines, total, carried⟩ := ih₂ argument ⟨List.forall_mem_nil _, below⟩
      fun sized e inside => fits sized e (List.mem_cons_of_mem _ inside)
    refine ⟨own ++ [⟨d₁.codes.length, roundToSlot e.ty.size⟩], ?_, ?_, fun sized => ?_⟩
    · rw [List.append_assoc]
      exact outlines
    · rw [Push.total_append, total, Nat.add_comm]
      rfl
    · rw [List.reverse_cons]
      refine List.rel_append (carried sized) (.cons ⟨v, ?_, ?_, rfl⟩ .nil)
      · exact getElem?_of_grown rest.grows.codes (by simp [code])
      · exact rest.stable head.value_known
  | declsNil =>
    intro pushed ahead levels labels outlines ready
    exact outlines
  | declsPlain declared _ ih =>
    intro pushed ahead levels labels outlines ready
    subst declared
    exact ih (outlines.declare _ _) ⟨List.forall_mem_nil _, (List.append_subset.mp ready.within).2⟩
  | declsInit declared _ _ ih₁ ih₂ =>
    intro pushed ahead levels labels outlines ready
    subst declared
    obtain ⟨here, below⟩ := List.append_subset.mp ready.within
    exact ih₂ ((ih₁.value (outlines.declare _ _) here).store _ _ _) ⟨List.forall_mem_nil _, below⟩
  | expr _ ih =>
    intro pushed ahead levels labels outlines ready
    exact ih.effect outlines ready.within
  | «when» _ _ ih₁ ih₂ =>
    intro pushed ahead levels labels outlines ready
    obtain ⟨test, body⟩ := List.append_subset.mp ready.within
    have tested := ih₁.branch outlines.label test (List.forall_mem_singleton.mpr (by simp))
    have run : Draft.Outlines exit nodes _ pushed _ levels _ :=
      ih₂ tested (ready.part rfl body (by simp))
    exact (run.place [] (by simp)).forget (by simp)
  | @ifElse loops level c a b d d₁ d₂ d₃ _ _ _ ih₁ ih₂ ih₃ =>
    intro pushed ahead levels labels outlines ready
    obtain ⟨test, within⟩ := List.append_subset.mp ready.within
    obtain ⟨arm, other⟩ := List.append_subset.mp within
    have tested := ih₁.branch outlines.label.label test (List.forall_mem_singleton.mpr (by simp))
    have first : d₂.Outlines exit nodes pushed _ levels _ :=
      ih₂ tested (ready.part rfl arm (by simp))
    have second : d₃.Outlines exit nodes pushed _ levels _ :=
      ih₃ ((first.jump (l := d.label.fresh) (by simp)).place [_] (by simp))
        (ready.part rfl other (by simp))
    exact (second.place [] (by simp)).forget (by simp)
  | @«while» loops level c body d d₁ d₂ d₃ labelled _ _ ih₁ ih₂ =>
    intro pushed ahead levels labels outlines ready
    subst labelled
    obtain ⟨test, inner⟩ := List.append_subset.mp ready.within
    obtain ⟨start, inside⟩ := outlines.loop ready
    have looped : d₂.Outlines exit nodes pushed _ levels _ := ih₁ start inside
    have tested := ih₂.branch (looped.place [_] (by simp)) test
      (List.forall_mem_singleton.mpr (by simp))
    exact (tested.place [] (by simp)).forget fun x known => by simp [known]
  | @block loops level decls body d d₁ d₂ _ _ ih₁ ih₂ =>
    intro pushed ahead levels labels outlines ready
    obtain ⟨heads, body⟩ := List.append_subset.mp ready.within
    have opened := outlines.code (c := .blockEnter (level + 1)) rfl rfl rfl (by simp [Code.target?])
    have declared : Draft.Outlines exit nodes _ pushed _ _ _ := ih₁ opened ⟨List.forall_mem_nil _, heads⟩
    have run : Draft.Outlines exit nodes _ pushed _ _ _ := ih₂ declared ⟨ready.labels, body⟩
    exact run.code rfl rfl (by simp [Code.nest]) (by simp [Code.target?])
  | retNone =>
    intro pushed ahead levels labels outlines ready
    exact outlines.ret none (ready.labels _ List.mem_cons_self)
  | ret _ _ ih =>
    intro pushed ahead levels labels outlines ready
    exact (ih.value outlines ready.within).ret _ (ready.labels _ List.mem_cons_self)
  | @retStruct loops level e v out d d₁ d₂ _ _ _ pointer ih =>
    intro pushed ahead levels labels outlines ready
    subst pointer
    have address := (ih.value outlines ready.within).load out .pointer
    exact (address.assign _ _ _).ret none (ready.labels _ List.mem_cons_self)
  | @«break» here loops level d =>
    intro pushed ahead levels labels outlines ready
    exact outlines.jump (ready.labels here.done (by simp [Task.labels]))
  | @«continue» here loops level d =>
    intro pushed ahead levels labels outlines ready
    exact outlines.jump (ready.labels here.next (by simp [Task.labels]))
  | stmtsNil =>
    intro pushed ahead levels labels outlines ready
    exact outlines
  | stmtsCons _ _ ih₁ ih₂ =>
    intro pushed ahead levels labels outlines ready
    obtain ⟨here, below⟩ := List.append_subset.mp ready.within
    exact ih₂ (ih₁ outlines ⟨ready.labels, here⟩) ⟨ready.labels, below⟩

theorem Draft.outlines_empty (exit : Symbol) (nodes : List Expr) (symbols : SymbolTable) :
    Outlines exit nodes { symbols } [] [] [] [] := by
  refine ⟨[], List.Subset.refl _, rfl, rfl, ?_, fun _ => ?_⟩
  · exact ⟨nofun, List.nodup_nil, nofun, List.nodup_nil, by simp, List.nodup_nil, nofun⟩
  · exact ⟨nofun, nofun, rfl, by simp, by simp, by simp⟩

theorem FunctionDef.lower_outlined {d : FunctionDef} {t t' : SymbolTable} {f : LinearFunction}
    (ok : d.lower t = .ok f t') : ∃ body made, Lowers d.output true (.stmt [] 0 d.body) (opening t) body ∧
      Outlines f.exit d.body.nodes (opening t) [] [f.exit] [] [(f.exit, [])] ∧
      Outlined f.exit d.body.nodes ((body.place f.exit).code .frameExit) [] made [] [] ∧
      f.codes.toList = ((body.place f.exit).code .frameExit).codes ∧ f.nodes.toList = body.nodes := by
  obtain ⟨body, run, rfl, rfl⟩ := FunctionDef.lower_follows ok
  have start := (outlines_empty ⟨t.size⟩ d.body.nodes t.nextPass.2).label.code (c := .frameEnter)
    rfl rfl rfl nofun
  have whole : body.Outlines ⟨t.size⟩ d.body.nodes [] _ [] _ := run.builds start
    ⟨List.forall_mem_singleton.mpr List.mem_cons_self, List.Subset.refl _⟩
  have closed := (whole.place [] List.mem_cons_self).code (c := .frameExit) rfl rfl rfl nofun
  obtain ⟨made, -, outlined⟩ := closed
  exact ⟨body, made, run, start, outlined, by simp [code, Draft.place], by simp⟩

end CBackend
