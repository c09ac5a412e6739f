import Mathlib.Data.List.Dedup
import CBackend.Proofs.Closure
import CBackend.Proofs.Lowering.Effects

/-!
Side effects are emitted once. However the nodes of a function are shared, its linear code evaluates
each call and each assignment of the tree at one position, and if no block is pruned its compiled
code has one call instruction for each call of the tree, in the order of their evaluation.
-/

namespace CBackend

def Expr.isCall : Expr → Bool
  | .call .. => true
  | _ => false

def Expr.isAssign : Expr → Bool
  | .assign .. => true
  | _ => false

/-- The numbers of the nodes of a kind, each once. -/
def FunctionDef.distinct (d : FunctionDef) (kind : Expr → Bool) : List Nat :=
  ((d.body.nodes.filter kind).map Expr.number).dedup

/-- Where every operator of linear code comes from: calls and assignments of the tree have one
operator each, and the other stores are those that statements ask for and two for each temporary. -/
structure FunctionDef.Accounts (d : FunctionDef) (t : SymbolTable) (f : LinearFunction)
    (origins : List Origin) : Prop where
  evaluated : f.codes.toList.filterMap Code.lin? = (List.range f.nodes.size).map LinId.mk
  stems : ∃ done, List.Forall₂ (LinNode.Stems done f.nodes.toList) f.nodes.toList origins
  distinct : ((origins.filterMap Origin.node?).map Expr.number).Nodup
  effects : ∀ e, e ∈ origins.filterMap Origin.node? ↔ e ∈ d.body.nodes ∧ e.isEffect = true
  stores : origins.filter Origin.isStore = d.body.stores d.output
  temporaries : ∃ temps : List Symbol, temps.Nodup ∧ (∀ s ∈ temps, t.size ≤ s.index) ∧
    (origins.filterMap Origin.temporary?).Perm (temps ++ temps)

private theorem forall₂_mem_right {α β : Type} {R : α → β → Prop} {xs : List α} {ys : List β}
    (all : List.Forall₂ R xs ys) {b : β} (inside : b ∈ ys) : ∃ a, R a b := by
  induction all with
  | nil => cases inside
  | cons here _ ih =>
    rcases List.mem_cons.mp inside with rfl | later
    · exact ⟨_, here⟩
    · exact ih later

theorem LinNode.Stems.isEffect {done : List (Nat × LinId)} {nodes : List LinNode} {n : LinNode}
    {e : Expr} (stems : n.Stems done nodes (.node e)) : e.isEffect = true := by
  cases e with
  | call | assign => rfl
  | _ => cases stems

theorem FunctionDef.lower_accounts {d : FunctionDef} {t t' : SymbolTable} {f : LinearFunction}
    (lowered : d.lower t = .ok f t') (numbered : d.NodesNumbered) :
    ∃ origins, d.Accounts t f origins := by
  obtain ⟨body, made, run, -, outlined, codes, operators⟩ := lower_outlined lowered
  have start : (Draft.opening t).Traced d.body.nodes [] := by
    have unmet (e : Expr) : ¬(Draft.opening t).Met e := nofun
    exact ⟨.nil, nofun, List.nodup_nil, fun e _ _ => iff_of_false (unmet e) nofun,
      fun e _ known => absurd known (unmet e)⟩
  have traces : Draft.Traces d.body.nodes d.body.nodes (d.body.stores d.output) []
      (Draft.opening t) body := run.traces numbered (List.Subset.refl _)
  obtain ⟨origins, temps, traced, met, asked, apart, range, count⟩ := traces.trace start
  rw [List.nil_append] at traced
  have size : f.nodes.size = body.nodes.length := by rw [← operators, Array.length_toList]
  refine ⟨origins, ?_, ⟨body.done, operators ▸ traced.stems⟩, ?_, fun e => ⟨fun listed => ?_, ?_⟩,
    asked, temps, apart, fun s inside => ?_, List.perm_iff_count.mpr fun s => ?_⟩
  · rw [codes, size]
    exact outlined.numbered
  -- A number names one node, so origins of different nodes have different numbers.
  · refine traced.distinct.map_on fun a first b second same => ?_
    exact numbered a (traced.within a first) b (traced.within b second) same
  · refine ⟨traced.within e listed, ?_⟩
    obtain ⟨o, inside, known⟩ := List.mem_filterMap.mp listed
    obtain ⟨n, stems⟩ := forall₂_mem_right traced.stems inside
    cases o <;> cases known
    exact stems.isEffect
  · exact fun ⟨inside, effect⟩ => (traced.met e inside effect).mp (met e inside effect)
  · have later := (range s inside).1
    have declared : (Draft.opening t).symbols.size = t.size + 1 := SymbolTable.size_push _ _ _ _
    omega
  · rw [count, List.count_nil, List.count_append]
    omega

def Origin.op? : Origin → Option Op
  | .node (.call ..) => some .call
  | .node (.assign ..) | .temporary _ | .initial _ | .result _ => some .assign
  | _ => none

theorem LinNode.Stems.op {done : List (Nat × LinId)} {nodes : List LinNode} {n : LinNode}
    {o : Origin} (stems : n.Stems done nodes o) {op : Op} (effect : op = .call ∨ op = .assign) :
    n.op = op ↔ o.op? = some op := by
  match o with
  | .node (.call ..) | .node (.assign ..) | .temporary _ | .initial _ | .result _ =>
    rw [stems.1, Origin.op?, Option.some_inj]
  | .plain => rcases effect with rfl | rfl <;> simp [stems.1, stems.2, Origin.op?]
  | .node (.const ..) | .node (.addr ..) | .node (.deref ..) | .node (.unary ..)
  | .node (.binary ..) | .node (.cond ..) | .node (.cast ..) | .node (.comma ..) => cases stems

theorem Origin.countP_call (origins : List Origin) :
    (origins.countP fun o => o.op? = some .call) =
      (origins.filterMap Origin.node?).countP Expr.isCall := by
  rw [List.countP_filterMap]
  refine List.countP_congr fun o _ => ?_
  cases o with
  | node e => cases e <;> simp [Origin.op?, Origin.node?, Expr.isCall]
  | _ => simp [Origin.op?, Origin.node?]

theorem Origin.countP_assign (origins : List Origin) :
    (origins.countP fun o => o.op? = some .assign) =
      (origins.filterMap Origin.node?).countP Expr.isAssign +
        (origins.filter Origin.isStore).length + (origins.filterMap Origin.temporary?).length := by
  induction origins with
  | nil => rfl
  | cons o origins ih =>
    rw [List.countP_cons, ih, List.filterMap_cons, List.filter_cons, List.filterMap_cons]
    cases o with
    | node e =>
      cases e with
      | assign => simp [op?, node?, isStore, temporary?, List.countP_cons, Expr.isAssign]; omega
      | _ => simp [op?, node?, isStore, temporary?, Expr.isAssign]
    | plain => simp [op?, node?, isStore, temporary?]
    | _ => simp [op?, node?, isStore, temporary?]; omega

namespace LinearFunction

def evaluates (f : LinearFunction) (op : Op) (pos : Nat) : Bool :=
  match f.codes.getD pos default with
  | .eval lin => (f.node lin).op = op
  | _ => false

/-- The positions at which the operator is evaluated, in order. -/
def evals (f : LinearFunction) (op : Op) : List Nat :=
  (List.range f.codes.size).filter (f.evaluates op)

/-- The code at the position evaluates what the node asks for. -/
def EvaluatesNode (f : LinearFunction) (origins : List Origin) (e : Expr) (pos : Nat) : Prop :=
  ∃ lin, f.codes[pos]? = some (.eval lin) ∧ origins[lin.index]? = some (.node e)

theorem length_evals {f : LinearFunction} (op : Op)
    (evaluated : f.codes.toList.filterMap Code.lin? = (List.range f.nodes.size).map LinId.mk) :
    (f.evals op).length = f.nodes.toList.countP fun n => n.op = op := by
  calc (f.evals op).length
      = ((List.range f.codes.size).map fun pos => f.codes.getD pos default).countP fun c =>
          (c.lin?.map fun lin => decide ((f.node lin).op = op)).getD false := by
        rw [evals, ← List.countP_eq_length_filter, List.countP_map]
        refine List.countP_congr fun pos _ => ?_
        rw [evaluates, Function.comp_apply]
        cases f.codes.getD pos default <;> simp [Code.lin?]
    _ = (f.codes.toList.filterMap Code.lin?).countP fun lin => (f.node lin).op = op := by
        rw [map_range_getD, List.countP_filterMap]
    _ = ((List.range f.nodes.size).map fun i => f.nodes.getD i default).countP fun n => n.op = op := by
        rw [evaluated, List.countP_map, List.countP_map]
        rfl
    _ = f.nodes.toList.countP fun n => n.op = op := by rw [map_range_getD]

end LinearFunction

namespace FunctionDef.Accounts

variable {d : FunctionDef} {t : SymbolTable} {f : LinearFunction} {origins : List Origin}

theorem countP_node (accounts : d.Accounts t f origins) {kind : Expr → Bool}
    (effect : ∀ e, kind e = true → e.isEffect = true) :
    (origins.filterMap Origin.node?).countP kind = (d.distinct kind).length := by
  have once : (((origins.filterMap Origin.node?).filter kind).map Expr.number).Nodup :=
    accounts.distinct.sublist (List.filter_sublist.map _)
  have same : (((origins.filterMap Origin.node?).filter kind).map Expr.number).Perm
      (d.distinct kind) := by
    refine (List.perm_ext_iff_of_nodup once (List.nodup_dedup _)).mpr fun k => ?_
    rw [List.mem_dedup, List.mem_map, List.mem_map]
    refine exists_congr fun e => and_congr_left fun _ => ?_
    rw [List.mem_filter, List.mem_filter, accounts.effects e]
    exact and_congr_left fun is => and_iff_left (effect e is)
  rw [← same.length_eq, List.length_map, List.countP_eq_length_filter]

theorem length_evals (accounts : d.Accounts t f origins) {op : Op}
    (effect : op = .call ∨ op = .assign) :
    (f.evals op).length = origins.countP fun o => o.op? = some op := by
  obtain ⟨done, stems⟩ := accounts.stems
  have same : f.nodes.toList.map (fun n => decide (n.op = op)) =
      origins.map fun o => decide (o.op? = some op) := by
    rw [← List.forall₂_eq_eq_eq, List.forall₂_map_left_iff, List.forall₂_map_right_iff]
    exact stems.imp fun _ _ stems => decide_eq_decide.mpr (stems.op effect)
  have count := congrArg (List.countP id) same
  rw [List.countP_map, List.countP_map] at count
  rw [f.length_evals op accounts.evaluated]
  exact count

theorem existsUnique_evaluates (accounts : d.Accounts t f origins) {e : Expr}
    (inside : e ∈ d.body.nodes) (effect : e.isEffect = true) :
    ∃! pos, f.EvaluatesNode origins e pos := by
  obtain ⟨o, listed, known⟩ :=
    List.mem_filterMap.mp ((accounts.effects e).mpr ⟨inside, effect⟩)
  cases o <;> cases known
  obtain ⟨i, found⟩ := List.mem_iff_getElem?.mp listed
  have below : i < f.nodes.size := by
    obtain ⟨done, stems⟩ := accounts.stems
    rw [← Array.length_toList, stems.length_eq]
    exact (List.getElem?_eq_some_iff.mp found).1
  obtain ⟨c, coded, reads⟩ : ∃ c ∈ f.codes.toList, c.lin? = some ⟨i⟩ := by
    rw [← List.mem_filterMap, accounts.evaluated]
    exact List.mem_map.mpr ⟨i, List.mem_range.mpr below, rfl⟩
  cases c <;> cases reads
  obtain ⟨pos, placed⟩ := List.mem_iff_getElem?.mp coded
  refine ⟨pos, ⟨⟨i⟩, by rwa [← Array.getElem?_toList], found⟩, ?_⟩
  rintro pos' ⟨⟨j⟩, placed', found'⟩
  have same : j = i := Ledger.index_unique (accounts.distinct.of_map _) found' found rfl rfl
  subst j
  have once : (f.codes.toList.filterMap Code.lin?).Nodup := by
    rw [accounts.evaluated]
    exact List.nodup_range.map fun _ _ => LinId.mk.inj
  rw [← Array.getElem?_toList] at placed'
  exact Ledger.index_unique once placed' placed rfl rfl

end FunctionDef.Accounts

/-- Instructions that call, by a name or through a pointer. -/
def Instr.isCall (i : Instr) : Bool := i.op = .call ∨ i.op = .callind

theorem Instr.mark?_eq_call (i : Instr) : i.mark? = some .call ↔ i.isCall = true := by
  unfold mark? isCall
  cases i.op <;> simp

def Mark.call? (s : Mark × Nat) : Option Nat := if s.1 = .call then some s.2 else none

theorem Instr.call?_stamp (i : Instr) :
    i.stamp?.bind Mark.call? = if i.isCall then some i.seq else none := by
  by_cases calls : i.isCall = true
  · rw [if_pos calls, stamp?, i.mark?_eq_call.mpr calls]
    rfl
  · rw [if_neg calls, stamp?]
    rw [← mark?_eq_call] at calls
    cases marked : i.mark? with
    | none => rfl
    | some m => exact if_neg fun is => calls (marked.trans (congrArg some is))

theorem LinearFunction.call?_marks (f : LinearFunction) (pos : Nat) :
    ((f.marksAt pos).map fun m => (m, pos)).filterMap Mark.call? =
      if f.evaluates .call pos then [pos] else [] := by
  unfold marksAt evaluates
  cases f.codes.getD pos default with
  | eval lin => by_cases calls : (f.node lin).op = .call <;> simp [marksOf, calls, Mark.call?]
  | ret =>
    by_cases last : f.codes[pos + 1]? = some (.label f.exit) <;> simp [marksOf, last, Mark.call?]
  | _ => simp [marksOf, Mark.call?]

theorem LinearFunction.Spells.calls {f : LinearFunction} {graph : FlowGraph} {c : CompiledFunction}
    (spells : f.Spells graph c) (all : graph.visited = List.range f.codes.size) :
    (c.instrs.filter Instr.isCall).map Instr.seq = f.evals .call := by
  calc (c.instrs.filter Instr.isCall).map Instr.seq
      = (c.instrs.filterMap Instr.stamp?).filterMap Mark.call? := by
        rw [List.filterMap_filterMap]
        simp only [Instr.call?_stamp]
        induction c.instrs with
        | nil => rfl
        | cons i rest ih => cases calls : i.isCall <;> simp [calls, ih]
    _ = (List.range f.codes.size).flatMap fun pos => if f.evaluates .call pos then [pos] else [] := by
        rw [spells.stamps, all, List.filterMap_flatMap]
        simp only [call?_marks]
    _ = f.evals .call := by
        unfold evals
        induction List.range f.codes.size with
        | nil => rfl
        | cons pos rest ih => cases calls : f.evaluates .call pos <;> simp [calls, ih]

/-- However nodes are shared, calls and assignments take effect once: linear code evaluates each of
them in one place, evaluates no other call, and assigns otherwise only for temporaries, initial values
and struct results; and code compiled from it without pruning calls where linear code does. -/
theorem FunctionDef.effects_once {d : FunctionDef} {t t' : SymbolTable} {f : LinearFunction}
    (lowered : d.lower t = .ok f t') (numbered : d.NodesNumbered) :
    ∃ origins, d.Accounts t f origins ∧
      (∀ e ∈ d.body.nodes, e.isEffect = true → ∃! pos, f.EvaluatesNode origins e pos) ∧
      (f.evals .call).length = (d.distinct Expr.isCall).length ∧
      (f.evals .assign).length = (d.distinct Expr.isAssign).length +
        (d.body.stores d.output).length + (origins.filterMap Origin.temporary?).length ∧
      ∀ g c g', g.options.prune = false → f.compile g = .ok c g' →
        (c.instrs.filter Instr.isCall).map Instr.seq = f.evals .call := by
  obtain ⟨origins, accounts⟩ := lower_accounts lowered numbered
  refine ⟨origins, accounts, fun e => accounts.existsUnique_evaluates, ?_, ?_, ?_⟩
  · rw [accounts.length_evals (.inl rfl), Origin.countP_call, accounts.countP_node]
    intro e call
    cases e <;> cases call
    rfl
  · rw [accounts.length_evals (.inr rfl), Origin.countP_assign, accounts.countP_node,
      accounts.stores]
    intro e assign
    cases e <;> cases assign
    rfl
  · intro g c g' unpruned ok
    obtain ⟨graph, spells, visited⟩ := ((lower_shaped lowered).compile g).ok ok
    exact spells.calls (visited unpruned)

/-- A call that is a condition, an effect and a value, and an assignment that is both of the latter:
`if (g()) g(); else a = g(); return g() ? a = g() : g();`, with one node for each. -/
def FunctionDef.sharedCall : FunctionDef where
  name := ⟨0⟩
  ret := .int
  params := [⟨1⟩]
  output := none
  body := .block []
    [.ifElse call (.expr call) (.expr store), .ret (some (.cond ⟨4, .int⟩ call store call))]
where
  call : Expr := .call ⟨1, .int⟩ (.addr ⟨0, .pointer⟩ ⟨2⟩) []
  store : Expr := .assign ⟨3, .int⟩ (.addr ⟨2, .pointer⟩ ⟨1⟩) call

def SymbolTable.sharedCall : SymbolTable where
  entries := #[⟨"f", .function, .int, none⟩, ⟨"a", .param, .int, none⟩,
    ⟨"g", .function, .int, none⟩]

theorem FunctionDef.sharedCall_numbered : sharedCall.NodesNumbered := by
  let table : Nat → Expr
    | 0 => .addr ⟨0, .pointer⟩ ⟨2⟩
    | 1 => sharedCall.call
    | 2 => .addr ⟨2, .pointer⟩ ⟨1⟩
    | 3 => sharedCall.store
    | _ => .cond ⟨4, .int⟩ sharedCall.call sharedCall.store sharedCall.call
  refine .of_table table ?_
  simp [sharedCall, sharedCall.call, sharedCall.store, Stmt.nodes, Stmt.allNodes, Expr.nodes,
    Expr.allNodes, table, Expr.number, Expr.tag]

theorem FunctionDef.sharedCall_once : ∃ f t' c g', sharedCall.lower .sharedCall = .ok f t' ∧
    f.compile (.init { prune := false } t') = .ok c g' ∧
    (f.evals .call).length = 1 ∧ (c.instrs.filter Instr.isCall).map Instr.seq = f.evals .call := by
  have compiled : (sharedCall.compiled? { prune := false } .sharedCall).isSome = true := by
    decide +kernel
  obtain ⟨c, ran⟩ := Option.isSome_iff_exists.mp compiled
  obtain ⟨f, t', g', lowered, ok⟩ := exists_of_compiled? ran
  obtain ⟨origins, -, -, calls, -, order⟩ := effects_once lowered sharedCall_numbered
  exact ⟨f, t', c, g', lowered, ok, calls, order _ _ _ rfl ok⟩

end CBackend
