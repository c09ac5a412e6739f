import CBackend.Proofs.Flow
import CBackend.Proofs.Selection.Blindness

/-!
Where values come from. A value is numbered where it is evaluated, from operands evaluated before
it, so the addresses it is computed from have all been evaluated by then. Numbering does not look at
the symbol table.
-/

namespace CBackend

namespace LinearFunction

variable {f : LinearFunction} {p p' : Nat} {l : LinId} {s : Symbol}

/-- The symbols whose addresses a linear node is computed from. -/
inductive Reads (f : LinearFunction) : LinId → Symbol → Prop
  | address {l : LinId} {s : Symbol} (address : (f.node l).op = .addr)
      (names : (f.node l).sym = some s) : Reads f l s
  | kid {l k : LinId} {s : Symbol} (inside : k ∈ (f.node l).kids) (reads : Reads f k s) :
      Reads f l s

/-- A linear node is evaluated before a position, and its operands before that. -/
inductive Evaluated (f : LinearFunction) : Nat → LinId → Prop
  | intro {p q : Nat} {l : LinId} (earlier : q < p) (here : f.codes[q]? = some (.eval l))
      (kids : ∀ k ∈ (f.node l).kids, Evaluated f q k) : Evaluated f p l

theorem Evaluated.mono (evaluated : f.Evaluated p l) (later : p ≤ p') : f.Evaluated p' l := by
  obtain ⟨earlier, here, kids⟩ := evaluated
  exact ⟨Nat.lt_of_lt_of_le earlier later, here, kids⟩

theorem Evaluated.address (evaluated : f.Evaluated p l) (reads : f.Reads l s) :
    ∃ q < p, ∃ k, f.codes[q]? = some (.eval k) ∧ (f.node k).op = .addr ∧
      (f.node k).sym = some s := by
  induction reads generalizing p with
  | address address names =>
    obtain ⟨earlier, here, -⟩ := evaluated
    exact ⟨_, earlier, _, here, address, names⟩
  | kid inside _ ih =>
    obtain ⟨earlier, here, kids⟩ := evaluated
    obtain ⟨q, before, address⟩ := ih (kids _ inside)
    exact ⟨q, before.trans earlier, address⟩

/-- A number stands for a linear node: its key has the operator and the type of the node, and the
numbers of the operands stand for the operands. -/
inductive Copies (f : LinearFunction) (keys : List ValueKey) : LinId → NodeId → Prop
  | intro {l : LinId} {id : NodeId} {key : ValueKey} (number : LinId → NodeId)
      (found : keys[id.index]? = some key) (op : key.op = (f.node l).op)
      (ty : key.ty = (f.node l).ty) (sym : ∀ s, key.sym = some s → (f.node l).sym = some s)
      (left : key.left = (f.node l).left.map number)
      (right : key.right = (f.node l).right.map number)
      (kids : ∀ k ∈ (f.node l).kids, Copies f keys k (number k)) : Copies f keys l id

variable {keys keys' : List ValueKey} {id : NodeId}

theorem Copies.mono (copies : f.Copies keys l id) (grown : keys <+: keys') : f.Copies keys' l id := by
  induction copies with
  | intro number found op ty sym left right _ ih =>
    obtain ⟨rest, rfl⟩ := grown
    refine .intro number ?_ op ty sym left right ih
    rw [List.getElem?_append_left (List.getElem?_eq_some_iff.mp found).1, found]

theorem Copies.addresses (copies : f.Copies keys l id) : Addresses keys (f.Reads l) id := by
  induction copies with
  | @intro l id key number found op ty sym left right _ ih =>
    refine .intro found (fun address s names => .address (op ▸ address) (sym s names)) ?_
    intro k inside
    have below : ∃ l' ∈ (f.node l).kids, number l' = k := by
      rw [ValueKey.kids, left, right, List.mem_append] at inside
      simp only [Option.mem_toList, Option.map_eq_some_iff] at inside
      rcases inside with ⟨l', first, rfl⟩ | ⟨l', second, rfl⟩
      · exact ⟨l', by simp [LinNode.kids, first], rfl⟩
      · exact ⟨l', by simp [LinNode.kids, second], rfl⟩
    obtain ⟨l', kid, rfl⟩ := below
    exact (ih l' kid).mono List.prefix_rfl fun _ reads => .kid kid reads

end LinearFunction

namespace Generator

variable {f : LinearFunction} {p p' : Nat} {g : Generator} {l : LinId}

/-- What is numbered by a position was evaluated before it, and its number stands for it. -/
structure Sourced (f : LinearFunction) (p : Nat) (g : Generator) : Prop where
  table : g.pool.Keyed
  copies : ∀ l id, g.numbering.number l = some id → f.Copies g.pool.keys l id
  evaluated : ∀ l id, g.numbering.number l = some id → f.Evaluated p l

theorem Sourced.mono (sourced : g.Sourced f p) (later : p ≤ p') : g.Sourced f p' :=
  ⟨sourced.table, sourced.copies, fun l id found => (sourced.evaluated l id found).mono later⟩

theorem Sourced.congr {pool : ValuePool} (sourced : g.Sourced f p) (keys : pool.keys = g.pool.keys)
    (fewer : ∀ e ∈ pool.table, e ∈ g.pool.table) : Sourced f p { g with pool } where
  table e inside := by
    change pool.keys[e.2.index]? = _
    rw [keys]
    exact sourced.table e (fewer e inside)
  copies l id found := by
    change f.Copies pool.keys l id
    rw [keys]
    exact sourced.copies l id found
  evaluated := sourced.evaluated

theorem Sourced.assign {r : ValuePool.Request} {id : NodeId} (sourced : g.Sourced f p)
    (asks : g.request? (f.node l) = some r) (issued : (r.run g.pool).1 = some id)
    (known : ∀ k ∈ (f.node l).kids, ∃ i, g.numbering.number k = some i)
    (evaluated : f.Evaluated p' l) (later : p ≤ p') :
    Sourced f p' { g with
      pool := (r.run g.pool).2
      numbers := g.numbers.setIfInBounds l.index (some id) } := by
  obtain ⟨c, carries, key⟩ := LinNode.request?_carries asks
  let number (k : LinId) : NodeId := (g.numbering.number k).getD default
  have numbered (k : LinId) (inside : k ∈ (f.node l).kids) :
      g.numbering.number k = some (number k) := by
    obtain ⟨i, found⟩ := known k inside
    simp only [number, found, Option.getD_some]
  have operand {kid : Option LinId} (inside : ∀ k ∈ kid, k ∈ (f.node l).kids) :
      kid.bind g.numbering.number = kid.map number := by
    cases kid with
    | none => rfl
    | some k => exact numbered k (inside k rfl)
  have left := key.left.trans (operand fun k inside =>
    List.mem_append_left _ (Option.mem_toList.mpr inside))
  have right := key.right.trans (operand fun k inside =>
    List.mem_append_right _ (Option.mem_toList.mpr inside))
  have numbers (l' : LinId) : Numbering.number (Generator.numbering { g with
      pool := (r.run g.pool).2
      numbers := g.numbers.setIfInBounds l.index (some id) }) l' =
      (g.numbering.assign l id).number l' := by
    simp only [Generator.numbering, Numbering.number, Numbering.assign,
      Array.toList_setIfInBounds]
  refine ⟨sourced.table.run r, fun l' id' found => ?_, fun l' id' found => ?_⟩
  · rw [numbers] at found
    by_cases same : l = l'
    · subst same
      obtain rfl := Numbering.number_assign_self found
      refine .intro number (sourced.table.carried carries issued) key.op key.ty key.sym left right ?_
      exact fun k inside => (sourced.copies k _ (numbered k inside)).mono (g.pool.keys_run r)
    · rw [Numbering.number_assign_of_ne same] at found
      exact (sourced.copies l' id' found).mono (g.pool.keys_run r)
  · rw [numbers] at found
    by_cases same : l = l'
    · subst same
      exact evaluated
    · rw [Numbering.number_assign_of_ne same] at found
      exact (sourced.evaluated l' id' found).mono later

end Generator

namespace Gen

open Generator

variable {α β : Type} {f : LinearFunction} {p : Nat} {g g' : Generator} {l : LinId}

theorem numberNode_sourced (sourced : g.Sourced f p) (here : f.codes[p]? = some (.eval l)) :
    Ends (numberNode f l) g (fun _ g' => g'.Sourced f (p + 1) ∧ f.Evaluated (p + 1) l)
      fun _ _ => True := by
  refine (numberNode_ends f l g).mono ?_ fun _ _ _ => trivial
  rintro id g' ⟨known, r, asks, answer, numbers, same⟩
  have evaluated : f.Evaluated (p + 1) l := by
    refine .intro (Nat.lt_succ_self p) here fun k inside => ?_
    obtain ⟨i, number⟩ := known k inside
    exact sourced.evaluated k i number
  have pool : (r.run g.pool).2 = g'.pool := congrArg Prod.snd answer
  rw [same, numbers, ← pool]
  exact ⟨sourced.assign asks (congrArg Prod.fst answer) known evaluated (Nat.le_succ p), evaluated⟩

abbrev Sources (f : LinearFunction) (p : Nat) (x : Gen α) : Prop :=
  Keeps (Sourced f p) (fun _ _ => True) x fun _ => True

theorem sources_node (id : NodeId) : Sources f p (node id) :=
  ⟨fun _ sourced => ⟨sourced, trivial⟩⟩

theorem sources_countUse (seq : Nat) (root : Bool) (id : NodeId) (met : List NodeId) :
    Sources f p (countUse seq root id met) := by
  apply Keeps.modifyGet
  intro g sourced
  obtain ⟨keys, table⟩ := UseCount.add_keys seq (id.index + 1) root id ⟨g.pool, met⟩
  exact ⟨sourced.congr keys fun e inside => table ▸ inside, trivial⟩

theorem sources_reset : Sources f p (onPool ValuePool.reset) :=
  .modify fun _ sourced => sourced.congr rfl fun _ inside => absurd inside List.not_mem_nil

theorem sources_invalidate (sym : Symbol) : Sources f p (onPool (·.invalidate sym)) :=
  .modify fun _ sourced => sourced.congr rfl fun _ inside => (List.mem_filter.mp inside).1

theorem numberOf_sourced (lin : LinId) (sourced : g.Sourced f p) :
    Ends (numberOf lin) g (fun _ g' => g'.Sourced f (p + 1) ∧ f.Evaluated (p + 1) lin)
      fun _ _ => True := by
  refine (numberOf_ends lin g).mono ?_ fun _ _ _ => trivial
  rintro id g' ⟨rfl, number⟩
  have later := sourced.mono (Nat.le_succ p)
  exact ⟨later, later.evaluated lin id number⟩

theorem numberCode_sourced {c : Code} (met : List NodeId) (sourced : g.Sourced f p)
    (here : f.codes[p]? = some c) :
    Ends (numberCode f met p) g
      (fun _ g' => g'.Sourced f (p + 1) ∧ ∀ l ∈ c.operand?, f.Evaluated (p + 1) l)
      fun _ _ => True := by
  have same : f.codes.getD p default = c := by
    rw [Array.getD_eq_getD_getElem?, here]
    rfl
  have later := sourced.mono (Nat.le_succ p)
  have only {l : LinId} {x : Gen (List NodeId)} {g' : Generator} (keeps : Sources f (p + 1) x)
      (ready : g'.Sourced f (p + 1) ∧ f.Evaluated (p + 1) l) :
      Ends x g' (fun _ g'' => g''.Sourced f (p + 1) ∧ ∀ l' ∈ some l, f.Evaluated (p + 1) l')
        fun _ _ => True := by
    apply (keeps.ends g' ready.1).imp
    intro met' g'' kept
    exact ⟨kept.1, fun l' inside => Option.mem_some.mp inside ▸ ready.2⟩
  have counts {l : LinId} {root : Bool} : Ends (numberOf l >>= fun id => countUse p root id met) g
      (fun _ g' => g'.Sourced f (p + 1) ∧ ∀ l' ∈ some l, f.Evaluated (p + 1) l')
      fun _ _ => True :=
    (numberOf_sourced l sourced).bind fun id g' ready => only (sources_countUse p root id met) ready
  have none {code : Code} (plain : code.operand? = none) :
      g.Sourced f (p + 1) ∧ ∀ l ∈ code.operand?, f.Evaluated (p + 1) l := by
    refine ⟨later, fun l inside => ?_⟩
    rw [plain] at inside
    cases inside
  rw [numberCode, same]
  cases c with
  | label l => exact ⟨later.congr rfl fun e inside => absurd inside List.not_mem_nil, (none rfl).2⟩
  | eval l =>
    apply (numberNode_sourced sourced here).bind
    intro id g' ready
    apply only _ ready
    apply (sources_node id).bind
    intro n _
    split
    · apply Keeps.get.bind
      intro g _
      apply (sources_countUse p true id met).bind
      intro met _
      dsimp only
      split
      · exact (sources_invalidate _).bind fun _ _ => .pure trivial
      · exact sources_reset.bind fun _ _ => .pure trivial
    · apply (sources_countUse p true id met).bind
      intro met _
      exact sources_reset.bind fun _ _ => .pure trivial
    · exact .pure trivial
  | arg l => exact counts
  | branch l target => exact counts
  | ret value =>
    cases value with
    | none => exact none rfl
    | some l => exact counts
  | zeroFill l bytes => exact counts
  | _ => exact none rfl

theorem numberCodes_sourced {ps : List Nat} (met : List NodeId) (sourced : g.Sourced f p)
    (sorted : ps.Pairwise (· < ·)) (bounded : ∀ pos ∈ ps, p ≤ pos ∧ pos < f.codes.size) :
    Ends (ps.foldlM (numberCode f) met) g
      (fun _ g' => (∃ p, g'.Sourced f p) ∧ ∀ pos ∈ ps,
        ∀ l ∈ (f.codes.getD pos default).operand?, f.Evaluated (pos + 1) l) fun _ _ => True := by
  induction ps generalizing met g p with
  | nil => exact ⟨⟨p, sourced⟩, nofun⟩
  | cons pos rest ih =>
    rw [List.foldlM_cons]
    obtain ⟨start, inside⟩ := bounded pos List.mem_cons_self
    obtain ⟨before, sorted⟩ := List.pairwise_cons.mp sorted
    apply (numberCode_sourced met (sourced.mono start) (Array.getElem?_eq_getElem inside)).bind
    intro met' g' ⟨sourced', evaluated⟩
    have left : ∀ q ∈ rest, pos + 1 ≤ q ∧ q < f.codes.size := fun q later =>
      ⟨before q later, (bounded q (List.mem_cons_of_mem _ later)).2⟩
    apply (ih met' sourced' sorted left).imp
    intro _ g'' ⟨last, others⟩
    refine ⟨last, fun q there => ?_⟩
    rcases List.mem_cons.mp there with rfl | later
    · rwa [Array.getD_eq_getD_getElem?, Array.getElem?_eq_getElem inside]
    · exact others q later

/-- A step that does not look at the symbol table and leaves its surroundings as they are. -/
structure Nameless (x : Gen α) : Prop where
  run : ∀ g t, x (g.within ⟨t, g.options, g.pool.capacity⟩) =
    relocate ⟨t, g.options, g.pool.capacity⟩ (x g)

theorem Detached.nameless {x : Gen α} (detached : Detached x) : Nameless x :=
  ⟨fun g _ => detached.run g _⟩

namespace Nameless

variable {x : Gen α} {k : α → Gen β}

theorem ok {a : α} (nameless : Nameless x) (run : x g = .ok a g') :
    g'.surroundings = g.surroundings := by
  have same := nameless.run g g.symbols
  rw [run] at same
  have kept := (EStateM.Result.ok.inj (run.symm.trans same)).2
  rw [kept]
  rfl

theorem error {e : CompileError} (nameless : Nameless x) (run : x g = .error e g') :
    g'.surroundings = g.surroundings := by
  have same := nameless.run g g.symbols
  rw [run] at same
  have kept := (EStateM.Result.error.inj (run.symm.trans same)).2
  rw [kept]
  rfl

theorem bind (first : Nameless x) (rest : ∀ a, Nameless (k a)) : Nameless (x >>= k) := by
  constructor
  intro g t
  change EStateM.bind x k (g.within _) = relocate _ (EStateM.bind x k g)
  unfold EStateM.bind
  rw [first.run]
  cases run : x g with
  | error e g' => rfl
  | ok a g' =>
    obtain ⟨-, options, capacity⟩ := Surroundings.mk.inj (first.ok run)
    rw [relocate, ← options, ← capacity]
    exact (rest a).run g' t

theorem get_bind {k : Generator → Gen α}
    (same : ∀ g t, k (g.within ⟨t, g.options, g.pool.capacity⟩) = k g)
    (rest : ∀ g, Nameless (k g)) : Nameless (get >>= k) := by
  constructor
  intro g t
  change k (g.within ⟨t, g.options, g.pool.capacity⟩) (g.within _) = relocate _ (k g g)
  rw [same]
  exact (rest g).run g t

theorem modifyGet (step : Generator → α × ValuePool × Array (Option NodeId))
    (same : ∀ g t, step (g.within ⟨t, g.options, g.pool.capacity⟩) = step g)
    (capacity : ∀ g, (step g).2.1.capacity = g.pool.capacity) :
    Nameless (modifyGet fun g => ((step g).1, { g with
      pool := (step g).2.1
      numbers := (step g).2.2 })) := by
  constructor
  intro g t
  have kept : (step g).2.1 = { (step g).2.1 with capacity := g.pool.capacity } := by
    rw [← capacity g]
  change EStateM.Result.ok (step (g.within _)).1 _ = EStateM.Result.ok (step g).1 _
  rw [same]
  exact congrArg (fun pool => EStateM.Result.ok (step g).1
    { g with symbols := t, pool, numbers := (step g).2.2 }) kept

end Nameless

theorem detached_numberOf (lin : LinId) : Detached (numberOf lin) := by
  apply Detached.get_bind (fun _ _ => rfl)
  intro g
  split
  · exact .pure _
  · exact .throw _

theorem detached_numberOf? (lin : Option LinId) : Detached (numberOf? lin) := by
  cases lin with
  | none => exact .pure _
  | some lin => exact (detached_numberOf lin).map

theorem nameless_numberNode (f : LinearFunction) (lin : LinId) : Nameless (numberNode f lin) := by
  rw [numberNode_eq, nodeAt_bind]
  split
  case isFalse => exact (Detached.throw _).nameless
  apply (detached_numberOf? _).nameless.bind
  intro left
  apply (detached_numberOf? _).nameless.bind
  intro right
  split
  · rename_i r _
    exact .modifyGet (fun g => ((r.run g.pool).1.getD default, (r.run g.pool).2,
      g.numbers.setIfInBounds lin.index (some ((r.run g.pool).1.getD default)))) (fun _ _ => rfl)
        fun g => (g.pool.counted_run r).1
  · exact (Detached.throw _).nameless

theorem nameless_countUse (seq : Nat) (root : Bool) (id : NodeId) (met : List NodeId) :
    Nameless (countUse seq root id met) :=
  .modifyGet (fun g =>
    let c := UseCount.add seq (id.index + 1) root id ⟨g.pool, met⟩
    (c.met, c.pool, g.numbers)) (fun _ _ => rfl) fun g =>
      UseCount.capacity_add seq (id.index + 1) root id ⟨g.pool, met⟩

theorem nameless_onPool (step : ValuePool → ValuePool)
    (capacity : ∀ p, (step p).capacity = p.capacity) : Nameless (onPool step) :=
  .modifyGet (fun g => ((), step g.pool, g.numbers)) (fun _ _ => rfl) fun g => capacity g.pool

theorem nameless_numberValues (f : LinearFunction) (graph : FlowGraph) :
    Nameless (numberValues f graph) := by
  refine NumberingRules.numberValues (P := Nameless) ?_ graph
  exact {
    pure a := (Detached.pure a).nameless
    bind := .bind
    read pool rest := .get_bind (fun g t => pool g _ rfl) rest
    start := (Detached.modify fun _ _ => rfl).nameless
    numberNode l _ := nameless_numberNode f l
    numberOf l := (detached_numberOf l).nameless
    countUse := nameless_countUse
    reset := nameless_onPool ValuePool.reset fun _ => rfl
    invalidate sym := nameless_onPool (·.invalidate sym) fun _ => rfl }

theorem nameless_flowGraph (f : LinearFunction) : Nameless (flowGraph f) := by
  apply (Detached.ofExcept _).nameless.bind
  intro graph
  apply Nameless.get_bind (fun _ _ => rfl)
  intro g
  split
  · exact ((detached_modifyStats _).bind fun _ => .pure _).nameless
  · exact (Detached.pure _).nameless

/-- The flow graph of a function, with the values of its codes numbered. -/
def numbered (f : LinearFunction) : Gen FlowGraph := do
  let graph ← flowGraph f
  numberValues f graph
  modify fun g => { g with stats := { g.stats with
    sharedValues := g.pool.hits
    poolResets := g.pool.resets } }
  return graph

theorem numbered_eq_ok {graph : FlowGraph} (ok : numbered f g = .ok graph g')
    (keys : g.pool.keys = []) (table : g.pool.table = []) :
    graph.blocks.toList.flatMap positions = List.range f.codes.size ∧
      (∀ l id, g'.numbering.number l = some id → f.Copies g'.pool.keys l id) ∧
      ∀ pos ∈ graph.visited, ∀ l ∈ (f.codes.getD pos default).operand?,
        f.Evaluated (pos + 1) l := by
  obtain ⟨graph', g₁, made, ok⟩ := bind_eq_ok.mp ok
  obtain ⟨built, result, choice, kept⟩ := flowGraph_eq_ok made
  have pool : g₁.pool = g.pool := by rw [kept]
  have covers : graph'.blocks.toList.flatMap positions = List.range f.codes.size := by
    rcases choice with rfl | rfl
    · exact FlowGraph.flatMap_positions result
    · exact (FlowGraph.positions_mark (built.reached.getD · false)).trans
        (FlowGraph.flatMap_positions result)
  obtain ⟨_, g₂, run, ok⟩ := bind_eq_ok.mp ok
  obtain ⟨_, g₃, noted, ok⟩ := bind_eq_ok.mp ok
  obtain ⟨rfl, rfl⟩ := pure_eq_ok.mp ok
  obtain ⟨_, g₄, cleared, run⟩ := bind_eq_ok.mp run
  rw [← modify_eq_ok.mp cleared] at run
  obtain ⟨met, g₅, walked, done⟩ := bind_eq_ok.mp run
  obtain ⟨-, rfl⟩ := pure_eq_ok.mp done
  have inside : graph'.visited.Sublist (List.range f.codes.size) := by
    rw [← covers]
    exact List.Sublist.flatMap List.filter_sublist _
  have start : Sourced f 0 { g₁ with numbers := Array.replicate f.nodes.size none } := by
    have none (l : LinId) : Numbering.number (Generator.numbering { g₁ with
        numbers := Array.replicate f.nodes.size none }) l = none := by
      rw [Generator.numbering, pool, keys, table, Array.toList_replicate]
      exact (Numbering.consistent_empty f f.nodes.size).1 l
    refine ⟨fun e inside => ?_, fun l id found => ?_, fun l id found => ?_⟩
    · change e ∈ g₁.pool.table at inside
      rw [pool, table] at inside
      cases inside
    · rw [none l] at found
      cases found
    · rw [none l] at found
      cases found
  have sorted := List.pairwise_lt_range.sublist inside
  have bounded (pos : Nat) (there : pos ∈ graph'.visited) : 0 ≤ pos ∧ pos < f.codes.size :=
    ⟨Nat.zero_le _, List.mem_range.mp (inside.subset there)⟩
  obtain ⟨⟨p, sourced⟩, evaluated⟩ := (numberCodes_sourced [] start sorted bounded).ok walked
  rw [← modify_eq_ok.mp noted]
  exact ⟨covers, sourced.copies, evaluated⟩

theorem nameless_numbered (f : LinearFunction) : Nameless (numbered f) := by
  apply (nameless_flowGraph f).bind
  intro graph
  apply (nameless_numberValues f graph).bind
  intro _
  exact ((Detached.modify fun _ _ => rfl).bind fun _ => .pure graph).nameless

end Gen

end CBackend
