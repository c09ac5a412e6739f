import CBackend.Proofs.Flow
import CBackend.Proofs.Lowering.Growth
import CBackend.Proofs.Numbering.Table

/-!
Numbering as a history of requests. Each code asks a few things of the pool, one after the other, and
the counting of uses changes nothing that a later request depends on. So two loads get one number
exactly if they are the same and no request between them made the pool forget the first. A code that
clears a variable asks nothing: what has been loaded from the variable before counts as its value
afterwards.
-/

namespace CBackend

namespace ValuePool

/-- Pools that answer every request alike: they differ at most in counts and places. -/
structure Same (p q : ValuePool) : Prop where
  keys : p.keys = q.keys
  table : p.table = q.table
  capacity : p.capacity = q.capacity

variable {p q r : ValuePool} {k : ValueKey} {id : NodeId}

theorem Same.refl (p : ValuePool) : p.Same p := ⟨rfl, rfl, rfl⟩

theorem Same.lookup? (same : p.Same q) (k : ValueKey) : p.lookup? k = q.lookup? k := by
  rw [lookup?_eq, lookup?_eq, same.table]

theorem Same.key (same : p.Same q) (id : NodeId) : (p.node id).key = (q.node id).key := by
  rw [key_node, key_node, same.keys]

theorem key_of_getElem? (found : p.keys[id.index]? = some k) : (p.node id).key = k := by
  rw [key_node, List.getD_eq_getElem?_getD, found, Option.getD_some]

theorem Same.reset (same : p.Same q) : p.reset.Same q.reset := ⟨same.keys, rfl, same.capacity⟩

theorem Same.invalidate (same : p.Same q) (sym : Symbol) : (p.invalidate sym).Same (q.invalidate sym) where
  keys := same.keys
  table := by
    have survives (k : ValueKey) : p.survives sym k = q.survives sym k := by
      simp only [ValuePool.survives, ValueNode.op, same.key]
    simp only [ValuePool.invalidate, same.table, survives]
  capacity := same.capacity

theorem Keyed.lookup? (keyed : p.Keyed) (found : p.lookup? k = some id) :
    p.keys[id.index]? = some k := keyed _ (mem_of_lookup? found)

theorem keys_after (p : ValuePool) (rs : List Request) : p.keys <+: (p.after rs).keys := by
  induction rs generalizing p with
  | nil => exact List.prefix_rfl
  | cons r rs ih => exact (p.keys_run r).trans (ih _)

theorem Keyed.after (keyed : p.Keyed) (rs : List Request) : (p.after rs).Keyed := by
  induction rs generalizing p with
  | nil => exact keyed
  | cons r rs ih => exact ih (keyed.run r)

theorem Same.keyed (same : p.Same q) (keyed : q.Keyed) : p.Keyed := by
  intro e inside
  rw [same.keys]
  exact keyed e (same.table ▸ inside)

end ValuePool

theorem UseCount.add_same (seq fuel : Nat) (root : Bool) (id : NodeId) (c : UseCount) :
    (add seq fuel root id c).pool.Same c.pool := by
  obtain ⟨keys, table⟩ := add_keys seq fuel root id c
  exact ⟨keys, table, capacity_add seq fuel root id c⟩

def LinearFunction.code (f : LinearFunction) (pos : Nat) : Code := f.codes.getD pos default

namespace Generator

open ValuePool

def stored? (g : Generator) (n : LinNode) : Option Symbol :=
  (n.left.bind g.numbering.number).bind fun a =>
    if (g.pool.node a).op = .addr then (g.pool.node a).key.sym else none

/-- What a code asks of the pool once its operator has been numbered. -/
def afterwards (g : Generator) (n : LinNode) : List Request :=
  match n.op with
  | .assign =>
    match g.stored? n with
    | some sym => [.invalidate sym]
    | none => [.reset]
  | .call => [.reset]
  | _ => []

def requests (g : Generator) (f : LinearFunction) : Code → List Request
  | .label _ => [.reset]
  | .eval lin => (g.request? (f.node lin)).toList ++ g.afterwards (f.node lin)
  | _ => []

/-- Numbering a code makes the pool forget a computation. -/
def Forgets (g : Generator) (f : LinearFunction) (key : ValueKey) (c : Code) : Prop :=
  ∃ m r, (g.requests f c)[m]? = some r ∧ (g.pool.before (g.requests f c) m).Forgets key r

def StandsFor (g : Generator) (id : NodeId) (op : Op) : Prop :=
  ∃ k, g.pool.keys[id.index]? = some k ∧ k.op = op

/-- Entries of the table and numbers in use stand for what they are said to. -/
structure Indexed (g : Generator) (f : LinearFunction) : Prop where
  keyed : g.pool.Keyed
  numbers : ∀ l id, g.numbering.number l = some id → g.StandsFor id (f.node l).op
  size : g.numbers.size = f.nodes.size

variable {f : LinearFunction} {g g' : Generator}

theorem StandsFor.grow {id : NodeId} {op : Op} (stands : g.StandsFor id op)
    (grown : g.pool.keys <+: g'.pool.keys) : g'.StandsFor id op := by
  obtain ⟨k, found, same⟩ := stands
  exact ⟨k, getElem?_of_grown grown found, same⟩

theorem Indexed.grow (indexed : g.Indexed f) (keyed : g'.pool.Keyed)
    (grown : g.pool.keys <+: g'.pool.keys) (numbers : g'.numbers = g.numbers) : g'.Indexed f := by
  refine ⟨keyed, fun l id found => ?_, by rw [numbers, indexed.size]⟩
  have same : g'.numbering.number l = g.numbering.number l := by
    simp only [Generator.numbering, Numbering.number, numbers]
  exact (indexed.numbers l id (same ▸ found)).grow grown

theorem Indexed.assign (indexed : g.Indexed f) (keyed : g'.pool.Keyed)
    (grown : g.pool.keys <+: g'.pool.keys) {l : LinId} {id : NodeId}
    (stands : g'.StandsFor id (f.node l).op)
    (numbers : g'.numbers = g.numbers.setIfInBounds l.index (some id)) : g'.Indexed f := by
  have assigned : g'.numbering.numbers = (g.numbering.assign l id).numbers := by
    simp only [Generator.numbering, numbers, Numbering.assign, Array.toList_setIfInBounds]
  refine ⟨keyed, fun l' id' found => ?_, by rw [numbers, Array.size_setIfInBounds, indexed.size]⟩
  rw [Numbering.number, assigned] at found
  by_cases same : l = l'
  · subst same
    rw [← Numbering.number_assign_self found]
    exact stands
  · exact (indexed.numbers l' id' ((Numbering.number_assign_of_ne same).symm.trans found)).grow grown

end Generator

namespace Gen

open Generator ValuePool

variable {f : LinearFunction} {g g' : Generator} {l : LinId} {id : NodeId} {met met' : List NodeId}
  {pos : Nat}

theorem countUse_same {seq : Nat} {root : Bool} (ok : countUse seq root id met g = .ok met' g') :
    g'.pool.Same g.pool ∧ g'.numbers = g.numbers := by
  rw [countUse, modifyGet_eq_ok] at ok
  cases ok
  exact ⟨UseCount.add_same _ _ _ _ _, rfl⟩

theorem storeTarget?_run (indexed : g.Indexed f) {n : LinNode} {r : Request} (stores : n.op = .assign)
    (asks : g.request? n = some r) (answer : r.run g.pool = (some id, g'.pool)) :
    storeTarget? g'.pool id = g.stored? n := by
  have fresh : r = .fresh ⟨n.op, n.ty, n.sym, n.left.bind g.numbering.number,
      n.right.bind g.numbering.number⟩ n.aux := by
    unfold Generator.request? LinNode.request? at asks
    rw [if_pos (by rw [stores]; rfl)] at asks
    exact (Option.some.inj asks).symm
  have grown : g.pool.keys <+: g'.pool.keys := by
    have := g.pool.keys_run r
    rwa [answer] at this
  have key : (g'.pool.node id).key.left = n.left.bind g.numbering.number := by
    have carried := indexed.keyed.carried (congrArg Request.carries? fresh) (congrArg Prod.fst answer)
    rw [answer] at carried
    rw [key_of_getElem? carried]
  unfold storeTarget? stored?
  rw [key]
  cases address : n.left.bind g.numbering.number with
  | none => rfl
  | some a =>
    obtain ⟨x, -, number⟩ := Option.bind_eq_some_iff.mp address
    obtain ⟨k, found, -⟩ := indexed.numbers x a number
    simp only [Option.bind_some, ValueNode.op, key_of_getElem? found,
      key_of_getElem? (getElem?_of_grown grown found)]

theorem onPool_eq_ok {step : ValuePool → ValuePool} {u : Unit} (ok : onPool step g = .ok u g') :
    g' = { g with pool := step g.pool } := (modify_eq_ok.mp ok).symm

theorem numberCode_run (indexed : g.Indexed f) (ok : numberCode f met pos g = .ok met' g') :
    g'.pool.Same (g.pool.after (g.requests f (f.code pos))) ∧ g'.Indexed f := by
  have plain {g₁ : Generator} (rs : List Request) (same : g₁.pool.Same (g.pool.after rs))
      (numbers : g₁.numbers = g.numbers) : g₁.pool.Same (g.pool.after rs) ∧ g₁.Indexed f :=
    ⟨same, indexed.grow (same.keyed (indexed.keyed.after rs)) (same.keys ▸ g.pool.keys_after rs)
      numbers⟩
  have counts {l : LinId} {root : Bool} (ok : (numberOf l >>= fun id => countUse pos root id met) g =
      .ok met' g') : g'.pool.Same g.pool ∧ g'.Indexed f := by
    obtain ⟨id, g₁, run, ok⟩ := bind_eq_ok.mp ok
    obtain ⟨-, rfl⟩ := numberOf_eq_ok.mp run
    obtain ⟨same, numbers⟩ := countUse_same ok
    exact plain [] same numbers
  unfold numberCode at ok
  unfold LinearFunction.code
  generalize f.codes.getD pos default = c at ok ⊢
  cases c with
  | label l =>
    obtain ⟨_, g₁, run, ok⟩ := bind_eq_ok.mp ok
    obtain ⟨rfl, rfl⟩ := pure_eq_ok.mp ok
    rw [onPool_eq_ok run]
    exact plain [.reset] (.refl _) rfl
  | eval l =>
    obtain ⟨id, g₁, run, ok⟩ := bind_eq_ok.mp ok
    obtain ⟨n, g₂, read, ok⟩ := bind_eq_ok.mp ok
    obtain ⟨rfl, rfl⟩ := node_eq_ok.mp read
    obtain ⟨-, r, asks, answer, numbers, -⟩ := (numberNode_ends f l g).ok run
    have requests : g.pool.after (g.requests f (.eval l)) = g₁.pool.after (g.afterwards (f.node l)) := by
      simp [Generator.requests, asks, ValuePool.after, answer]
    have grown : g.pool.keys <+: g₁.pool.keys := by
      have := g.pool.keys_run r
      rwa [answer] at this
    have keyed : g₁.pool.Keyed := by
      have := indexed.keyed.run r
      rwa [answer] at this
    obtain ⟨k, carries, key⟩ := LinNode.request?_carries asks
    have carried : g₁.pool.keys[id.index]? = some k.1 := by
      have := indexed.keyed.carried carries (congrArg Prod.fst answer)
      rwa [answer] at this
    -- What is asked afterwards leaves the new number alone.
    have finish {g' : Generator} (same : g'.pool.Same (g₁.pool.after (g.afterwards (f.node l))))
        (kept : g'.numbers = g₁.numbers) :
        g'.pool.Same (g.pool.after (g.requests f (.eval l))) ∧ g'.Indexed f := by
      rw [requests]
      have later := same.keys ▸ g₁.pool.keys_after (g.afterwards (f.node l))
      exact ⟨same, indexed.assign (same.keyed (keyed.after _)) (grown.trans later)
        ⟨k.1, getElem?_of_grown later carried, key.op⟩ (kept.trans numbers)⟩
    rw [ValueNode.op, key_of_getElem? carried, key.op] at ok
    cases kind : (f.node l).op with
    | assign =>
      rw [kind] at ok
      obtain ⟨g₂, g₃, read, ok⟩ := bind_eq_ok.mp ok
      obtain ⟨rfl, rfl⟩ := get_eq_ok.mp read
      obtain ⟨met₁, g₂, run, ok⟩ := bind_eq_ok.mp ok
      obtain ⟨same, kept⟩ := countUse_same run
      rw [storeTarget?_run indexed kind asks answer] at ok
      cases target : g.stored? (f.node l) with
      | none =>
        rw [target] at ok
        obtain ⟨_, g₃, run, ok⟩ := bind_eq_ok.mp ok
        obtain ⟨rfl, rfl⟩ := pure_eq_ok.mp ok
        rw [onPool_eq_ok run]
        refine finish ?_ kept
        rw [afterwards, kind, target]
        exact same.reset
      | some sym =>
        rw [target] at ok
        obtain ⟨_, g₃, run, ok⟩ := bind_eq_ok.mp ok
        obtain ⟨rfl, rfl⟩ := pure_eq_ok.mp ok
        rw [onPool_eq_ok run]
        refine finish ?_ kept
        rw [afterwards, kind, target]
        exact same.invalidate sym
    | call =>
      rw [kind] at ok
      obtain ⟨met₁, g₂, run, ok⟩ := bind_eq_ok.mp ok
      obtain ⟨same, kept⟩ := countUse_same run
      obtain ⟨_, g₃, run, ok⟩ := bind_eq_ok.mp ok
      obtain ⟨rfl, rfl⟩ := pure_eq_ok.mp ok
      rw [onPool_eq_ok run]
      refine finish ?_ kept
      rw [afterwards, kind]
      exact same.reset
    | _ =>
      rw [kind] at ok
      obtain ⟨rfl, rfl⟩ := pure_eq_ok.mp ok
      refine finish ?_ rfl
      rw [afterwards, kind]
      exact .refl _
  | arg l => exact counts ok
  | branch l target => exact counts ok
  | ret value =>
    cases value with
    | none =>
      obtain ⟨rfl, rfl⟩ := pure_eq_ok.mp ok
      exact ⟨.refl _, indexed⟩
    | some l => exact counts ok
  | zeroFill l bytes => exact counts ok
  | _ =>
    obtain ⟨rfl, rfl⟩ := pure_eq_ok.mp ok
    exact ⟨.refl _, indexed⟩

theorem lookup?_numberCode (indexed : g.Indexed f) (ok : numberCode f met pos g = .ok met' g')
    {k : ValueKey} {a : NodeId} (issued : a.index < g.pool.size) :
    g'.pool.lookup? k = some a ↔ g.pool.lookup? k = some a ∧ ¬ g.Forgets f k (f.code pos) := by
  rw [(numberCode_run indexed ok).1.lookup?, ← before_length, lookup?_before (Nat.zero_le _) issued]
  refine and_congr Iff.rfl ⟨?_, ?_⟩
  · rintro kept ⟨m, r, here, forgets⟩
    exact kept m r (Nat.zero_le m) (List.getElem?_eq_some_iff.mp here).1 here forgets
  · intro kept m r _ _ here forgets
    exact kept ⟨m, r, here, forgets⟩

theorem keys_numberCode (indexed : g.Indexed f) (ok : numberCode f met pos g = .ok met' g') :
    g.pool.keys <+: g'.pool.keys := by
  rw [(numberCode_run indexed ok).1.keys]
  exact g.pool.keys_after _

end Gen

/-- The generator after the codes at some positions have been numbered. -/
def LinearFunction.afterCodes (f : LinearFunction) (g : Generator) (ps : List Nat) : Generator :=
  match ps.foldlM (Gen.numberCode f) [] g with
  | .ok _ g' | .error _ g' => g'

/-- The generator before the code at a place in the order of numbering. -/
def LinearFunction.before (f : LinearFunction) (graph : FlowGraph) (g : Generator) (k : Nat) : Generator :=
  f.afterCodes { g with numbers := Array.replicate f.nodes.size none } (graph.visited.take k)

namespace LinearFunction

open Gen ValuePool

variable {f : LinearFunction} {graph : FlowGraph} {g g' : Generator} {i j k pos : Nat}

theorem afterCodes_eq {ps : List Nat} {met : List NodeId}
    (ok : ps.foldlM (numberCode f) [] g = .ok met g') : f.afterCodes g ps = g' := by
  unfold afterCodes
  rw [ok]

theorem afterCodes_step {ps : List Nat} {met : List NodeId}
    (ok : ps.foldlM (numberCode f) [] g = .ok met g') (here : ps[k]? = some pos) :
    ∃ met met', numberCode f met pos (f.afterCodes g (ps.take k)) =
      .ok met' (f.afterCodes g (ps.take (k + 1))) := by
  obtain ⟨inside, rfl⟩ := List.getElem?_eq_some_iff.mp here
  have split : ps = ps.take k ++ ps[k] :: ps.drop (k + 1) := by simp
  rw [split, List.foldlM_append] at ok
  obtain ⟨met₁, g₁, first, ok⟩ := bind_eq_ok.mp ok
  rw [List.foldlM_cons] at ok
  obtain ⟨met₂, g₂, step, -⟩ := bind_eq_ok.mp ok
  have longer : (ps.take (k + 1)).foldlM (numberCode f) [] g = .ok met₂ g₂ := by
    rw [List.take_add_one, here, List.foldlM_append, bind_run first]
    exact bind_run step
  exact ⟨met₁, met₂, by rw [afterCodes_eq first, afterCodes_eq longer, step]⟩

theorem before_step (ok : numberValues f graph g = .ok () g') (here : graph.visited[k]? = some pos) :
    ∃ met met', numberCode f met pos (f.before graph g k) = .ok met' (f.before graph g (k + 1)) := by
  obtain ⟨_, g₁, cleared, ok⟩ := bind_eq_ok.mp ok
  obtain ⟨met, g₂, run, -⟩ := bind_eq_ok.mp ok
  rw [← modify_eq_ok.mp cleared] at run
  exact afterCodes_step run here

theorem before_succ_none (none : graph.visited[k]? = none) :
    f.before graph g (k + 1) = f.before graph g k := by
  rw [before, before, List.take_add_one, none, Option.toList_none, List.append_nil]

variable (ok : numberValues f graph g = .ok () g') (empty : g.pool.table = [])
include ok empty

theorem indexed_before (k : Nat) : (f.before graph g k).Indexed f := by
  induction k with
  | zero =>
    have start : f.before graph g 0 = { g with numbers := Array.replicate f.nodes.size none } := rfl
    rw [start]
    refine ⟨fun e inside => ?_, fun l id found => ?_, Array.size_replicate⟩
    · rw [empty] at inside
      cases inside
    · rw [Numbering.number, Generator.numbering, Array.toList_replicate, List.getElem?_replicate] at found
      split at found <;> cases found
  | succ k ih =>
    cases here : graph.visited[k]? with
    | none =>
      rw [before_succ_none here]
      exact ih
    | some pos =>
      obtain ⟨met, met', step⟩ := before_step ok here
      exact (numberCode_run ih step).2

theorem keys_before (later : i ≤ j) :
    (f.before graph g i).pool.keys <+: (f.before graph g j).pool.keys := by
  induction later with
  | refl => exact List.prefix_rfl
  | @step j _ ih =>
    cases here : graph.visited[j]? with
    | none =>
      rw [before_succ_none here]
      exact ih
    | some pos =>
      obtain ⟨met, met', step⟩ := before_step ok here
      exact ih.trans (keys_numberCode (f.indexed_before ok empty j) step)

theorem lookup?_stretch (later : i ≤ j) (key : ValueKey) {a : NodeId}
    (issued : a.index < (f.before graph g i).pool.keys.length) :
    (f.before graph g j).pool.lookup? key = some a ↔
      (f.before graph g i).pool.lookup? key = some a ∧
        ∀ m pos, i ≤ m → m < j → graph.visited[m]? = some pos →
          ¬ (f.before graph g m).Forgets f key (f.code pos) := by
  induction later with
  | refl => exact (and_iff_left fun m pos after upTo => by omega).symm
  | @step j later ih =>
    rw [forall_before_succ later, ← and_assoc, ← ih]
    cases here : graph.visited[j]? with
    | none => simp [before_succ_none here]
    | some pos =>
      obtain ⟨met, met', step⟩ := before_step ok here
      have issued' : a.index < (f.before graph g j).pool.size := by
        rw [← length_keys]
        exact Nat.lt_of_lt_of_le issued (f.keys_before ok empty later).length_le
      simp [lookup?_numberCode (f.indexed_before ok empty j) step issued']

end LinearFunction

/-- At a place in the order of numbering a load through the value of `x` is evaluated. -/
structure LinearFunction.LoadsAt (f : LinearFunction) (graph : FlowGraph) (k : Nat) (l x : LinId) :
    Prop where
  evaluates : graph.visited[k]?.map f.code = some (.eval l)
  op : (f.node l).op = .load
  address : (f.node l).left = some x
  single : (f.node l).right = none

/-- At a place in the order of numbering the variable at the address `x` is cleared. -/
def LinearFunction.FillsAt (f : LinearFunction) (graph : FlowGraph) (k : Nat) (x : LinId) : Prop :=
  ∃ bytes, graph.visited[k]?.map f.code = some (.zeroFill x bytes)

namespace LinearFunction

open Gen ValuePool

variable {f : LinearFunction} {graph : FlowGraph} {g g' : Generator} {i j k z : Nat}
  {l l' x x' : LinId}

theorem LoadsAt.numbered (loads : f.LoadsAt graph k l x) (ok : numberValues f graph g = .ok () g')
    (empty : g.pool.table = []) :
    ∃ a id, (f.before graph g k).numbering.number x = some a ∧
      (f.before graph g k).pool.intern (.unary .load (f.node l).ty a) =
        (id, (f.before graph g (k + 1)).pool) ∧
      (f.before graph g (k + 1)).numbering.number l = some id := by
  obtain ⟨pos, here, code⟩ := Option.map_eq_some_iff.mp loads.evaluates
  obtain ⟨met, met', step⟩ := before_step ok here
  have indexed := f.indexed_before ok empty k
  generalize f.before graph g k = g₁ at step indexed ⊢
  generalize f.before graph g (k + 1) = g₂ at step ⊢
  rw [numberCode, show f.codes.getD pos default = .eval l from code] at step
  obtain ⟨id, g₃, run, step⟩ := bind_eq_ok.mp step
  obtain ⟨n, g₄, read, step⟩ := bind_eq_ok.mp step
  obtain ⟨rfl, rfl⟩ := node_eq_ok.mp read
  obtain ⟨known, r, asks, answer, numbers, -⟩ := (numberNode_ends f l g₁).ok run
  obtain ⟨a, number⟩ := known x (by simp [LinNode.kids, loads.address])
  have asked : g₁.request? (f.node l) = some (.intern (.unary .load (f.node l).ty a)) := by
    simp [Generator.request?, LinNode.request?, loads.op, loads.address, loads.single, number,
      Op.hasSideEffect]
  cases asks.symm.trans asked
  have carried := indexed.keyed.carried (c := (_, 0)) rfl (congrArg Prod.fst answer)
  rw [answer] at carried
  rw [ValueNode.op, key_of_getElem? carried] at step
  obtain ⟨rfl, rfl⟩ := pure_eq_ok.mp step
  obtain ⟨issued, pool⟩ := Prod.mk.inj answer
  refine ⟨a, id, number, Prod.ext (Option.some.inj issued) pool, ?_⟩
  -- A node that is a load is there, so its number is noted.
  have inside : l.index < f.nodes.size := by
    by_contra outside
    have none : f.node l = default := by
      rw [LinearFunction.node, Array.getD_eq_getD_getElem?,
        Array.getElem?_eq_none (Nat.le_of_not_lt outside), Option.getD_none]
    have op := loads.op
    rw [none] at op
    cases op
  rw [Numbering.number, Generator.numbering, numbers]
  simp [indexed.size, inside]

/-- Let a load be evaluated, then a variable cleared and then another load evaluated, whatever else
stands between. The two loads get one number exactly if they have the same type, their addresses have
one number and none of the other codes between makes the pool forget the first: that a variable is
cleared does not matter, not even if it is the one that is loaded from. A load through a computed
address and a load through the address of a variable never get one number. -/
theorem load_unified_across_fill (ok : numberValues f graph g = .ok () g')
    (empty : g.pool.table = []) {y : LinId} (first : f.LoadsAt graph i l x)
    (fill : f.FillsAt graph z y) (second : f.LoadsAt graph j l' x') (sooner : i < z)
    (later : z < j) :
    ∃ id id', (f.before graph g (i + 1)).numbering.number l = some id ∧
      (f.before graph g (j + 1)).numbering.number l' = some id' ∧
      (id = id' ↔ (f.node l').ty = (f.node l).ty ∧
        (f.before graph g j).numbering.number x' = (f.before graph g i).numbering.number x ∧
        ∀ m pos, i < m → m < j → m ≠ z → graph.visited[m]? = some pos →
          ¬ (f.before graph g m).Forgets f ((f.before graph g (i + 1)).pool.node id).key (f.code pos)) ∧
      ((f.node x).op ≠ .addr → (f.node x').op = .addr → id ≠ id') := by
  obtain ⟨a, id, address, interned, number⟩ := first.numbered ok empty
  obtain ⟨a', id', address', interned', number'⟩ := second.numbered ok empty
  -- What the first number stands for, then and later.
  have found : (f.before graph g (i + 1)).pool.lookup? (.unary .load (f.node l).ty a) = some id := by
    have := lookup?_intern (p := (f.before graph g i).pool) (k := .unary .load (f.node l).ty a)
    rwa [interned] at this
  have carried := (f.indexed_before ok empty (i + 1)).keyed.lookup? found
  have issued := (List.getElem?_eq_some_iff.mp carried).1
  have between : i + 1 ≤ j := by omega
  have grown := f.keys_before ok empty between
  have unified : id = id' ↔
      (f.before graph g j).pool.lookup? (.unary .load (f.node l').ty a') = some id := by
    have inside : id.index < (f.before graph g j).pool.size := by
      rw [← length_keys]
      exact Nat.lt_of_lt_of_le issued grown.length_le
    rw [← intern_eq_iff inside, interned']
    exact eq_comm
  have same_key (unify : id = id') : (f.node l').ty = (f.node l).ty ∧ a' = a := by
    have kept := (f.indexed_before ok empty j).keyed.lookup? (unified.mp unify)
    have same := Option.some.inj (kept.symm.trans (getElem?_of_grown grown carried))
    exact ⟨congrArg ValueKey.ty same, Option.some.inj (congrArg ValueKey.left same)⟩
  have stretch := f.lookup?_stretch ok empty between (.unary .load (f.node l).ty a) issued
  have key := key_of_getElem? carried
  refine ⟨id, id', number, number', ⟨fun unify => ?_, ?_⟩, fun computed direct unify => ?_⟩
  · obtain ⟨ty, rfl⟩ := same_key unify
    refine ⟨ty, address'.trans address.symm, fun m pos after upTo _ here => ?_⟩
    rw [key]
    rw [unified, ty] at unify
    exact (stretch.mp unify).2 m pos after upTo here
  · rintro ⟨ty, addresses, kept⟩
    cases address'.symm.trans (addresses.trans address)
    rw [unified, ty]
    refine stretch.mpr ⟨found, fun m pos after upTo here => ?_⟩
    by_cases atFill : m = z
    · subst atFill
      obtain ⟨bytes, fills⟩ := fill
      rw [here, Option.map_some, Option.some.injEq] at fills
      rw [fills]
      rintro ⟨n, r, asked, -⟩
      cases asked
    · rw [← key]
      exact kept m pos after upTo atFill here
  · obtain ⟨-, rfl⟩ := same_key unify
    obtain ⟨k, there, op⟩ := (f.indexed_before ok empty i).numbers x a' address
    obtain ⟨k', there', op'⟩ := (f.indexed_before ok empty j).numbers x' a' address'
    have early : (f.before graph g i).pool.keys <+: (f.before graph g j).pool.keys :=
      f.keys_before ok empty (by omega)
    cases Option.some.inj (there'.symm.trans (getElem?_of_grown early there))
    exact computed (op.symm.trans (op'.trans direct))

/-- A variable is loaded, the negated value stored elsewhere, the variable cleared and loaded again. -/
def clearedBetween : LinearFunction where
  name := ⟨0⟩
  ret := .int
  params := []
  codes := #[.frameEnter, .eval ⟨0⟩, .eval ⟨1⟩, .eval ⟨2⟩, .eval ⟨3⟩, .eval ⟨4⟩, .zeroFill ⟨0⟩ 4,
    .eval ⟨5⟩, .eval ⟨6⟩, .ret (some ⟨6⟩), .label ⟨3⟩, .frameExit]
  nodes := #[
    { op := .addr, ty := .pointer, sym := some ⟨1⟩ },
    { op := .load, ty := .int, left := some ⟨0⟩ },
    { op := .addr, ty := .pointer, sym := some ⟨2⟩ },
    { op := .neg, ty := .int, left := some ⟨1⟩ },
    { op := .assign, ty := .int, left := some ⟨2⟩, right := some ⟨3⟩ },
    { op := .load, ty := .int, left := some ⟨0⟩ },
    { op := .neg, ty := .int, left := some ⟨5⟩ }]
  exit := ⟨3⟩

theorem clearedBetween_numbered :
    ∃ graph g g', flowGraph clearedBetween (Generator.init {} {}).reset = .ok graph g ∧
      numberValues clearedBetween graph g = .ok () g' ∧ g.pool.table = [] ∧
      graph.visited = List.range 12 ∧
      (clearedBetween.before graph g 3).numbering.number ⟨1⟩ = some ⟨1⟩ ∧
      (clearedBetween.before graph g 8).numbering.number ⟨5⟩ = some ⟨1⟩ := by
  have run : (match flowGraph clearedBetween (Generator.init {} {}).reset with
      | .ok graph g =>
        match numberValues clearedBetween graph g with
        | .ok () _ => decide (g.pool.table = [] ∧ graph.visited = List.range 12 ∧
            (clearedBetween.before graph g 3).numbering.number ⟨1⟩ = some ⟨1⟩ ∧
            (clearedBetween.before graph g 8).numbering.number ⟨5⟩ = some ⟨1⟩)
        | .error .. => false
      | .error .. => false) = true := by decide +kernel
  split at run
  · rename_i graph g built
    split at run
    · rename_i g' numbered
      exact ⟨graph, g, g', built, numbered, of_decide_eq_true run⟩
    · cases run
  · cases run

theorem clearedBetween_loads (visits : graph.visited = List.range 12) :
    clearedBetween.LoadsAt graph 2 ⟨1⟩ ⟨0⟩ ∧ clearedBetween.FillsAt graph 6 ⟨0⟩ ∧
      clearedBetween.LoadsAt graph 7 ⟨5⟩ ⟨0⟩ :=
  ⟨⟨by rw [visits]; rfl, rfl, rfl, rfl⟩, ⟨4, by rw [visits]; rfl⟩, ⟨by rw [visits]; rfl, rfl, rfl, rfl⟩⟩

/-- As both loads have one number, nothing between them has made the pool forget the first. -/
theorem clearedBetween_remembers :
    ∃ graph g g', numberValues clearedBetween graph g = .ok () g' ∧
      ∀ m pos, 2 < m → m < 7 → m ≠ 6 → graph.visited[m]? = some pos →
        ¬ (clearedBetween.before graph g m).Forgets clearedBetween
          ((clearedBetween.before graph g 3).pool.node ⟨1⟩).key (clearedBetween.code pos) := by
  obtain ⟨graph, g, g', -, numbered, empty, visits, first, second⟩ := clearedBetween_numbered
  obtain ⟨loads, fills, again⟩ := clearedBetween_loads visits
  obtain ⟨id, id', number, number', unified, -⟩ :=
    load_unified_across_fill numbered empty loads fills again (by decide) (by decide)
  cases number.symm.trans first
  cases number'.symm.trans second
  exact ⟨graph, g, g', numbered, (unified.mp rfl).2.2⟩

/-- The load after the variable has been cleared has the number of the load before. -/
theorem load_unified_with_cleared :
    ∃ graph g g', flowGraph clearedBetween (Generator.init {} {}).reset = .ok graph g ∧
      numberValues clearedBetween graph g = .ok () g' ∧
      clearedBetween.LoadsAt graph 2 ⟨1⟩ ⟨0⟩ ∧ clearedBetween.FillsAt graph 6 ⟨0⟩ ∧
      clearedBetween.LoadsAt graph 7 ⟨5⟩ ⟨0⟩ ∧ (clearedBetween.node ⟨0⟩).op = .addr ∧
      (clearedBetween.before graph g 3).numbering.number ⟨1⟩ =
        (clearedBetween.before graph g 8).numbering.number ⟨5⟩ := by
  obtain ⟨graph, g, g', built, numbered, -, visits, first, second⟩ := clearedBetween_numbered
  obtain ⟨loads, fills, again⟩ := clearedBetween_loads visits
  exact ⟨graph, g, g', built, numbered, loads, fills, again, rfl, first.trans second.symm⟩

end LinearFunction

end CBackend
