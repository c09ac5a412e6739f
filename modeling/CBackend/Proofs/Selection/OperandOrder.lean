import CBackend.Proofs.Numbering.Table
import CBackend.Proofs.Selection.Prefixes
import CBackend.Proofs.Selection.Walk

/-!
The operands of a value have smaller numbers than the value, not only between codes but whenever the
state is looked at. Compilation is taken apart into single accesses to the state for this, each of
which adds at most one value.
-/

namespace CBackend

namespace ValuePool

def OperandsFirst (p : ValuePool) : Prop := ∀ id, ∀ k ∈ (p.node id).key.kids, k.index < id.index

/-- At most one value is added, or all are forgotten. -/
inductive Step (p q : ValuePool) : Prop
  | same (keys : q.keys = p.keys)
  | one (key : ValueKey) (keys : q.keys = p.keys ++ [key])
  | none (keys : q.keys = [])

theorem operandsFirst_clear (p : ValuePool) : p.clear.OperandsFirst := by
  intro id k inside
  have absent : p.clear.node id = default := by simp [clear, node]
  rw [absent] at inside
  cases inside

variable {p q : ValuePool}

theorem OperandsFirst.congr (first : p.OperandsFirst) (keys : q.keys = p.keys) : q.OperandsFirst := by
  intro id
  rw [key_node, keys, ← key_node]
  exact first id

theorem OperandsFirst.concat (first : p.OperandsFirst) {key : ValueKey}
    (keys : q.keys = p.keys ++ [key]) (kids : ∀ k ∈ key.kids, k.index < p.size) :
    q.OperandsFirst := by
  intro id k
  rw [key_node, keys, List.getD_eq_getElem?_getD, List.getElem?_append]
  split
  · rw [← List.getD_eq_getElem?_getD, ← key_node]
    exact first id k
  · rename_i outside
    have after : p.size ≤ id.index := by
      rw [← length_keys]
      exact Nat.le_of_not_lt outside
    rw [length_keys]
    cases place : id.index - p.size with
    | zero => exact fun inside => Nat.lt_of_lt_of_le (kids k inside) after
    | succ => exact fun inside => absurd inside List.not_mem_nil

end ValuePool

namespace Gen

variable {α β : Type}

/-- A computation made of single accesses to the state. An invariant holds after each of them, if
`before` holds at the beginning; after a success `after` does. -/
inductive AtAllTimes (inv : Generator → Prop) :
    {α : Type} → (Generator → Prop) → Gen α → (α → Generator → Prop) → Prop
  | pure {α : Type} {before : Generator → Prop} {a : α} {after : α → Generator → Prop}
      (here : ∀ g, before g → after a g) : AtAllTimes inv before (pure a) after
  | throw {α : Type} {before : Generator → Prop} {e : CompileError} {after : α → Generator → Prop} :
      AtAllTimes inv before (throw e) after
  | access {α : Type} {before : Generator → Prop} {f : Generator → α × Generator}
      {after : α → Generator → Prop} (little : ∀ g : Generator, g.pool.Step (f g).2.pool)
      (here : ∀ g, before g → inv (f g).2 ∧ after (f g).1 (f g).2) :
      AtAllTimes inv before (modifyGet f) after
  | bind {α β : Type} {before : Generator → Prop} {x : Gen α} {f : α → Gen β}
      {middle : α → Generator → Prop} {after : β → Generator → Prop}
      (first : AtAllTimes inv before x middle)
      (rest : ∀ a, (∃ g, middle a g) → AtAllTimes inv (middle a) (f a) after) :
      AtAllTimes inv before (x >>= f) after
  | ensure {α β : Type} {before : Generator → Prop} {x : Gen α} {y : Gen β}
      {middle : α → Generator → Prop} {after : α → Generator → Prop}
      (first : AtAllTimes inv before x middle)
      (last : ∀ a, (∃ g, middle a g) → AtAllTimes inv (middle a) y fun _ => after a)
      (rescue : AtAllTimes inv inv y fun _ _ => True) :
      AtAllTimes inv before (tryFinally x y) after

namespace AtAllTimes

variable {inv before before' : Generator → Prop} {x : Gen α} {after after' : α → Generator → Prop}

theorem mono (times : AtAllTimes inv before x after) (stronger : ∀ g, before' g → before g)
    (weaker : ∀ a g, after a g → after' a g) : AtAllTimes inv before' x after' := by
  induction times generalizing before' with
  | pure here => exact .pure fun g start => weaker _ g (here g (stronger g start))
  | throw => exact .throw
  | access little here =>
    exact .access little fun g start => (here g (stronger g start)).imp_right (weaker _ _)
  | bind first rest ih ih' =>
    exact .bind (ih stronger fun _ _ here => here) fun a some_ => ih' a some_ (fun _ => id) weaker
  | ensure first last rescue ih ih' =>
    exact .ensure (ih stronger fun _ _ here => here)
      (fun a some_ => ih' a some_ (fun _ => id) fun _ => weaker a) rescue

theorem ends (times : AtAllTimes inv before x after) {g : Generator} (start : inv g)
    (here : before g) : Ends x g (fun a g' => inv g' ∧ after a g') fun _ g' => inv g' := by
  induction times generalizing g with
  | pure given => exact ⟨start, given g here⟩
  | throw => exact start
  | access _ kept => exact kept g here
  | bind _ _ ih ih' =>
    exact (ih start here).bind fun a g' next => ih' a ⟨g', next.2⟩ next.1 next.2
  | ensure _ _ _ ih ih' ih'' =>
    refine (ih start here).tryFinally (fun a g' next => ih' a ⟨g', next.2⟩ next.1 next.2) ?_
    exact fun _ g' failed => (ih'' failed failed).imp fun _ _ next => next.1

end AtAllTimes

end Gen

namespace Generator

/-- What holds whenever the state is looked at, with numbers below `n` issued: values come after
their operands, and every number that is noted anywhere has been issued. -/
structure Issued (n : Nat) (g : Generator) : Prop where
  operandsFirst : g.pool.OperandsFirst
  table : ∀ e ∈ g.pool.table, e.2.index < g.pool.size
  numbered : ∀ id, some id ∈ g.numbers → id.index < g.pool.size
  size : n ≤ g.pool.size

variable {g g' : Generator} {m n : Nat}

theorem Issued.weaken (issued : g.Issued m) (fewer : n ≤ m) : g.Issued n :=
  { issued with size := Nat.le_trans fewer issued.size }

theorem Issued.congr (issued : g.Issued n) (keys : g'.pool.keys = g.pool.keys)
    (table : ∀ e ∈ g'.pool.table, e ∈ g.pool.table)
    (numbers : ∀ id, some id ∈ g'.numbers → some id ∈ g.numbers) : g'.Issued n := by
  have size : g'.pool.size = g.pool.size := by
    rw [← ValuePool.length_keys, keys, ValuePool.length_keys]
  refine ⟨issued.operandsFirst.congr keys, ?_, ?_, size ▸ issued.size⟩
  · exact fun e inside => size ▸ issued.table e (table e inside)
  · exact fun id inside => size ▸ issued.numbered id (numbers id inside)

theorem Issued.concat (issued : g.Issued m) {key : ValueKey}
    (keys : g'.pool.keys = g.pool.keys ++ [key]) (kids : ∀ k ∈ key.kids, k.index < m)
    (table : ∀ e ∈ g'.pool.table, e ∈ g.pool.table ∨ e.2 = ⟨g.pool.size⟩)
    (numbers : ∀ id, some id ∈ g'.numbers → some id ∈ g.numbers ∨ id = ⟨g.pool.size⟩) :
    g'.Issued (max m (g.pool.size + 1)) := by
  have size : g'.pool.size = g.pool.size + 1 := by
    rw [← ValuePool.length_keys, keys, List.length_append, ValuePool.length_keys]
    rfl
  have enough := issued.size
  refine ⟨?_, fun e inside => ?_, fun id inside => ?_, by omega⟩
  · exact issued.operandsFirst.concat keys fun k inside => Nat.lt_of_lt_of_le (kids k inside) enough
  · rw [size]
    rcases table e inside with old | new
    · exact Nat.lt_succ_of_lt (issued.table e old)
    · rw [new]
      exact Nat.lt_succ_self _
  · rw [size]
    rcases numbers id inside with old | rfl
    · exact Nat.lt_succ_of_lt (issued.numbered id old)
    · exact Nat.lt_succ_self _

end Generator

namespace Gen

open Generator

variable {α β : Type} {c : Nat} {x : Gen α} {f : α → Gen β} {result : α → Prop} {result' : β → Prop}

/-- A computation that keeps operands first, as long as numbers below `c` have been issued. -/
def Orderly (c : Nat) (x : Gen α) (result : α → Prop) : Prop :=
  ∀ m, c ≤ m → AtAllTimes (fun g => g.pool.OperandsFirst) (Issued m) x
    fun a g => g.Issued m ∧ result a

namespace Orderly

theorem pure {a : α} (here : result a) : Orderly c (pure a) result :=
  fun _ _ => .pure fun _ start => ⟨start, here⟩

theorem throw {e : CompileError} : Orderly c (throw e) result := fun _ _ => .throw

theorem from_start (orderly : Orderly 0 x fun _ => True) :
    AtAllTimes (fun g => g.pool.OperandsFirst) (Issued 0) x fun _ => Issued 0 :=
  (orderly 0 (Nat.le_refl 0)).mono (fun _ => id) fun _ _ => And.left

theorem imp {weak : α → Prop} (orderly : Orderly c x result) (weaker : ∀ a, result a → weak a) :
    Orderly c x weak :=
  fun m more => (orderly m more).mono (fun _ => id) fun a _ => .imp_right (weaker a)

theorem bind (first : Orderly c x result) (rest : ∀ a, result a → Orderly c (f a) result') :
    Orderly c (x >>= f) result' := by
  intro m more
  refine (first m more).bind fun a here => ?_
  obtain ⟨g, -, here⟩ := here
  exact (rest a here m more).mono (fun _ => And.left) fun _ _ => id

theorem issue (size : α → Nat)
    (first : ∀ m, c ≤ m → AtAllTimes (fun g => g.pool.OperandsFirst) (Issued m) x
      fun a g => g.Issued (max m (size a)))
    (rest : ∀ a c', c ≤ c' → size a ≤ c' → Orderly c' (f a) result') :
    Orderly c (x >>= f) result' := by
  intro m more
  refine (first m more).bind fun a _ => ?_
  have last := rest a (max m (size a)) (by omega) (by omega) _ (Nat.le_refl _)
  exact last.mono (fun _ => id) fun b g => .imp_left fun ends => ends.weaken (Nat.le_max_left _ _)

theorem modifyGet {f : Generator → α × Generator} (keys : ∀ g, (f g).2.pool.keys = g.pool.keys)
    (table : ∀ g, ∀ e ∈ (f g).2.pool.table, e ∈ g.pool.table)
    (numbers : ∀ g, ∀ id, some id ∈ (f g).2.numbers → some id ∈ g.numbers) :
    Orderly c (modifyGet f) fun _ => True := by
  refine fun m _ => .access (fun g => .same (keys g)) fun g start => ?_
  have kept := start.congr (keys g) (table g) (numbers g)
  exact ⟨kept.operandsFirst, kept, trivial⟩

theorem elsewhere {f : Generator → α × Generator} (pool : ∀ g, (f g).2.pool = g.pool)
    (numbers : ∀ g, (f g).2.numbers = g.numbers) :
    Orderly c (MonadStateOf.modifyGet f) fun _ => True :=
  modifyGet (fun g => by rw [pool]) (fun g e inside => pool g ▸ inside)
    fun g id inside => numbers g ▸ inside

theorem get : Orderly c get fun _ => True :=
  elsewhere (f := fun g => (g, g)) (fun _ => rfl) fun _ => rfl

theorem forM {f : α → Gen PUnit} {as : List α}
    (round : ∀ a ∈ as, Orderly c (f a) fun _ => True) : Orderly c (as.forM f) fun _ => True := by
  induction as with
  | nil => exact pure trivial
  | cons a as ih =>
    refine (round a List.mem_cons_self).bind fun _ _ => ?_
    exact ih fun a later => round a (List.mem_cons_of_mem _ later)

end Orderly

theorem orderly_node (id : NodeId) :
    Orderly c (node id) fun v => ∀ k ∈ v.key.kids, k.index < id.index := by
  intro m _
  have look : AtAllTimes (fun g => g.pool.OperandsFirst) (Issued m) MonadState.get
      fun a g => g.Issued m ∧ a = g :=
    .access (f := fun g => (g, g)) (fun _ => .same rfl) fun g start => ⟨start.operandsFirst, start, rfl⟩
  refine look.bind fun g _ => .pure fun g' start => ?_
  obtain ⟨start, rfl⟩ := start
  exact ⟨start, start.operandsFirst id⟩

theorem atAllTimes_onRegs {kept : Generator → Prop} (ordered : ∀ g, kept g → g.pool.OperandsFirst)
    (other : ∀ (g : Generator) regs, kept g → kept { g with regs })
    (step : RegisterFile → Except RegisterError RegisterFile) :
    AtAllTimes (fun g => g.pool.OperandsFirst) kept (onRegs step) fun _ => kept := by
  have look : AtAllTimes (fun g => g.pool.OperandsFirst) kept MonadState.get fun _ => kept :=
    .access (f := fun g => (g, g)) (fun _ => .same rfl) fun g start => ⟨ordered g start, start⟩
  refine look.bind fun g _ => ?_
  split
  · rename_i regs _
    refine .access (f := fun g => ((), { g with regs })) (fun _ => .same rfl) fun g start => ?_
    exact ⟨ordered g start, other g regs start⟩
  · exact .throw

theorem orderly_onRegs (step : RegisterFile → Except RegisterError RegisterFile) :
    Orderly c (onRegs step) fun _ => True := by
  intro m _
  refine (atAllTimes_onRegs (fun g start => start.operandsFirst) (fun g regs start => ?_) step).mono
    (fun _ => id) fun _ _ ends => ⟨ends, trivial⟩
  exact start.congr rfl (fun _ => id) fun _ => id

theorem orderly_emit (i : Instr) : Orderly c (emit i) fun _ => True :=
  .elsewhere (fun _ => rfl) fun _ => rfl

theorem orderly_emit' (i : Instr) : Orderly c (emit' i) fun _ => True :=
  (orderly_emit i).bind fun _ _ => .pure trivial

theorem orderly_modifyStats (change : FunctionStats → FunctionStats) :
    Orderly c (modifyStats change) fun _ => True :=
  .elsewhere (fun _ => rfl) fun _ => rfl

theorem orderly_hold (op : Operand) : Orderly c (hold op) fun _ => True :=
  .forM fun _ _ => orderly_onRegs _

theorem orderly_release (op : Operand) : Orderly c (release op) fun _ => True :=
  .forM fun _ _ => orderly_onRegs _

theorem orderly_holdValue (id : NodeId) (op : Operand) : Orderly c (holdValue id op) fun _ => True :=
  (orderly_hold op).bind fun _ _ => .elsewhere (fun _ => rfl) fun _ => rfl

theorem Handles.orderly_of {fine : Operand → Prop} {moves : Bool}
    (handles : Handles fine moves x result)
    (demotes : moves = true → ∀ mask, Orderly c (Gen.demote mask) fun _ => True) :
    Orderly c x result := by
  induction handles with
  | pure here => exact .pure here
  | throw | lack => exact .throw
  | look _ _ ih => exact Orderly.get.bind fun g _ => ih g
  | bind _ _ ih ih' => exact ih.bind ih'
  | allocTemp => exact .elsewhere (fun _ => rfl) fun _ => rfl
  | emit => exact orderly_emit' _
  | modifyStats => exact orderly_modifyStats _
  | modifyNode id key =>
    exact .modifyGet (fun g => g.pool.keys_modify id key) (fun _ _ inside => inside)
      fun _ _ inside => inside
  | associate | dissociate => exact orderly_onRegs _
  | demote allowed mask => exact demotes allowed mask

theorem orderly_demote (mask : RegMask) : Orderly c (demote mask) fun _ => True := by
  refine Orderly.get.bind fun g _ => ?_
  split
  · exact .pure trivial
  refine Orderly.get.bind fun g _ => ?_
  refine (orderly_node _).bind fun v _ => ?_
  have stores (id : NodeId) (op : Operand) : Orderly c (registersToMemory id op) fun _ => True :=
    ((@handles_registersToMemory (fun _ => False) false id op).imp fun _ _ => trivial).orderly_of
      fun moves => Bool.noConfusion moves
  refine (stores _ _).bind fun mem _ => ?_
  refine (orderly_release _).bind fun _ _ => ?_
  refine Orderly.bind (.elsewhere (fun _ => rfl) fun _ => rfl) fun _ _ => ?_
  exact (orderly_modifyStats _).bind fun _ _ => .pure trivial

theorem Handles.orderly {fine : Operand → Prop} {moves : Bool}
    (handles : Handles fine moves x result) : Orderly c x result :=
  handles.orderly_of fun _ => orderly_demote

theorem orderly_allocValue (ty : CType) : Orderly c (allocValue ty) fun _ => True := by
  have alloc (mask : RegMask) : Orderly c (alloc mask) fun _ => True :=
    ((@handles_alloc (fun _ => False) mask).imp fun _ _ => trivial).orderly
  unfold allocValue
  split
  · exact (alloc _).bind fun _ _ => .pure trivial
  refine (alloc _).bind fun lo _ => ?_
  split
  · exact .pure trivial
  refine (orderly_onRegs _).bind fun _ _ => ?_
  have high : Orderly c (tryFinally (Gen.alloc .general) (onRegs (·.unpin lo))) fun _ => True := by
    intro m more
    refine .ensure (alloc .general m more) (fun hi _ => ?_) ?_
    · exact (orderly_onRegs _ m more).mono (fun _ => And.left) fun _ _ => id
    · exact (atAllTimes_onRegs (fun _ => id) (fun _ _ => id) _).mono (fun _ => id) fun _ _ _ => trivial
  exact high.bind fun _ _ => .pure trivial

theorem orderly_stage {kid : NodeId} (issued : kid.index < c) (ty : CType) {f : NodeId → Gen α}
    (rest : ∀ c' id, c ≤ c' → id.index < c' → Orderly c' (f id) result) :
    Orderly c (stage kid ty >>= f) result := by
  refine .issue (fun id => id.index + 1) (fun m more => ?_) fun id c' more next => rest c' id more next
  refine .access (f := fun g : Generator =>
    ((⟨g.pool.size⟩ : NodeId), { g with pool := g.pool.staged kid ty g.seq }))
    (fun g => .one _ (g.pool.keys_staged kid ty g.seq)) fun g start => ?_
  have next : ({ g with pool := g.pool.staged kid ty g.seq } : Generator).Issued
      (max m (g.pool.size + 1)) := by
    refine start.concat (g.pool.keys_staged kid ty g.seq) ?_ (fun _ => .inl) fun _ => .inl
    intro k inside
    cases List.mem_singleton.mp inside
    exact Nat.lt_of_lt_of_le issued more
  exact ⟨next.operandsFirst, next⟩

theorem orderly_addressOf (sym : Symbol) : Orderly c (addressOf sym) fun _ => True := by
  unfold addressOf
  refine Orderly.get.bind fun g _ => ?_
  dsimp only
  split
  · split
    · exact .pure trivial
    · exact .throw
  · exact .pure trivial

theorem orderly_popHeld : Orderly c popHeld fun _ => True := by
  unfold popHeld
  refine Orderly.get.bind fun g _ => ?_
  split
  · exact .throw
  · exact Orderly.bind (.elsewhere (fun _ => rfl) fun _ => rfl) fun _ _ => .pure trivial

/-- To keep operands first is a discipline. A value can be selected if its number has been issued. -/
def inOrder : Discipline where
  Context := Nat
  real := False
  distinct := False
  lax := True
  Emits _ := True
  Knows c id _ := id.index < c
  Is _ id v := ∀ k ∈ v.key.kids, k.index < id.index
  Runs c _ _ _ _ x result := Orderly c x result
  mono _ runs := runs
  bind first rest := first.bind rest
  handles handles := handles.orderly
  emit _ := orderly_emit' _
  alloc _ := (@handles_alloc (fun _ => True) _).orderly
  allocValue ty _ := (orderly_allocValue ty).imp fun _ _ => ⟨⟨False.elim, False.elim⟩, False.elim⟩
  hold _ rest := (orderly_hold _).bind fun _ _ => rest
  release _ rest := (orderly_release _).bind fun _ _ => rest
  wait _ rest := (orderly_holdValue _ _).bind fun _ _ => rest
  take rest moved := by
    refine orderly_popHeld.bind fun h _ => ?_
    obtain ⟨id, op, demoted⟩ := h
    cases demoted with
    | false => exact rest id op ⟨False.elim, False.elim⟩
    | true => exact moved id op ⟨False.elim, False.elim⟩ False.elim
  node id := orderly_node id
  placed _ _ := ⟨False.elim, False.elim⟩
  kid knows known left := Nat.lt_trans (known _ (by simp [ValueKey.kids, left])) knows
  kids knows known left right := by
    refine ⟨Nat.lt_trans (known _ ?_) knows, 0, Nat.lt_trans (known _ ?_) knows, .inr trivial⟩
    · simp [ValueKey.kids, right]
    · simp [ValueKey.kids, left]
  stage knows rest := orderly_stage knows _ fun c' id _ issued => rest c' id issued
  constant _ _ := .elsewhere (fun _ => rfl) fun _ => rfl
  address _ _ _ _ _ := (orderly_addressOf _).imp fun _ _ => ⟨False.elim, False.elim⟩

theorem orderly_numberOf (lin : LinId) {f : NodeId → Gen α}
    (rest : ∀ c' id, c ≤ c' → id.index < c' → Orderly c' (f id) result) :
    Orderly c (numberOf lin >>= f) result := by
  refine .issue (fun id => id.index + 1) (fun m more => ?_) fun id c' more next => rest c' id more next
  have look : AtAllTimes (fun g => g.pool.OperandsFirst) (Issued m) MonadState.get
      fun a g => g.Issued m ∧ a = g :=
    .access (f := fun g => (g, g)) (fun _ => .same rfl) fun g start => ⟨start.operandsFirst, start, rfl⟩
  refine look.bind fun g _ => ?_
  split
  · rename_i id found
    refine .pure fun g' start => ?_
    obtain ⟨start, rfl⟩ := start
    have issued := start.numbered id (Array.mem_of_getElem? found)
    have enough := start.size
    exact { start with size := by omega }
  · exact .throw

theorem orderly_numberOf? (lin : Option LinId) {f : Option NodeId → Gen α}
    (rest : ∀ c' k, c ≤ c' → (∀ id ∈ k, id.index < c') → Orderly c' (f k) result) :
    Orderly c (numberOf? lin >>= f) result := by
  cases lin with
  | none => exact rest c none (Nat.le_refl c) nofun
  | some lin =>
    rw [numberOf?, bind_map_left]
    refine orderly_numberOf lin fun c' id more issued => rest c' (some id) more fun id' same => ?_
    cases same
    exact issued

theorem orderly_enter (l : LinId) {r : ValuePool.Request} {e : ValueKey × Int}
    (carries : r.carries? = some e) (kids : ∀ k ∈ e.1.kids, k.index < c) :
    Orderly c (enter l r) fun _ => True := by
  refine fun m more => .access (fun g => ?_) fun g start => ?_
  · rcases g.pool.run_cases carries with ⟨_, -, -, keys, -⟩ | ⟨-, keys, -⟩
    · exact .same keys
    · exact .one e.1 keys
  dsimp only
  have noted {id new : NodeId} (inside : some id ∈ g.numbers.setIfInBounds l.index (some new)) :
      some id ∈ g.numbers ∨ id = new :=
    (Array.mem_or_eq_of_mem_setIfInBounds inside).imp_right Option.some.inj
  rcases g.pool.run_cases carries with ⟨new, issued, entry, keys, table⟩ | ⟨issued, keys, table⟩
  · have next : ({ g with pool := (r.run g.pool).2 } : Generator).Issued m :=
      start.congr keys (fun _ inside => table ▸ inside) fun _ => id
    have size : (r.run g.pool).2.size = g.pool.size := by
      rw [← ValuePool.length_keys, keys, ValuePool.length_keys]
    rw [issued]
    refine ⟨next.operandsFirst, { next with numbered := fun id inside => ?_ }, trivial⟩
    rcases noted inside with old | rfl
    · exact next.numbered id old
    · exact size ▸ start.table _ entry
  · rw [issued]
    have next : ({ g with
        pool := (r.run g.pool).2
        numbers := g.numbers.setIfInBounds l.index (some ⟨g.pool.size⟩) } : Generator).Issued
          (max m (g.pool.size + 1)) :=
      start.concat keys (fun k inside => Nat.lt_of_lt_of_le (kids k inside) more)
        (fun e inside => (table e inside).imp_right (congrArg Prod.snd)) fun _ => noted
    exact ⟨next.operandsFirst, next.weaken (Nat.le_max_left _ _), trivial⟩

theorem orderly_numberNode (f : LinearFunction) (l : LinId) :
    Orderly c (numberNode f l) fun _ => True := by
  rw [numberNode_eq, nodeAt_bind]
  split
  case isFalse => exact .throw
  refine orderly_numberOf? _ fun c left _ knownLeft => ?_
  refine orderly_numberOf? _ fun c' right more knownRight => ?_
  split
  · rename_i r asks
    obtain ⟨e, carries, key⟩ := LinNode.request?_carries asks
    refine orderly_enter l carries fun k inside => ?_
    rw [ValueKey.kids, key.left, key.right] at inside
    rcases List.mem_append.mp inside with first | second
    · exact Nat.lt_of_lt_of_le (knownLeft k (Option.mem_toList.mp first)) more
    · exact knownRight k (Option.mem_toList.mp second)
  · exact .throw

theorem orderly_countUse (seq : Nat) (root : Bool) (id : NodeId) (met : List NodeId) :
    Orderly c (countUse seq root id met) fun _ => True := by
  refine .modifyGet (fun g => ?_) (fun g e inside => ?_) fun _ _ inside => inside
  · exact (UseCount.add_keys seq _ root id ⟨g.pool, met⟩).1
  · exact (UseCount.add_keys seq _ root id ⟨g.pool, met⟩).2 ▸ inside

theorem orderly_numberValues (f : LinearFunction) (graph : FlowGraph) :
    Orderly c (numberValues f graph) fun _ => True := by
  refine NumberingRules.numberValues (P := fun x => Orderly c x fun _ => True) ?_ graph
  exact {
    pure _ := .pure trivial
    bind first rest := first.bind fun a _ => rest a
    read _ rest := Orderly.get.bind fun g _ => rest g
    start := .modifyGet (fun _ => rfl) (fun _ _ inside => inside) fun _ _ inside => by simp at inside
    numberNode l _ := orderly_numberNode f l
    numberOf l := by
      rw [← bind_pure (numberOf l)]
      exact orderly_numberOf l fun _ _ _ _ => .pure trivial
    countUse := orderly_countUse
    reset := .modifyGet (fun _ => rfl) (fun _ _ inside => absurd inside List.not_mem_nil)
      fun _ _ inside => inside
    invalidate _ := .modifyGet (fun _ => rfl) (fun _ _ inside => (List.mem_filter.mp inside).1)
      fun _ _ inside => inside }

theorem orderly_flowGraph (f : LinearFunction) : Orderly c (flowGraph f) fun _ => True := by
  unfold flowGraph
  have build : Orderly c (ofExcept (FlowGraph.build f.codes f.exit)) fun _ => True := by
    cases FlowGraph.build f.codes f.exit with
    | ok => exact .pure trivial
    | error => exact .throw
  refine build.bind fun graph _ => Orderly.get.bind fun g _ => ?_
  split
  · exact (orderly_modifyStats _).bind fun _ _ => .pure trivial
  · exact .pure trivial

theorem orderly_shapeFrame (code : Code) : Orderly c (shapeFrame code) fun _ => True := by
  unfold shapeFrame
  split
  · exact .elsewhere (fun _ => rfl) fun _ => rfl
  · refine Orderly.get.bind fun g _ => Orderly.get.bind fun g' _ => ?_
    generalize g.frame.leaveBlock _ g'.seq = outcome
    obtain ⟨result, frame⟩ := outcome
    refine Orderly.bind (.elsewhere (fun _ => rfl) fun _ => rfl) fun _ _ => ?_
    cases result with
    | ok => exact .pure trivial
    | error => exact .throw
  · exact .elsewhere (fun _ => rfl) fun _ => rfl
  · exact .pure trivial

theorem orderly_stepCode (f : LinearFunction) (reachable : Bool) (pos : Nat) :
    Orderly c (stepCode select f reachable pos) fun _ => True := by
  unfold stepCode
  refine Orderly.bind (.elsewhere (fun _ => rfl) fun _ => rfl) fun _ _ => ?_
  split
  · refine inOrder.runs_selectCode (c := c) (w := 0) (k := .none) (fun _ => trivial) nofun f pos
      ?_ (fun _ _ _ => .throw) ?_ ?_ ?_
    · exact fun l _ rest runs => orderly_numberOf l fun c' id _ issued => runs c' id issued
    · exact fun id => .elsewhere (fun _ => rfl) fun _ => rfl
    · exact orderly_emit
    · exact orderly_shapeFrame _
  dsimp only
  split
  · exact orderly_shapeFrame _
  · exact .pure trivial

end Gen

open Gen Generator

namespace LinearFunction

theorem operandsFirst_prepare (f : LinearFunction) :
    AtAllTimes (fun g => g.pool.OperandsFirst) (fun _ => True) f.prepare fun _ => Issued 0 := by
  have afresh : AtAllTimes (fun g => g.pool.OperandsFirst) (fun _ => True) (modify Generator.reset)
      fun _ => Issued 0 := by
    refine .access (f := fun g => ((), g.reset)) (fun g => .none rfl) fun g _ => ?_
    have first := g.pool.operandsFirst_clear
    exact ⟨first, first, fun _ inside => absurd inside List.not_mem_nil,
      fun _ inside => absurd inside (Array.not_mem_empty _), Nat.zero_le _⟩
  refine afresh.bind fun _ _ => Orderly.from_start ?_
  refine (orderly_flowGraph f).bind fun graph _ => ?_
  refine (orderly_numberValues f graph).bind fun _ _ => ?_
  refine Orderly.bind (.elsewhere (fun _ => rfl) fun _ => rfl) fun _ _ => ?_
  refine Orderly.bind (.forM fun sym _ => .elsewhere (fun _ => rfl) fun _ => rfl) fun _ _ => ?_
  exact .pure trivial

theorem operandsFirst_compile (f : LinearFunction) :
    AtAllTimes (fun g => g.pool.OperandsFirst) (fun _ => True) f.compile fun _ _ => True := by
  have generates : AtAllTimes (fun g => g.pool.OperandsFirst) (fun _ => True) (f.generate select)
      fun _ g => g.pool.OperandsFirst := by
    refine f.operandsFirst_prepare.bind fun graph _ => ?_
    refine (Orderly.from_start ?_).mono (fun _ => id) fun _ _ issued => issued.operandsFirst
    refine (Orderly.forM fun step _ => orderly_stepCode f step.1 step.2).bind fun _ _ => ?_
    refine Orderly.bind (.elsewhere (fun _ => rfl) fun _ => rfl) fun _ _ => ?_
    exact Orderly.get.bind fun _ _ => .pure trivial
  have checks : AtAllTimes (fun g => g.pool.OperandsFirst) (fun g => g.pool.OperandsFirst) checkFrame
      fun _ _ => True := by
    have look : AtAllTimes (fun g => g.pool.OperandsFirst) (fun g => g.pool.OperandsFirst)
        MonadState.get fun _ _ => True :=
      .access (f := fun g => (g, g)) (fun _ => .same rfl) fun g start => ⟨start, trivial⟩
    refine look.bind fun g _ => ?_
    split
    · exact .throw
    · exact .pure fun _ _ => trivial
  exact .ensure generates (fun _ _ => checks) checks

end LinearFunction

theorem Generator.Used.operandsFirst {g : Generator} (used : g.Used) : g.pool.OperandsFirst := by
  induction used with
  | init options => exact (ValuePool.init options.poolCapacity).operandsFirst_clear
  | named => assumption
  | @compiled f _ _ _ _ run ih => exact ((f.operandsFirst_compile.ends ih trivial).ok run).1
  | @failed f _ _ _ _ run ih => exact (f.operandsFirst_compile.ends ih trivial).error run

end CBackend
