import CBackend.Compile
import CBackend.Proofs.Lowering.Growth
import CBackend.Proofs.Lowering.Ledger
import CBackend.Proofs.Numbering.History
import CBackend.Proofs.Selection.Keeps

/-!
What numbering does to its table. The number of a value is the number of its key: the operator with
the numbers of its operands. Codes are numbered in the order they stand in, each from the numbers,
the table and the keys that the codes before it have left.
-/

namespace CBackend

structure Numbering where
  keys : List ValueKey
  table : List (ValueKey × NodeId)
  numbers : List (Option NodeId)

namespace Numbering

def number (v : Numbering) (l : LinId) : Option NodeId := v.numbers[l.index]?.join

def key (v : Numbering) (id : NodeId) : ValueKey := v.keys.getD id.index default

def next (v : Numbering) : NodeId := ⟨v.keys.length⟩

def keyOf (v : Numbering) (n : LinNode) : ValueKey :=
  ⟨n.op, n.ty, n.sym, n.left.bind v.number, n.right.bind v.number⟩

def assign (v : Numbering) (l : LinId) (id : NodeId) : Numbering :=
  { v with numbers := v.numbers.set l.index (some id) }

def issue (v : Numbering) (l : LinId) (n : LinNode) (table : List (ValueKey × NodeId)) :
    Numbering :=
  { v.assign l v.next with keys := v.keys ++ [v.keyOf n], table }

/-- The variable that is stored to, where the number of the store is known. -/
def target? (v : Numbering) (id : NodeId) : Option Symbol :=
  match (v.key id).left with
  | some a => if (v.key a).op = .addr then (v.key a).sym else none
  | none => none

def survives (v : Numbering) (sym : Symbol) (k : ValueKey) : Bool :=
  if k.op = .load then
    match k.left with
    | some a => (v.key a).op == .addr && (v.key a).sym != some sym
    | none => false
  else true

def forget (v : Numbering) : Numbering := { v with table := [] }

def invalidate (v : Numbering) (sym : Symbol) : Numbering :=
  { v with table := v.table.filter fun e => v.survives sym e.1 }

inductive Interns (v : Numbering) (l : LinId) (n : LinNode) : NodeId → Numbering → Prop
  | known {id : NodeId} (unifies : n.op.hasSideEffect = false)
      (found : (v.keyOf n, id) ∈ v.table) : Interns v l n id (v.assign l id)
  | new {kept : List (ValueKey × NodeId)} (unifies : n.op.hasSideEffect = false)
      (room : kept = v.table ∨ kept = []) :
      Interns v l n v.next (v.issue l n ((v.keyOf n, v.next) :: kept))
  | single (effect : n.op.hasSideEffect = true) : Interns v l n v.next (v.issue l n v.table)

inductive Numbers (f : LinearFunction) : Code → Numbering → Numbering → Prop
  | label {l : Symbol} {v : Numbering} : Numbers f (.label l) v v.forget
  | value {l : LinId} {id : NodeId} {v v' : Numbering}
      (unifies : (f.node l).op.hasSideEffect = false)
      (ready : ∀ k ∈ (f.node l).kids, ∃ i, v.number k = some i)
      (interns : v.Interns l (f.node l) id v') : Numbers f (.eval l) v v'
  | store {l : LinId} {id : NodeId} {sym : Symbol} {v v' : Numbering}
      (stores : (f.node l).op = .assign)
      (ready : ∀ k ∈ (f.node l).kids, ∃ i, v.number k = some i)
      (interns : v.Interns l (f.node l) id v') (target : v'.target? id = some sym) :
      Numbers f (.eval l) v (v'.invalidate sym)
  | effect {l : LinId} {id : NodeId} {v v' : Numbering}
      (effect : (f.node l).op.hasSideEffect = true)
      (ready : ∀ k ∈ (f.node l).kids, ∃ i, v.number k = some i)
      (interns : v.Interns l (f.node l) id v') : Numbers f (.eval l) v v'.forget
  | plain {c : Code} {v : Numbering} (plain : c.isPlain = true) : Numbers f c v v

/-- The numbering of the codes at some positions, one after the other. -/
inductive NumbersAll (f : LinearFunction) : List Nat → Numbering → Numbering → Prop
  | nil {v : Numbering} : NumbersAll f [] v v
  | cons {pos : Nat} {c : Code} {rest : List Nat} {v v₁ v' : Numbering}
      (here : f.codes[pos]? = some c) (numbers : Numbers f c v v₁)
      (later : NumbersAll f rest v₁ v') : NumbersAll f (pos :: rest) v v'

/-- Numbers stand for keys of numbers, a table entry for its key, and an address for a variable. -/
structure Consistent (f : LinearFunction) (v : Numbering) : Prop where
  table : ∀ e ∈ v.table, v.keys[e.2.index]? = some e.1
  kids : ∀ k ∈ v.keys, ∀ i ∈ k.kids, i.index < v.keys.length
  numbers : ∀ l id, v.number l = some id →
    id.index < v.keys.length ∧ (v.key id).ty = (f.node l).ty
  addresses : ∀ k ∈ v.keys, k.op = .addr → k.sym.isSome = true

variable {f : LinearFunction} {v v' v₁ : Numbering} {l l' : LinId} {n : LinNode} {id : NodeId}
  {c : Code} {e : ValueKey × NodeId} {ps : List Nat}

theorem number_assign_of_ne (other : l ≠ l') : (v.assign l id).number l' = v.number l' := by
  have differs : l.index ≠ l'.index := fun same => other (congrArg LinId.mk same)
  simp only [number, assign, List.getElem?_set_ne differs]

theorem number_assign_self {id' : NodeId} (found : (v.assign l id).number l = some id') :
    id = id' := by
  simp only [number, assign, List.getElem?_set_self'] at found
  cases old : v.numbers[l.index]? with
  | none => simp [old] at found
  | some _ => simpa [old] using found

theorem key_eq {k : ValueKey} (found : v.keys[id.index]? = some k) : v.key id = k := by
  rw [key, List.getD_eq_getElem?_getD, found, Option.getD_some]

theorem key_of_prefix (grown : v.keys <+: v'.keys) {k : ValueKey}
    (found : v.keys[id.index]? = some k) : v'.key id = k := by
  obtain ⟨more, same⟩ := grown
  refine key_eq ?_
  rw [← same, List.getElem?_append_left (List.getElem?_eq_some_iff.mp found).1, found]

theorem key_issue (bound : id.index < v.keys.length) (table : List (ValueKey × NodeId)) :
    (v.issue l n table).key id = v.key id := by
  simp only [key, issue, List.getD_eq_getElem?_getD, List.getElem?_append_left bound]

theorem key_issue_next (table : List (ValueKey × NodeId)) :
    (v.issue l n table).keys[v.next.index]? = some (v.keyOf n) := by
  simp [issue, next]

theorem Interns.keys (interns : v.Interns l n id v') : v.keys <+: v'.keys := by
  cases interns with
  | known => exact List.prefix_rfl
  | new => exact List.prefix_append _ _
  | single => exact List.prefix_append _ _

theorem Interns.numbers (interns : v.Interns l n id v') :
    v'.numbers = (v.assign l id).numbers := by
  cases interns <;> rfl

theorem Interns.number_of_ne (interns : v.Interns l n id v') (other : l ≠ l') :
    v'.number l' = v.number l' := by
  rw [number, interns.numbers]
  exact number_assign_of_ne other

theorem Interns.number_self (interns : v.Interns l n id v') {id' : NodeId}
    (found : v'.number l = some id') : id = id' := by
  rw [number, interns.numbers] at found
  exact number_assign_self found

theorem Interns.table (interns : v.Interns l n id v') (inside : e ∈ v'.table) :
    v.keys.length ≤ e.2.index ∨ e ∈ v.table := by
  cases interns with
  | known => exact .inr inside
  | single => exact .inr inside
  | new unifies room =>
    rcases List.mem_cons.mp inside with rfl | old
    · exact .inl (Nat.le_refl _)
    · rcases room with rfl | rfl
      · exact .inr old
      · cases old

theorem Interns.key (interns : v.Interns l n id v') (consistent : v.Consistent f) :
    v'.keys[id.index]? = some (v.keyOf n) := by
  cases interns with
  | known _ found => exact consistent.table _ found
  | new => exact key_issue_next _
  | single => exact key_issue_next _

theorem Numbers.keys (numbers : Numbers f c v v') : v.keys <+: v'.keys := by
  cases numbers with
  | label => exact List.prefix_rfl
  | value _ _ interns => exact interns.keys
  | store _ _ interns _ => exact interns.keys
  | effect _ _ interns => exact interns.keys
  | plain _ => exact List.prefix_rfl

theorem Numbers.number_of_ne (numbers : Numbers f c v v') (other : c ≠ .eval l) :
    v'.number l = v.number l := by
  have differs {l' : LinId} (other : Code.eval l' ≠ .eval l) : l' ≠ l := fun same =>
    other (congrArg Code.eval same)
  cases numbers with
  | label => rfl
  | value _ _ interns => exact interns.number_of_ne (differs other)
  | store _ _ interns _ => exact interns.number_of_ne (differs other)
  | effect _ _ interns => exact interns.number_of_ne (differs other)
  | plain _ => rfl

theorem Numbers.table (numbers : Numbers f c v v') (inside : e ∈ v'.table) :
    v.keys.length ≤ e.2.index ∨ e ∈ v.table ∧ ∀ l, c ≠ .label l := by
  cases numbers with
  | label => cases inside
  | value _ _ interns => exact (interns.table inside).imp_right fun old => ⟨old, nofun⟩
  | store _ _ interns _ =>
    exact (interns.table (List.mem_filter.mp inside).1).imp_right fun old => ⟨old, nofun⟩
  | effect _ _ interns => cases inside
  | plain plain =>
    refine .inr ⟨inside, ?_⟩
    rintro l rfl
    cases plain

theorem kids_keyOf {i : NodeId} (inside : i ∈ (v.keyOf n).kids) :
    ∃ k ∈ n.kids, v.number k = some i := by
  simp only [ValueKey.kids, keyOf, List.mem_append, Option.mem_toList,
    Option.bind_eq_some_iff] at inside
  rcases inside with ⟨k, left, number⟩ | ⟨k, right, number⟩
  · exact ⟨k, by simp [LinNode.kids, left], number⟩
  · exact ⟨k, by simp [LinNode.kids, right], number⟩

theorem sym_of_proper (proper : n.Proper) (address : n.op = .addr) : n.sym.isSome = true := by
  unfold LinNode.Proper at proper
  split at proper
  · exact proper
  · exact absurd address proper.2
  · exact absurd address proper
  · cases proper

theorem Consistent.known (consistent : v.Consistent f) (found : v.number l' = some id) (l : LinId)
    (table : List (ValueKey × NodeId)) :
    id.index < (v.issue l n table).keys.length ∧
      ((v.issue l n table).key id).ty = (f.node l').ty := by
  obtain ⟨bound, typed⟩ := consistent.numbers l' id found
  rw [key_issue bound]
  exact ⟨by simp only [issue, List.length_append]; omega, typed⟩

theorem Consistent.issue (consistent : v.Consistent f) (proper : (f.node l).Proper)
    {table : List (ValueKey × NodeId)}
    (entries : ∀ e ∈ table, e ∈ v.table ∨ e = (v.keyOf (f.node l), v.next)) :
    (v.issue l (f.node l) table).Consistent f where
  table e inside := by
    rcases entries e inside with old | rfl
    · exact Ledger.getElem?_concat_eq_some.mpr (.inl (consistent.table e old))
    · exact key_issue_next table
  kids k inside i operand := by
    simp only [Numbering.issue, List.length_append] at inside ⊢
    rcases List.mem_append.mp inside with old | new
    · have := consistent.kids k old i operand
      omega
    · rw [List.mem_singleton.mp new] at operand
      obtain ⟨l', -, number⟩ := kids_keyOf operand
      have := (consistent.numbers l' i number).1
      omega
  numbers l' id found := by
    by_cases same : l = l'
    · subst same
      rw [← number_assign_self found, key_eq (key_issue_next table)]
      exact ⟨by simp [Numbering.issue, next], rfl⟩
    · exact consistent.known ((number_assign_of_ne same).symm.trans found) l table
  addresses k inside address := by
    rcases List.mem_append.mp inside with old | new
    · exact consistent.addresses k old address
    · rw [List.mem_singleton.mp new] at address ⊢
      exact sym_of_proper proper address

theorem Consistent.survives_issue (consistent : v.Consistent f) (inside : e ∈ v.table)
    (sym : Symbol) (table : List (ValueKey × NodeId)) :
    (v.issue l n table).survives sym e.1 = v.survives sym e.1 := by
  have entry := List.mem_of_getElem? (consistent.table e inside)
  cases left : e.1.left with
  | none => simp only [survives, left]
  | some a =>
    have bound := consistent.kids e.1 entry a (by simp [ValueKey.kids, left])
    simp only [survives, left, key_issue bound]

theorem Consistent.interns (consistent : v.Consistent f) (proper : (f.node l).Proper)
    (interns : v.Interns l (f.node l) id v') : v'.Consistent f := by
  cases interns with
  | known _ found =>
    have entry := consistent.table _ found
    refine ⟨consistent.table, consistent.kids, fun l' id' number => ?_, consistent.addresses⟩
    by_cases same : l = l'
    · subst same
      rw [← number_assign_self number]
      refine ⟨(List.getElem?_eq_some_iff.mp entry).1, ?_⟩
      rw [show (v.assign l id).key id = v.key id from rfl, key_eq entry]
      rfl
    · exact consistent.numbers l' id' ((number_assign_of_ne same).symm.trans number)
  | new _ room =>
    refine consistent.issue proper fun e inside => ?_
    rcases List.mem_cons.mp inside with rfl | old
    · exact .inr rfl
    · rcases room with rfl | rfl
      · exact .inl old
      · cases old
  | single => exact consistent.issue proper fun e inside => .inl inside

theorem Consistent.sublist (consistent : v.Consistent f) {table : List (ValueKey × NodeId)}
    (fewer : ∀ e ∈ table, e ∈ v.table) : Consistent f { v with table } :=
  ⟨fun e inside => consistent.table e (fewer e inside), consistent.kids, consistent.numbers,
    consistent.addresses⟩

theorem Consistent.step (consistent : v.Consistent f)
    (proper : ∀ l, c = .eval l → (f.node l).Proper) (numbers : Numbers f c v v') :
    v'.Consistent f := by
  cases numbers with
  | label => exact consistent.sublist (by simp)
  | value _ _ interns => exact consistent.interns (proper _ rfl) interns
  | store _ _ interns _ =>
    refine (consistent.interns (proper _ rfl) interns).sublist fun e inside => ?_
    exact (List.mem_filter.mp inside).1
  | effect _ _ interns => exact (consistent.interns (proper _ rfl) interns).sublist (by simp)
  | plain _ => exact consistent

theorem NumbersAll.keys (all : NumbersAll f ps v v') : v.keys <+: v'.keys := by
  induction all with
  | nil => exact List.prefix_rfl
  | cons _ numbers _ ih => exact numbers.keys.trans ih

theorem NumbersAll.number_of_ne (all : NumbersAll f ps v v')
    (other : ∀ pos ∈ ps, f.codes[pos]? ≠ some (.eval l)) : v'.number l = v.number l := by
  induction all with
  | nil => rfl
  | cons here numbers _ ih =>
    rw [ih fun pos later => other pos (List.mem_cons_of_mem _ later)]
    refine numbers.number_of_ne fun same => other _ List.mem_cons_self ?_
    rw [here, same]

theorem NumbersAll.table (all : NumbersAll f ps v v') (inside : e ∈ v'.table) :
    v.keys.length ≤ e.2.index ∨
      e ∈ v.table ∧ ∀ pos ∈ ps, ∀ l, f.codes[pos]? ≠ some (.label l) := by
  induction all with
  | nil => exact .inr ⟨inside, nofun⟩
  | cons here numbers later ih =>
    rcases ih inside with new | ⟨kept, none⟩
    · exact .inl (Nat.le_trans numbers.keys.length_le new)
    · refine (numbers.table kept).imp_right fun ⟨old, other⟩ => ⟨old, fun pos inside l => ?_⟩
      rcases List.mem_cons.mp inside with rfl | there
      · rw [here]
        exact fun same => other l (Option.some.inj same)
      · exact none pos there l

theorem consistent_empty (f : LinearFunction) (nodes : Nat) :
    (∀ l, (⟨[], [], List.replicate nodes none⟩ : Numbering).number l = none) ∧
      (⟨[], [], List.replicate nodes none⟩ : Numbering).Consistent f := by
  have none (l : LinId) : (⟨[], [], List.replicate nodes none⟩ : Numbering).number l = none := by
    simp only [number, List.getElem?_replicate]
    split <;> rfl
  refine ⟨none, by simp, by simp, fun l id found => ?_, by simp⟩
  rw [none l] at found
  cases found

theorem Consistent.steps (consistent : v.Consistent f)
    (proper : ∀ (pos : Nat) (l : LinId), f.codes[pos]? = some (.eval l) → (f.node l).Proper)
    (all : NumbersAll f ps v v') : v'.Consistent f := by
  induction all with
  | nil => exact consistent
  | @cons pos c rest v v₁ v' here numbers _ ih =>
    refine ih (consistent.step (fun l same => proper pos l ?_) numbers)
    rw [here, same]

theorem numbersAll_append {before after : List Nat} :
    NumbersAll f (before ++ after) v v' ↔
      ∃ v₁, NumbersAll f before v v₁ ∧ NumbersAll f after v₁ v' := by
  induction before generalizing v with
  | nil =>
    constructor
    · intro all
      exact ⟨v, .nil, all⟩
    · rintro ⟨_, ⟨⟩, all⟩
      exact all
  | cons pos rest ih =>
    constructor
    · rintro ⟨⟩
      rename_i here numbers later
      obtain ⟨v₁, first, second⟩ := ih.mp later
      exact ⟨v₁, .cons here numbers first, second⟩
    · rintro ⟨v₁, ⟨⟩, second⟩
      rename_i here numbers first
      exact .cons here numbers (ih.mpr ⟨v₁, first, second⟩)

end Numbering

namespace ValuePool

variable {p : ValuePool} {r : Request} {c : ValueKey × Int} {id : NodeId}

theorem run_cases (p : ValuePool) (carries : r.carries? = some c) :
    (∃ id, (r.run p).1 = some id ∧ (c.1, id) ∈ p.table ∧ (r.run p).2.keys = p.keys ∧
        (r.run p).2.table = p.table) ∨
      (r.run p).1 = some ⟨p.size⟩ ∧ (r.run p).2.keys = p.keys ++ [c.1] ∧
        ∀ e ∈ (r.run p).2.table, e ∈ p.table ∨ e = (c.1, ⟨p.size⟩) := by
  cases r with
  | intern key =>
    cases carries
    rcases p.intern_cases key with ⟨found, keys, table⟩ | ⟨number, keys, kept, room, table⟩
    · exact .inl ⟨_, rfl, found, keys, table⟩
    rw [length_keys] at number table
    refine .inr ⟨congrArg some number, keys, fun e inside => ?_⟩
    rw [Request.run, table] at inside
    rcases List.mem_cons.mp inside with new | old
    · exact .inr new
    · rcases room with rfl | rfl
      · exact .inl old
      · cases old
  | fresh key aux =>
    cases carries
    exact .inr ⟨rfl, p.keys_push key aux, fun _ => .inl⟩
  | reset | invalidate => cases carries

theorem Request.issues (carries : r.carries? = some c) (p : ValuePool) :
    ∃ id, (r.run p).1 = some id := by
  rcases p.run_cases carries with ⟨id, issued, -⟩ | ⟨issued, -⟩
  · exact ⟨id, issued⟩
  · exact ⟨_, issued⟩

theorem keys_run (p : ValuePool) (r : Request) : p.keys <+: (r.run p).2.keys := by
  cases r with
  | intern key =>
    rcases p.intern_cases key with ⟨-, keys, -⟩ | ⟨-, keys, -⟩
    · exact ⟨[], (List.append_nil _).trans keys.symm⟩
    · exact ⟨[key], keys.symm⟩
  | fresh key aux => exact ⟨[key], (p.keys_push key aux).symm⟩
  | reset | invalidate => exact List.prefix_rfl

def Keyed (p : ValuePool) : Prop := ∀ e ∈ p.table, p.keys[e.2.index]? = some e.1

theorem Keyed.run (keyed : p.Keyed) (r : Request) : (r.run p).2.Keyed := by
  intro e inside
  have grown (old : e ∈ p.table) : (r.run p).2.keys[e.2.index]? = some e.1 :=
    getElem?_of_grown (p.keys_run r) (keyed e old)
  cases carries : r.carries? with
  | some c =>
    rcases p.run_cases carries with ⟨_, -, -, -, table⟩ | ⟨-, keys, table⟩
    · exact grown (table ▸ inside)
    · rcases table e inside with old | rfl
      · exact grown old
      · simp [keys, ← length_keys]
  | none =>
    cases r with
    | intern | fresh => cases carries
    | reset => cases inside
    | invalidate sym => exact grown (List.mem_filter.mp inside).1

theorem Keyed.carried (keyed : p.Keyed) (carries : r.carries? = some c)
    (issued : (r.run p).1 = some id) : (r.run p).2.keys[id.index]? = some c.1 := by
  rcases p.run_cases carries with ⟨id', answer, found, keys, -⟩ | ⟨answer, keys, -⟩
  · cases issued.symm.trans answer
    rw [keys]
    exact keyed _ found
  · cases issued.symm.trans answer
    simp [keys, ← length_keys]

end ValuePool

theorem UseCount.add_keys (seq fuel : Nat) (root : Bool) (id : NodeId) (c : UseCount) :
    (add seq fuel root id c).pool.keys = c.pool.keys ∧
      (add seq fuel root id c).pool.table = c.pool.table := by
  induction fuel generalizing root id c with
  | zero => exact ⟨rfl, rfl⟩
  | succ fuel ih =>
    have all (kids : List NodeId) (c : UseCount) :
        (kids.foldl (fun c k => add seq fuel false k c) c).pool.keys = c.pool.keys ∧
          (kids.foldl (fun c k => add seq fuel false k c) c).pool.table = c.pool.table := by
      induction kids generalizing c with
      | nil => exact ⟨rfl, rfl⟩
      | cons k rest ihk =>
        obtain ⟨keys, table⟩ := ihk (add seq fuel false k c)
        obtain ⟨keys', table'⟩ := ih false k c
        exact ⟨keys.trans keys', table.trans table'⟩
    have counted : (c.pool.modify id fun n => { n with
        lastRef := max n.lastRef seq
        pending := if root then n.pending else n.pending + 1 }).keys = c.pool.keys :=
      ValuePool.keys_modify _ _ fun _ => rfl
    simp only [add]
    refine iteInduction
      (motive := fun r : UseCount => r.pool.keys = c.pool.keys ∧ r.pool.table = c.pool.table)
      (fun _ => ?_) fun _ => ⟨counted, rfl⟩
    obtain ⟨keys, table⟩ := all _ _
    exact ⟨keys.trans counted, table⟩

theorem UseCount.capacity_add (seq fuel : Nat) (root : Bool) (id : NodeId) (c : UseCount) :
    (add seq fuel root id c).pool.capacity = c.pool.capacity := by
  induction fuel generalizing root id c with
  | zero => rfl
  | succ fuel ih =>
    have all (kids : List NodeId) (c : UseCount) :
        (kids.foldl (fun c k => add seq fuel false k c) c).pool.capacity = c.pool.capacity := by
      induction kids generalizing c with
      | nil => rfl
      | cons k rest ihk => exact (ihk _).trans (ih false k c)
    simp only [add]
    exact iteInduction (motive := fun r : UseCount => r.pool.capacity = c.pool.capacity)
      (fun _ => all _ _) fun _ => rfl

/-- What is asked for an operator with these operands. What has a side effect is never unified. -/
def LinNode.request? (n : LinNode) (left right : Option NodeId) : Option ValuePool.Request :=
  if n.op.hasSideEffect then some (.fresh ⟨n.op, n.ty, n.sym, left, right⟩ n.aux)
  else
    match left, right, n.sym with
    | none, none, some sym => some (.intern (.leaf n.op n.ty sym))
    | some k, none, _ => some (.intern (.unary n.op n.ty k))
    | some l, some r, sym => some (.intern (.binary n.op n.ty l r sym))
    | _, _, _ => none

/-- A key that says of an operator what numbering is to know of it. -/
structure LinNode.HasKey (n : LinNode) (left right : Option NodeId) (key : ValueKey) : Prop where
  op : key.op = n.op
  ty : key.ty = n.ty
  sym : ∀ s, key.sym = some s → n.sym = some s
  left : key.left = left
  right : key.right = right

theorem LinNode.request?_carries {n : LinNode} {left right : Option NodeId} {r : ValuePool.Request}
    (asks : n.request? left right = some r) : ∃ c, r.carries? = some c ∧ n.HasKey left right c.1 := by
  unfold request? at asks
  split at asks
  · cases asks
    exact ⟨_, rfl, rfl, rfl, fun _ => id, rfl, rfl⟩
  split at asks
  · rename_i names
    cases asks
    exact ⟨_, rfl, rfl, rfl, fun _ same => names.trans same, rfl, rfl⟩
  · cases asks
    refine ⟨_, rfl, rfl, rfl, fun _ names => ?_, rfl, rfl⟩
    cases names
  · cases asks
    exact ⟨_, rfl, rfl, rfl, fun _ => id, rfl, rfl⟩
  · cases asks

/-- Failures to number an operator: an operand has not been evaluated, or the operator lacks one. -/
def CompileError.unnumbered : CompileError → Bool
  | .invariant (.neverNumbered _) | .invariant (.malformedNode _)
  | .invariant (.aborted (.danglingNode _)) => true
  | _ => false

namespace Generator

def numbering (g : Generator) : Numbering := ⟨g.pool.keys, g.pool.table, g.numbers.toList⟩

theorem number_eq (g : Generator) (l : LinId) :
    g.numbering.number l = g.numbers[l.index]?.join := by
  rw [Numbering.number, numbering, Array.getElem?_toList]

def request? (g : Generator) (n : LinNode) : Option ValuePool.Request :=
  n.request? (n.left.bind g.numbering.number) (n.right.bind g.numbering.number)

end Generator

namespace Gen

open CBackend.Numbering

variable {f : LinearFunction} {g g' : Generator} {l : LinId} {id : NodeId} {met met' : List NodeId}

theorem numberOf_eq_ok : numberOf l g = .ok id g' ↔ g.numbering.number l = some id ∧ g = g' := by
  rw [Generator.number_eq, numberOf, bind_run (x := get) rfl]
  rcases g.numbers[l.index]? with _ | _ | id'
  · simp [throw_ne_ok]
  · simp [throw_ne_ok]
  · rw [pure_eq_ok]
    simp

theorem node_eq_ok {n : ValueNode} : node id g = .ok n g' ↔ g.pool.node id = n ∧ g = g' := by
  rw [node, bind_run (x := get) rfl, pure_eq_ok]

theorem numberOf_ends (l : LinId) (g : Generator) :
    Ends (numberOf l) g (fun id g' => g' = g ∧ g.numbering.number l = some id)
      fun e g' => g' = g ∧ e.unnumbered = true := by
  unfold numberOf
  refine .after_ok (x := get) rfl ?_
  rw [Generator.number_eq]
  rcases g.numbers[l.index]? with _ | _ | id
  · exact ⟨rfl, rfl⟩
  · exact ⟨rfl, rfl⟩
  · exact ⟨rfl, rfl⟩

theorem numberOf?_ends (l : Option LinId) (g : Generator) :
    Ends (numberOf? l) g
      (fun k g' => g' = g ∧ (∀ x ∈ l, ∃ i, g.numbering.number x = some i) ∧
        l.bind g.numbering.number = k)
      fun e g' => g' = g ∧ e.unnumbered = true := by
  cases l with
  | none =>
    refine ⟨rfl, fun _ inside => ?_, rfl⟩
    cases inside
  | some l =>
    refine .map ((numberOf_ends l g).imp fun id g' ⟨same, number⟩ => ⟨same, ?_, number⟩)
    rintro _ ⟨⟩
    exact ⟨id, number⟩

/-- Asks something of the pool for a linear node and notes the number that is issued. -/
def enter (l : LinId) (r : ValuePool.Request) : Gen NodeId :=
  modifyGet fun g =>
    let id := (r.run g.pool).1.getD default
    (id, { g with
      pool := (r.run g.pool).2
      numbers := g.numbers.setIfInBounds l.index (some id) })

theorem numberNode_eq (f : LinearFunction) (l : LinId) : numberNode f l =
    nodeAt f l >>= fun n => numberOf? n.left >>= fun left => numberOf? n.right >>= fun right =>
      match n.request? left right with
      | some r => enter l r
      | none => throw (.invariant (.malformedNode n.op)) := by
  unfold numberNode
  refine bind_congr fun n => bind_congr fun left => bind_congr fun right => ?_
  dsimp only
  unfold LinNode.request?
  cases n.op.hasSideEffect with
  | true => rfl
  | false =>
    cases left with
    | none => cases right <;> cases n.sym <;> rfl
    | some => cases right <;> rfl

theorem numberNode_ends (f : LinearFunction) (l : LinId) (g : Generator) :
    Ends (numberNode f l) g
      (fun id g' => (∀ k ∈ (f.node l).kids, ∃ i, g.numbering.number k = some i) ∧
        ∃ r, g.request? (f.node l) = some r ∧ r.run g.pool = (some id, g'.pool) ∧
          g'.numbers = g.numbers.setIfInBounds l.index (some id) ∧
          g' = { g with pool := g'.pool, numbers := g'.numbers })
      fun e g' => g' = g ∧ e.unnumbered = true := by
  rw [numberNode_eq, nodeAt_bind]
  split
  case isFalse => exact ⟨rfl, rfl⟩
  refine (numberOf?_ends _ g).bind fun left g₁ ⟨same, knownLeft, number⟩ => ?_
  subst g₁ left
  refine (numberOf?_ends _ g).bind fun right g₂ ⟨same, knownRight, number⟩ => ?_
  subst g₂ right
  cases asks : (f.node l).request? ((f.node l).left.bind g.numbering.number)
      ((f.node l).right.bind g.numbering.number) with
  | none => exact ⟨rfl, rfl⟩
  | some r =>
    obtain ⟨c, carries, -⟩ := LinNode.request?_carries asks
    obtain ⟨id, issued⟩ := r.issues carries g.pool
    refine ⟨fun k inside => ?_, r, asks, Prod.ext ?_ rfl, rfl, rfl⟩
    · rcases List.mem_append.mp inside with first | second
      · exact knownLeft k (Option.mem_toList.mp first)
      · exact knownRight k (Option.mem_toList.mp second)
    · simp only [issued, Option.getD_some]

theorem intern_interns {n : LinNode} (unifies : n.op.hasSideEffect = false) {k : ValueKey}
    (same : k = g.numbering.keyOf n) :
    g.numbering.Interns l n (g.pool.intern k).1
      ⟨(g.pool.intern k).2.keys, (g.pool.intern k).2.table,
        g.numbers.toList.set l.index (some (g.pool.intern k).1)⟩ := by
  subst same
  rcases g.pool.intern_cases (g.numbering.keyOf n) with
    ⟨found, keys, table⟩ | ⟨id, keys, kept, room, table⟩
  · rw [keys, table]
    exact .known unifies found
  · rw [keys, table, id]
    exact .new unifies room

theorem numberNode_eq_ok (ok : numberNode f l g = .ok id g') (proper : (f.node l).Proper) :
    (∀ k ∈ (f.node l).kids, ∃ i, g.numbering.number k = some i) ∧
      g.numbering.Interns l (f.node l) id g'.numbering := by
  obtain ⟨known, r, asks, answer, numbers, -⟩ := (numberNode_ends f l g).ok ok
  refine ⟨known, ?_⟩
  have next : g'.numbering = ⟨(r.run g.pool).2.keys, (r.run g.pool).2.table,
      g.numbers.toList.set l.index (some id)⟩ := by
    rw [answer, Generator.numbering, numbers, Array.toList_setIfInBounds]
  have issued : (r.run g.pool).1 = some id := congrArg Prod.fst answer
  rw [next]
  clear ok answer numbers next
  generalize f.node l = n at known asks proper ⊢
  cases effect : n.op.hasSideEffect with
  | true =>
    unfold Generator.request? LinNode.request? at asks
    rw [if_pos effect] at asks
    cases asks
    cases issued
    rw [ValuePool.Request.run, ValuePool.fresh, ValuePool.keys_push, ValuePool.fst_push]
    exact .single effect
  | false =>
    have interned : r = .intern (g.numbering.keyOf n) := by
      obtain ⟨op, ty, left, right, sym, aux⟩ := n
      unfold Generator.request? LinNode.request? at asks
      rw [if_neg (by simp [effect])] at asks
      cases left with
      | none =>
        cases right with
        | none =>
          obtain ⟨sym, rfl⟩ := Option.isSome_iff_exists.mp proper
          exact (Option.some.inj asks).symm
        | some k => exact proper.elim
      | some k =>
        obtain ⟨i, number⟩ := known k (by simp [LinNode.kids])
        cases right with
        | none =>
          obtain rfl : sym = none := proper.1
          simp only [Option.bind_some, Option.bind_none, number, Option.some.injEq] at asks
          simp only [← asks, keyOf, Option.bind_some, Option.bind_none, number, ValueKey.unary]
        | some k' =>
          obtain ⟨j, number'⟩ := known k' (by simp [LinNode.kids])
          simp only [Option.bind_some, number, number', Option.some.injEq] at asks
          simp only [← asks, keyOf, Option.bind_some, number, number', ValueKey.binary]
    subst interned
    cases issued
    exact intern_interns effect rfl

theorem mem_of_getD {pos : Nat} (code : f.codes.getD pos default = .eval l) :
    .eval l ∈ f.codes := by
  rw [Array.getD_eq_getD_getElem?] at code
  cases here : f.codes[pos]? with
  | none =>
    rw [here] at code
    cases code
  | some c =>
    rw [here] at code
    cases code
    exact Array.mem_of_getElem? here

/-- A property that the steps of numbering have and that goes from steps to what is made of them. -/
structure NumberingRules (f : LinearFunction) (P : {α : Type} → Gen α → Prop) : Prop where
  pure {α : Type} (a : α) : P (pure a)
  bind {α β : Type} {x : Gen α} {k : α → Gen β} (first : P x) (rest : ∀ a, P (k a)) : P (x >>= k)
  read {α : Type} {k : Generator → Gen α} (pool : ∀ g g', g'.pool = g.pool → k g' = k g)
    (rest : ∀ g, P (k g)) : P (get >>= k)
  start : P (modify fun g : Generator => { g with numbers := Array.replicate f.nodes.size none })
  numberNode (l : LinId) (evaluated : .eval l ∈ f.codes) : P (numberNode f l)
  numberOf (l : LinId) : P (numberOf l)
  countUse (seq : Nat) (root : Bool) (id : NodeId) (met : List NodeId) :
    P (countUse seq root id met)
  reset : P (onPool ValuePool.reset)
  invalidate (sym : Symbol) : P (onPool (·.invalidate sym))

namespace NumberingRules

variable {P : {α : Type} → Gen α → Prop}

theorem numberCode (rules : NumberingRules f P) (met : List NodeId) (pos : Nat) :
    P (numberCode f met pos) := by
  have counts (root : Bool) (l : LinId) :
      P (Gen.numberOf l >>= fun id => Gen.countUse pos root id met) :=
    rules.bind (rules.numberOf l) fun id => rules.countUse pos root id met
  unfold Gen.numberCode
  split
  · exact rules.bind rules.reset fun _ => rules.pure met
  · rename_i code
    refine rules.bind (rules.numberNode _ (mem_of_getD code)) fun id => ?_
    refine rules.bind (rules.read (fun g g' same => by rw [same]) fun g => rules.pure _) fun n => ?_
    split
    · refine rules.read (fun g g' same => by rw [same]) fun g => ?_
      refine rules.bind (rules.countUse pos true id met) fun met => ?_
      dsimp only
      split
      · exact rules.bind (rules.invalidate _) fun _ => rules.pure met
      · exact rules.bind rules.reset fun _ => rules.pure met
    · refine rules.bind (rules.countUse pos true id met) fun met => ?_
      exact rules.bind rules.reset fun _ => rules.pure met
    · exact rules.pure met
  · exact counts false _
  · exact counts false _
  · exact counts false _
  · exact counts true _
  · exact rules.pure met

theorem numberValues (rules : NumberingRules f P) (graph : FlowGraph) : P (numberValues f graph) := by
  have codes (ps : List Nat) (met : List NodeId) : P (ps.foldlM (Gen.numberCode f) met) := by
    induction ps generalizing met with
    | nil => exact rules.pure met
    | cons pos rest ih =>
      rw [List.foldlM_cons]
      exact rules.bind (rules.numberCode met pos) ih
  refine rules.bind rules.start fun _ => rules.bind (codes _ []) fun _ => rules.pure _

end NumberingRules

theorem countUse_eq_ok {seq : Nat} {root : Bool} (ok : countUse seq root id met g = .ok met' g') :
    g'.numbering = g.numbering := by
  rw [countUse, modifyGet_eq_ok] at ok
  cases ok
  obtain ⟨keys, table⟩ := UseCount.add_keys seq (id.index + 1) root id ⟨g.pool, met⟩
  simp only [Generator.numbering, keys, table]

theorem storeTarget?_eq (pool : ValuePool) (v : Numbering) (same : pool.keys = v.keys)
    (id : NodeId) : storeTarget? pool id = v.target? id := by
  unfold storeTarget? target?
  simp only [ValueNode.op, ValuePool.key_node, key, same]
  cases (v.keys.getD id.index default).left with
  | none => rfl
  | some a => rfl

theorem survives_eq (pool : ValuePool) (v : Numbering) (same : pool.keys = v.keys) (sym : Symbol)
    (k : ValueKey) : pool.survives sym k = v.survives sym k := by
  unfold ValuePool.survives Numbering.survives
  cases k.left with
  | none => rfl
  | some a => simp only [ValueNode.op, ValuePool.key_node, key, same]

theorem numbering_reset (g : Generator) :
    ({ g with pool := g.pool.reset } : Generator).numbering = g.numbering.forget := rfl

theorem numbering_invalidate (g : Generator) (sym : Symbol) :
    ({ g with pool := g.pool.invalidate sym } : Generator).numbering =
      g.numbering.invalidate sym := by
  have same : (fun e : ValueKey × NodeId => g.pool.survives sym e.1) =
      fun e => g.numbering.survives sym e.1 := by
    funext e
    exact survives_eq g.pool g.numbering rfl sym e.1
  simp only [Generator.numbering, ValuePool.invalidate, Numbering.invalidate, same]
  rfl

theorem numberCode_eq_ok {pos : Nat} {c : Code} (ok : numberCode f met pos g = .ok met' g')
    (here : f.codes[pos]? = some c) (proper : ∀ l, c = .eval l → (f.node l).Proper)
    (consistent : g.numbering.Consistent f) : Numbers f c g.numbering g'.numbering := by
  have same : f.codes.getD pos default = c := by rw [Array.getD_eq_getD_getElem?, here]; rfl
  rw [numberCode, same] at ok
  cases c with
  | label l =>
    obtain ⟨_, g₁, run, ok⟩ := bind_eq_ok.mp ok
    obtain ⟨rfl, rfl⟩ := pure_eq_ok.mp ok
    rw [← modify_eq_ok.mp run]
    exact .label
  | eval l =>
    obtain ⟨id, g₁, run, ok⟩ := bind_eq_ok.mp ok
    obtain ⟨ready, interns⟩ := numberNode_eq_ok run (proper l rfl)
    obtain ⟨n, g₂, read, ok⟩ := bind_eq_ok.mp ok
    obtain ⟨rfl, rfl⟩ := node_eq_ok.mp read
    have op : (g₁.pool.node id).op = (f.node l).op := by
      rw [ValueNode.op, ValuePool.key_node]
      exact congrArg ValueKey.op (key_eq (interns.key consistent))
    rw [op] at ok
    cases kind : (f.node l).op with
    | assign =>
      rw [kind] at ok
      obtain ⟨g₂, g₃, read, ok⟩ := bind_eq_ok.mp ok
      obtain ⟨rfl, rfl⟩ := get_eq_ok.mp read
      obtain ⟨met₁, g₂, run, ok⟩ := bind_eq_ok.mp ok
      have counted := countUse_eq_ok run
      rw [storeTarget?_eq _ g₁.numbering rfl] at ok
      cases target : g₁.numbering.target? id with
      | none =>
        rw [target] at ok
        obtain ⟨_, g₃, run, ok⟩ := bind_eq_ok.mp ok
        obtain ⟨rfl, rfl⟩ := pure_eq_ok.mp ok
        rw [← modify_eq_ok.mp run, numbering_reset, counted]
        exact .effect (by rw [kind]; rfl) ready interns
      | some sym =>
        rw [target] at ok
        obtain ⟨_, g₃, run, ok⟩ := bind_eq_ok.mp ok
        obtain ⟨rfl, rfl⟩ := pure_eq_ok.mp ok
        rw [← modify_eq_ok.mp run, numbering_invalidate, counted]
        exact .store kind ready interns target
    | call =>
      rw [kind] at ok
      obtain ⟨met₁, g₂, run, ok⟩ := bind_eq_ok.mp ok
      have counted := countUse_eq_ok run
      obtain ⟨_, g₃, run, ok⟩ := bind_eq_ok.mp ok
      obtain ⟨rfl, rfl⟩ := pure_eq_ok.mp ok
      rw [← modify_eq_ok.mp run, numbering_reset, counted]
      exact .effect (by rw [kind]; rfl) ready interns
    | _ =>
      rw [kind] at ok
      obtain ⟨rfl, rfl⟩ := pure_eq_ok.mp ok
      exact .value (by rw [kind]; rfl) ready interns
  | arg l =>
    obtain ⟨id, g₁, run, ok⟩ := bind_eq_ok.mp ok
    obtain ⟨-, rfl⟩ := numberOf_eq_ok.mp run
    rw [countUse_eq_ok ok]
    exact .plain rfl
  | branch l target =>
    obtain ⟨id, g₁, run, ok⟩ := bind_eq_ok.mp ok
    obtain ⟨-, rfl⟩ := numberOf_eq_ok.mp run
    rw [countUse_eq_ok ok]
    exact .plain rfl
  | ret value =>
    cases value with
    | none =>
      obtain ⟨rfl, rfl⟩ := pure_eq_ok.mp ok
      exact .plain rfl
    | some l =>
      obtain ⟨id, g₁, run, ok⟩ := bind_eq_ok.mp ok
      obtain ⟨-, rfl⟩ := numberOf_eq_ok.mp run
      rw [countUse_eq_ok ok]
      exact .plain rfl
  | zeroFill l bytes =>
    obtain ⟨id, g₁, run, ok⟩ := bind_eq_ok.mp ok
    obtain ⟨-, rfl⟩ := numberOf_eq_ok.mp run
    rw [countUse_eq_ok ok]
    exact .plain rfl
  | _ =>
    obtain ⟨rfl, rfl⟩ := pure_eq_ok.mp ok
    exact .plain rfl

theorem numberCodes_eq_ok {ps : List Nat} (ok : ps.foldlM (numberCode f) met g = .ok met' g')
    (inside : ∀ pos ∈ ps, pos < f.codes.size)
    (proper : ∀ (pos : Nat) (l : LinId), f.codes[pos]? = some (.eval l) → (f.node l).Proper)
    (consistent : g.numbering.Consistent f) : NumbersAll f ps g.numbering g'.numbering := by
  induction ps generalizing met g with
  | nil =>
    obtain ⟨rfl, rfl⟩ := pure_eq_ok.mp ok
    exact .nil
  | cons pos rest ih =>
    rw [List.foldlM_cons] at ok
    obtain ⟨met₁, g₁, run, ok⟩ := bind_eq_ok.mp ok
    obtain ⟨c, here⟩ : ∃ c, f.codes[pos]? = some c :=
      ⟨_, Array.getElem?_eq_getElem (inside pos List.mem_cons_self)⟩
    have ready (l : LinId) (same : c = .eval l) : (f.node l).Proper :=
      proper pos l (here.trans (congrArg some same))
    have numbers := numberCode_eq_ok run here ready consistent
    exact .cons here numbers (ih ok (fun pos later => inside pos (List.mem_cons_of_mem _ later))
      (consistent.step ready numbers))

theorem numberValues_eq_ok {graph : FlowGraph} (ok : numberValues f graph g = .ok () g')
    (empty : g.pool.keys = []) (forgot : g.pool.table = [])
    (inside : ∀ pos ∈ graph.visited, pos < f.codes.size)
    (proper : ∀ (pos : Nat) (l : LinId), f.codes[pos]? = some (.eval l) → (f.node l).Proper) :
    ∃ v, v.table = [] ∧ (∀ l, v.number l = none) ∧ v.Consistent f ∧
      NumbersAll f graph.visited v g'.numbering := by
  obtain ⟨_, g₁, cleared, ok⟩ := bind_eq_ok.mp ok
  rw [← modify_eq_ok.mp cleared] at ok
  obtain ⟨met, g₂, run, ok⟩ := bind_eq_ok.mp ok
  obtain ⟨-, rfl⟩ := pure_eq_ok.mp ok
  have start : ({ g with numbers := Array.replicate f.nodes.size none } : Generator).numbering =
      ⟨[], [], List.replicate f.nodes.size none⟩ := by
    rw [Generator.numbering, empty, forgot, Array.toList_replicate]
  obtain ⟨none, consistent⟩ := consistent_empty f f.nodes.size
  rw [← start] at none consistent
  exact ⟨_, forgot, none, consistent, numberCodes_eq_ok run inside proper consistent⟩

end Gen

end CBackend
