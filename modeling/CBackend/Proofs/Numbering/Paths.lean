import Mathlib.Logic.Function.Basic
import Mathlib.Order.Basic
import CBackend.Proofs.Lowering.Assembly
import CBackend.Proofs.Numbering.Table

/-!
Paths through linear code and the values on them. What operators compute is left open, up to what
is assumed of memory: a variable is an object of its own, and an access through its address stays
inside it. Calls and stores through other addresses may change any object.
-/

namespace CBackend

/-- What operators mean, with a memory of one object for each symbol. -/
structure Meaning (V O : Type) where
  apply : Op → CType → Option Symbol → List (CType × V) → V
  address : Symbol → V
  read : CType → V → (Symbol → O) → V
  write : CType → V → V → (Symbol → O) → Symbol → O
  read_address : ∀ ty sym m m', m sym = m' sym →
    read ty (address sym) m = read ty (address sym) m'
  write_address : ∀ ty sym v m other, other ≠ sym → write ty (address sym) v m other = m other

variable {V O : Type}

/-- The value of an operator; operands come with their types. -/
def Meaning.value (M : Meaning V O) (op : Op) (ty : CType) (sym : Option Symbol)
    (operands : List (CType × V)) (memory : Symbol → O) : V :=
  match op, sym, operands with
  | .addr, some s, _ => M.address s
  | .load, _, a :: _ => M.read ty a.2 memory
  | _, _, _ => M.apply op ty sym operands

structure Moment (V O : Type) where
  pos : Nat
  values : LinId → V
  memory : Symbol → O
  last : Nat → Option V

namespace Moment

def start (values : LinId → V) (memory : Symbol → O) : Moment V O :=
  ⟨0, values, memory, fun _ => none⟩

/-- The value of an operator from its operands and the memory of the moment. -/
def compute (M : Meaning V O) (f : LinearFunction) (m : Moment V O) (l : LinId) : V :=
  M.value (f.node l).op (f.node l).ty (f.node l).sym
    ((f.node l).kids.map fun k => ((f.node k).ty, m.values k)) m.memory

def record (m : Moment V O) (l : LinId) (v : V) (memory : Symbol → O) (next : Nat) :
    Moment V O :=
  ⟨next, Function.update m.values l v, memory, Function.update m.last m.pos (some v)⟩

/-- One code of a path. The values of assignments and calls are any values at all. -/
inductive Step (M : Meaning V O) (f : LinearFunction) : Moment V O → Moment V O → Prop
  | value {m : Moment V O} {l : LinId} {next : Nat} (here : f.codes[m.pos]? = some (.eval l))
      (unifies : (f.node l).op.hasSideEffect = false) (follows : f.Follows m.pos next) :
      Step M f m (m.record l (m.compute M f l) m.memory next)
  | store {m : Moment V O} {l a x : LinId} {v : V} {next : Nat}
      (here : f.codes[m.pos]? = some (.eval l)) (stores : (f.node l).op = .assign)
      (left : (f.node l).left = some a) (right : (f.node l).right = some x)
      (follows : f.Follows m.pos next) :
      Step M f m (m.record l v (M.write (f.node l).ty (m.values a) (m.values x) m.memory) next)
  | call {m : Moment V O} {l : LinId} {v : V} {memory : Symbol → O} {next : Nat}
      (here : f.codes[m.pos]? = some (.eval l)) (calls : (f.node l).op = .call)
      (follows : f.Follows m.pos next) : Step M f m (m.record l v memory next)
  | fill {m : Moment V O} {c : Code} {memory : Symbol → O} {next : Nat}
      (here : f.codes[m.pos]? = some c) (fills : c.isFill = true)
      (follows : f.Follows m.pos next) : Step M f m { m with pos := next, memory }
  | other {m : Moment V O} {c : Code} {next : Nat} (here : f.codes[m.pos]? = some c)
      (silent : c.lin? = none) (keeps : c.isFill = false) (follows : f.Follows m.pos next) :
      Step M f m { m with pos := next }

end Moment

namespace Numbering

open Ledger (Closed GoesTo)

/-- What is known of a function whose codes are numbered from `v₀` to `w`. -/
structure Numbered (f : LinearFunction) (visited : List Nat) (v₀ w : Numbering) : Prop where
  sorted : visited.Pairwise (· < ·)
  begins : 0 ∈ visited
  closed : ∀ i j, i ∈ visited → f.Follows i j → j ∈ visited
  all : NumbersAll f visited v₀ w
  empty : v₀.table = []
  none : ∀ l, v₀.number l = none
  consistent : v₀.Consistent f
  proper : ∀ (pos : Nat) (l : LinId), f.codes[pos]? = some (.eval l) → (f.node l).Proper
  once : ∀ (i j : Nat) (l : LinId), f.codes[i]? = some (.eval l) →
    f.codes[j]? = some (.eval l) → i = j
  fill : ∀ (pos : Nat) (c : Code), f.codes[pos]? = some c → c.isFill = false
  reads : ∀ (pos : Nat) (l : LinId), f.codes[pos]? = some (.eval l) → ∀ k ∈ (f.node l).kids,
    ∃ a < pos, f.codes[a]? = some (.eval k) ∧ Closed f.exit f.codes.toList a pos

structure Around (f : LinearFunction) (visited : List Nat) (v₀ w : Numbering) (pos : Nat)
    (v v' : Numbering) (before after : List Nat) (c : Code) : Prop where
  place : visited = before ++ pos :: after
  earlier : NumbersAll f before v₀ v
  here : f.codes[pos]? = some c
  numbers : Numbers f c v v'
  later : NumbersAll f after v' w

variable {f : LinearFunction} {visited before after : List Nat} {v₀ w v v' : Numbering}
  {pos p : Nat} {c : Code} {l : LinId} {memory : Symbol → O} {e : ValueKey × NodeId} {k : ValueKey}

theorem Numbered.around (numbered : Numbered f visited v₀ w) (visits : pos ∈ visited) :
    ∃ v v' before after c, Around f visited v₀ w pos v v' before after c := by
  obtain ⟨before, after, place⟩ := List.append_of_mem visits
  have all := numbered.all
  rw [place] at all
  obtain ⟨v, earlier, rest⟩ := numbersAll_append.mp all
  cases rest with
  | cons here numbers later => exact ⟨v, _, before, after, _, place, earlier, here, numbers, later⟩

namespace Around

theorem visits (around : Around f visited v₀ w pos v v' before after c) : pos ∈ visited := by
  rw [around.place]
  simp

theorem ordered (around : Around f visited v₀ w pos v v' before after c)
    (numbered : Numbered f visited v₀ w) :
    (∀ p ∈ before, p < pos) ∧ ∀ p ∈ after, pos < p := by
  have sorted := numbered.sorted
  rw [around.place, List.pairwise_append] at sorted
  obtain ⟨-, later, across⟩ := sorted
  exact ⟨fun p inside => across p inside pos List.mem_cons_self,
    (List.pairwise_cons.mp later).1⟩

theorem next (around : Around f visited v₀ w pos v v' before after c)
    (numbered : Numbered f visited v₀ w) (visits : pos + 1 ∈ visited) :
    ∃ v'' before after c, Around f visited v₀ w (pos + 1) v' v'' before after c := by
  obtain ⟨below, above⟩ := around.ordered numbered
  have inside : pos + 1 ∈ after := by
    rw [around.place] at visits
    rcases List.mem_append.mp visits with old | rest
    · have := below _ old
      omega
    · rcases List.mem_cons.mp rest with same | later
      · omega
      · exact later
  have sorted := numbered.sorted
  rw [around.place, List.pairwise_append] at sorted
  have tail := (List.pairwise_cons.mp sorted.2.1).2
  cases around.later with
  | nil => cases inside
  | @cons p c' rest _ v'' _ here numbers later =>
    have first : p = pos + 1 := by
      have := above p List.mem_cons_self
      rcases List.mem_cons.mp inside with same | there
      · exact same.symm
      · have := (List.pairwise_cons.mp tail).1 _ there
        omega
    subst first
    refine ⟨v'', before ++ [pos], rest, c', ?_, ?_, here, numbers, later⟩
    · rw [around.place, List.append_assoc]
      rfl
    · exact numbersAll_append.mpr ⟨v, around.earlier, .cons around.here around.numbers .nil⟩

theorem first (around : Around f visited v₀ w 0 v v' before after c)
    (numbered : Numbered f visited v₀ w) : v = v₀ := by
  cases before with
  | nil =>
    cases around.earlier
    rfl
  | cons p rest =>
    have := (around.ordered numbered).1 p List.mem_cons_self
    omega

theorem final (around : Around f visited v₀ w pos v v' before after c)
    (numbered : Numbered f visited v₀ w) {a : Nat} (evaluated : f.codes[a]? = some (.eval l)) :
    (a < pos → w.number l = v.number l) ∧ (a ≤ pos → w.number l = v'.number l) := by
  obtain ⟨-, above⟩ := around.ordered numbered
  have after' (upTo : a ≤ pos) : w.number l = v'.number l := by
    refine around.later.number_of_ne fun p inside found => ?_
    have := above p inside
    have := numbered.once a p l evaluated found
    omega
  refine ⟨fun below => ?_, after'⟩
  rw [after' (Nat.le_of_lt below)]
  refine around.numbers.number_of_ne fun same => ?_
  have := numbered.once a pos l evaluated (by rw [around.here, same])
  omega

theorem consistent (around : Around f visited v₀ w pos v v' before after c)
    (numbered : Numbered f visited v₀ w) : v.Consistent f ∧ v'.Consistent f ∧ w.Consistent f := by
  have first := numbered.consistent.steps numbered.proper around.earlier
  have second : v'.Consistent f := by
    refine first.step (fun l same => numbered.proper pos l ?_) around.numbers
    rw [around.here, same]
  exact ⟨first, second, second.steps numbered.proper around.later⟩

end Around

def Straight (f : LinearFunction) (a pos : Nat) : Prop :=
  ∀ t, a < t → t ≤ pos → ∀ s, f.codes[t]? ≠ some (.label s)

/-- A value that was evaluated on every path to `pos` and may still be used: no label has been
passed since, or none that can be reached without passing the evaluation. -/
def Active (f : LinearFunction) (pos : Nat) (l : LinId) : Prop :=
  ∃ a < pos, f.codes[a]? = some (.eval l) ∧
    (Straight f a pos ∨ ∃ stop, pos ≤ stop ∧ Closed f.exit f.codes.toList a stop)

def meaning (M : Meaning V O) (w : Numbering) (ν : NodeId → V) (memory : Symbol → O)
    (k : ValueKey) : V :=
  M.value k.op k.ty k.sym (k.kids.map fun i => ((w.key i).ty, ν i)) memory

/-- Each number has a value, which is the value of the operators that have it and, for those in the
table, the value of their keys now. -/
structure Agrees (M : Meaning V O) (f : LinearFunction) (visited : List Nat) (w v : Numbering)
    (m : Moment V O) (ν : NodeId → V) : Prop where
  values : ∀ l, Active f m.pos l → ∀ n, w.number l = some n → m.values l = ν n
  table : (∀ s, f.codes[m.pos]? ≠ some (.label s)) → ∀ e ∈ v.table,
    ν e.2 = meaning M w ν m.memory e.1
  addresses : ∀ n s, (w.key n).op = .addr → (w.key n).sym = some s → ν n = M.address s
  recent : ∀ a < m.pos, Straight f a m.pos → a ∈ visited ∧
    ∀ l, f.codes[a]? = some (.eval l) → m.last a = some (m.values l)

variable {M : Meaning V O} {m : Moment V O} {ν : NodeId → V}

theorem straight_succ {a : Nat} (straight : Straight f a (pos + 1)) : Straight f a pos :=
  fun t after upTo => straight t after (Nat.le_succ_of_le upTo)

theorem Active.succ (active : Active f (pos + 1) l) :
    f.codes[pos]? = some (.eval l) ∨ Active f pos l := by
  obtain ⟨a, below, evaluated, kept⟩ := active
  rcases Nat.lt_or_eq_of_le (Nat.le_of_lt_succ below) with before | rfl
  · refine .inr ⟨a, before, evaluated, ?_⟩
    rcases kept with straight | ⟨stop, upTo, closed⟩
    · exact .inl (straight_succ straight)
    · exact .inr ⟨stop, by omega, closed⟩
  · exact .inl evaluated

theorem Active.jump {s : Symbol} {j : Nat} (active : Active f j l)
    (there : f.codes[j]? = some (.label s)) (here : f.codes[pos]? = some c)
    (target : c.target? f.exit = some s) : Active f pos l := by
  obtain ⟨a, below, evaluated, kept⟩ := active
  rcases kept with straight | ⟨stop, upTo, closed⟩
  · exact absurd there (straight j below (Nat.le_refl j) s)
  · have inside := closed j s pos below upTo (by simpa using there) ⟨c, by simpa using here, target⟩
    exact ⟨a, inside.1, evaluated, .inr ⟨stop, inside.2, closed⟩⟩

theorem Numbered.active (numbered : Numbered f visited v₀ w) {k : LinId}
    (here : f.codes[pos]? = some (.eval l)) (operand : k ∈ (f.node l).kids) : Active f pos k := by
  obtain ⟨a, below, evaluated, closed⟩ := numbered.reads pos l here k operand
  exact ⟨a, below, evaluated, .inr ⟨pos, Nat.le_refl pos, closed⟩⟩

theorem Agrees.operand (agrees : Agrees M f visited w v m ν) (numbered : Numbered f visited v₀ w)
    (around : Around f visited v₀ w m.pos v v' before after c) {k : LinId} {i : NodeId}
    (here : f.codes[m.pos]? = some (.eval l)) (operand : k ∈ (f.node l).kids)
    (number : v.number k = some i) : m.values k = ν i ∧ (w.key i).ty = (f.node k).ty := by
  obtain ⟨a, below, evaluated, closed⟩ := numbered.reads m.pos l here k operand
  have final := ((around.final numbered evaluated).1 below).trans number
  exact ⟨agrees.values k (numbered.active here operand) i final,
    ((around.consistent numbered).2.2.numbers k i final).2⟩

theorem Agrees.compute_eq (agrees : Agrees M f visited w v m ν) (numbered : Numbered f visited v₀ w)
    (around : Around f visited v₀ w m.pos v v' before after c)
    (here : f.codes[m.pos]? = some (.eval l))
    (ready : ∀ k ∈ (f.node l).kids, ∃ i, v.number k = some i) :
    m.compute M f l = meaning M w ν m.memory (v.keyOf (f.node l)) := by
  have side (o : Option LinId) (inside : ∀ k ∈ o, k ∈ (f.node l).kids) :
      (o.toList.map fun k => ((f.node k).ty, m.values k)) =
        (o.bind v.number).toList.map fun i => ((w.key i).ty, ν i) := by
    cases o with
    | none => rfl
    | some k =>
      obtain ⟨i, number⟩ := ready k (inside k rfl)
      obtain ⟨value, typed⟩ := agrees.operand numbered around here (inside k rfl) number
      simp [number, value, typed]
  have operands : ((f.node l).kids.map fun k => ((f.node k).ty, m.values k)) =
      (v.keyOf (f.node l)).kids.map fun i => ((w.key i).ty, ν i) := by
    rw [LinNode.kids, ValueKey.kids, List.map_append, List.map_append, keyOf]
    rw [side _ fun k left => by simp [LinNode.kids, Option.mem_def.mp left],
      side _ fun k right => by simp [LinNode.kids, Option.mem_def.mp right]]
  rw [Moment.compute, meaning, operands]
  rfl

theorem meaning_congr {ν' : NodeId → V} (same : ∀ i ∈ k.kids, ν' i = ν i) :
    meaning M w ν' memory k = meaning M w ν memory k := by
  have operands : (k.kids.map fun i => ((w.key i).ty, ν' i)) =
      k.kids.map fun i => ((w.key i).ty, ν i) :=
    List.map_congr_left fun i inside => by rw [same i inside]
  rw [meaning, meaning, operands]

theorem meaning_of_ne_load {memory' : Symbol → O} (other : k.op ≠ .load) :
    meaning M w ν memory k = meaning M w ν memory' k := by
  unfold meaning Meaning.value
  split
  · rfl
  · exact absurd ‹k.op = .load› other
  · rfl

theorem Agrees.eval (agrees : Agrees M f visited w v m ν) (numbered : Numbered f visited v₀ w)
    (around : Around f visited v₀ w m.pos v v' before after c) {id : NodeId} {x : V}
    {v₁ : Numbering} (here : f.codes[m.pos]? = some (.eval l))
    (interns : v.Interns l (f.node l) id v₁) (numbers : v'.numbers = v₁.numbers)
    (keys : v'.keys = v₁.keys) (settled : id = v.next ∨ ν id = x)
    (address : ∀ s, (f.node l).op = .addr → (f.node l).sym = some s → x = M.address s)
    (table : ∀ e ∈ v'.table, Function.update ν id x e.2 = meaning M w (Function.update ν id x)
      memory e.1) :
    Agrees M f visited w v' (m.record l x memory (m.pos + 1)) (Function.update ν id x) := by
  obtain ⟨consistent, -, -⟩ := around.consistent numbered
  have others {a : Nat} {k : LinId} (below : a < m.pos) (evaluated : f.codes[a]? = some (.eval k)) :
      k ≠ l := by
    rintro rfl
    have := numbered.once a m.pos k evaluated here
    omega
  refine ⟨fun k active n number => ?_, fun _ => table, fun n s op sym => ?_,
    fun a below straight => ?_⟩
  · rcases active.succ with now | active
    · cases here.symm.trans now
      have final := ((around.final numbered here).2 (Nat.le_refl _)).symm.trans number
      rw [Numbering.number, numbers] at final
      rw [interns.number_self final]
      simp [Moment.record]
    · have old := agrees.values k active n number
      obtain ⟨a, below, evaluated, -⟩ := active
      have bound : n.index < v.keys.length :=
        (consistent.numbers k n (((around.final numbered evaluated).1 below).symm.trans number)).1
      have kept : Function.update ν id x n = ν n := by
        rcases settled with rfl | same
        · refine Function.update_of_ne ?_ _ _
          rintro rfl
          exact Nat.lt_irrefl _ bound
        · rw [← same, Function.update_eq_self]
      rw [kept, ← old]
      exact Function.update_of_ne (others below evaluated) _ _
  · by_cases same : n = id
    · subst same
      rw [Function.update_self]
      have entry := interns.key consistent
      rw [← keys] at entry
      have key := key_of_prefix around.later.keys entry
      rw [key] at op sym
      exact address s op sym
    · rw [Function.update_of_ne same]
      exact agrees.addresses n s op sym
  · rcases Nat.lt_or_eq_of_le (Nat.le_of_lt_succ below) with before | rfl
    · obtain ⟨visits, last⟩ := agrees.recent a before (straight_succ straight)
      refine ⟨visits, fun k evaluated => ?_⟩
      simp only [Moment.record]
      rw [Function.update_of_ne (Nat.ne_of_lt before),
        Function.update_of_ne (others before evaluated)]
      exact last k evaluated
    · refine ⟨around.visits, fun k evaluated => ?_⟩
      cases here.symm.trans evaluated
      simp [Moment.record]

theorem Consistent.meaning_update (consistent : v.Consistent f) (inside : e ∈ v.table) (x : V)
    (memory : Symbol → O) :
    Function.update ν v.next x e.2 = ν e.2 ∧
      meaning M w (Function.update ν v.next x) memory e.1 = meaning M w ν memory e.1 := by
  have entry := consistent.table e inside
  have below {i : NodeId} (bound : i.index < v.keys.length) :
      Function.update ν v.next x i = ν i := by
    refine Function.update_of_ne ?_ _ _
    rintro rfl
    exact Nat.lt_irrefl _ bound
  refine ⟨below (List.getElem?_eq_some_iff.mp entry).1, meaning_congr fun i operand => ?_⟩
  exact below (consistent.kids e.1 (List.mem_of_getElem? entry) i operand)

theorem Consistent.meaning_new (consistent : v.Consistent f) (n : LinNode) (x : V)
    (memory : Symbol → O) :
    meaning M w (Function.update ν v.next x) memory (v.keyOf n) =
      meaning M w ν memory (v.keyOf n) := by
  refine meaning_congr fun i operand => ?_
  obtain ⟨k, -, number⟩ := kids_keyOf operand
  have bound := (consistent.numbers k i number).1
  refine Function.update_of_ne ?_ _ _
  rintro rfl
  exact Nat.lt_irrefl _ bound

theorem meaning_load {a : NodeId} (loads : k.op = .load) (left : k.left = some a) :
    meaning M w ν memory k = M.read k.ty (ν a) memory := by
  simp [meaning, ValueKey.kids, loads, left, Meaning.value]

theorem Agrees.survives (agrees : Agrees M f visited w v m ν) (consistent : v.Consistent f)
    (grown : v.keys <+: w.keys) {sym : Symbol} {ty : CType} {x : V} (inside : e ∈ v.table)
    (kept : v.survives sym e.1 = true) :
    meaning M w ν (M.write ty (M.address sym) x m.memory) e.1 = meaning M w ν m.memory e.1 := by
  by_cases loads : e.1.op = .load
  · rw [Numbering.survives, if_pos loads] at kept
    cases left : e.1.left with
    | none => simp [left] at kept
    | some a =>
      simp only [left, Bool.and_eq_true, beq_iff_eq, bne_iff_ne] at kept
      have bound : a.index < v.keys.length := by
        refine consistent.kids e.1 (List.mem_of_getElem? (consistent.table e inside)) a ?_
        simp [ValueKey.kids, left]
      obtain ⟨k, found⟩ : ∃ k, v.keys[a.index]? = some k := ⟨_, List.getElem?_eq_getElem bound⟩
      have key := Numbering.key_eq found
      obtain ⟨s, named⟩ := Option.isSome_iff_exists.mp
        (consistent.addresses k (List.mem_of_getElem? found) (key ▸ kept.1))
      have final : w.key a = k := key_of_prefix grown found
      have known : ν a = M.address s :=
        agrees.addresses a s (by rw [final, ← key]; exact kept.1) (by rw [final]; exact named)
      have other : s ≠ sym := by
        rintro rfl
        exact kept.2 (key ▸ named)
      rw [meaning_load loads left, meaning_load loads left, known]
      exact M.read_address _ _ _ _ (M.write_address _ _ _ _ _ other)
  · exact meaning_of_ne_load loads

theorem Agrees.value (agrees : Agrees M f visited w v m ν) (numbered : Numbered f visited v₀ w)
    (around : Around f visited v₀ w m.pos v v' before after (.eval l))
    (unifies : (f.node l).op.hasSideEffect = false) :
    ∃ ν', Agrees M f visited w v'
      (m.record l (m.compute M f l) m.memory (m.pos + 1)) ν' := by
  obtain ⟨consistent, -, -⟩ := around.consistent numbered
  have numbers := around.numbers
  cases numbers with
  | store stores => simp [stores, Op.hasSideEffect] at unifies
  | effect effect => simp [effect] at unifies
  | plain plain => cases plain
  | @value _ id _ _ _ ready interns =>
    have computed := agrees.compute_eq numbered around around.here ready
    have address (s : Symbol) (op : (f.node l).op = .addr) (sym : (f.node l).sym = some s) :
        m.compute M f l = M.address s := by
      simp [Moment.compute, op, sym, Meaning.value]
    have entries := agrees.table (by simp [around.here])
    refine ⟨Function.update ν id (m.compute M f l), agrees.eval numbered around around.here interns
      rfl rfl ?_ address fun e inside => ?_⟩
    · cases interns with
      | known _ found => exact .inr ((entries _ found).trans computed.symm)
      | new => exact .inl rfl
      | single => exact .inl rfl
    · cases interns with
      | single effect => simp [effect] at unifies
      | known _ found =>
        have same : ν id = m.compute M f l := (entries _ found).trans computed.symm
        rw [← same, Function.update_eq_self]
        exact entries e inside
      | @new kept _ room =>
        rcases List.mem_cons.mp inside with rfl | old
        · rw [Function.update_self, consistent.meaning_new, computed]
        · have there : e ∈ v.table := by
            rcases room with rfl | rfl
            · exact old
            · cases old
          obtain ⟨value, meaning⟩ := consistent.meaning_update there (m.compute M f l) m.memory
          rw [value, meaning]
          exact entries e there

theorem Around.single (around : Around f visited v₀ w pos v v' before after (.eval l))
    (effect : (f.node l).op.hasSideEffect = true) :
    (∀ k ∈ (f.node l).kids, ∃ i, v.number k = some i) ∧
      v.Interns l (f.node l) v.next (v.issue l (f.node l) v.table) ∧
      (v' = (v.issue l (f.node l) v.table).forget ∨ ∃ sym, (f.node l).op = .assign ∧
        (v.issue l (f.node l) v.table).target? v.next = some sym ∧
        v' = (v.issue l (f.node l) v.table).invalidate sym) := by
  have alone {id : NodeId} {v₁ : Numbering} (interns : v.Interns l (f.node l) id v₁) :
      id = v.next ∧ v₁ = v.issue l (f.node l) v.table := by
    cases interns with
    | known unifies => simp [effect] at unifies
    | new unifies => simp [effect] at unifies
    | single => exact ⟨rfl, rfl⟩
  have numbers := around.numbers
  cases numbers with
  | value unifies => simp [effect] at unifies
  | plain plain => cases plain
  | store stores ready interns target =>
    obtain ⟨rfl, rfl⟩ := alone interns
    exact ⟨ready, interns, .inr ⟨_, stores, target, rfl⟩⟩
  | effect _ ready interns =>
    obtain ⟨rfl, rfl⟩ := alone interns
    exact ⟨ready, interns, .inl rfl⟩

theorem Agrees.effect (agrees : Agrees M f visited w v m ν) (numbered : Numbered f visited v₀ w)
    (around : Around f visited v₀ w m.pos v v' before after (.eval l))
    (effect : (f.node l).op.hasSideEffect = true) (x : V) (memory : Symbol → O)
    (holds : ∀ e ∈ v'.table,
      e ∈ v.table ∧ meaning M w ν memory e.1 = meaning M w ν m.memory e.1) :
    Agrees M f visited w v' (m.record l x memory (m.pos + 1)) (Function.update ν v.next x) := by
  obtain ⟨consistent, -, -⟩ := around.consistent numbered
  obtain ⟨-, interns, shape⟩ := around.single effect
  have same : v'.numbers = (v.issue l (f.node l) v.table).numbers ∧
      v'.keys = (v.issue l (f.node l) v.table).keys := by
    rcases shape with rfl | ⟨sym, -, -, rfl⟩
    · exact ⟨rfl, rfl⟩
    · exact ⟨rfl, rfl⟩
  refine agrees.eval numbered around around.here interns same.1 same.2 (.inl rfl) ?_ ?_
  · intro s op
    rw [op] at effect
    cases effect
  · intro e inside
    obtain ⟨old, kept⟩ := holds e inside
    obtain ⟨value, meaning⟩ := consistent.meaning_update old x memory
    rw [value, meaning, kept]
    exact agrees.table (by simp [around.here]) e old

theorem Agrees.store (agrees : Agrees M f visited w v m ν) (numbered : Numbered f visited v₀ w)
    (around : Around f visited v₀ w m.pos v v' before after (.eval l))
    (stores : (f.node l).op = .assign) {a : LinId} (left : (f.node l).left = some a) (x y : V) :
    ∃ ν', Agrees M f visited w v'
      (m.record l x (M.write (f.node l).ty (m.values a) y m.memory) (m.pos + 1)) ν' := by
  obtain ⟨consistent, -, -⟩ := around.consistent numbered
  have effect : _ = true := congrArg Op.hasSideEffect stores
  obtain ⟨ready, -, shape⟩ := around.single effect
  refine ⟨_, agrees.effect numbered around effect x _ fun e inside => ?_⟩
  rcases shape with rfl | ⟨sym, -, target, rfl⟩
  · cases inside
  · obtain ⟨there, kept⟩ := List.mem_filter.mp inside
    have grown : v.keys <+: w.keys := around.numbers.keys.trans around.later.keys
    -- The address is the one of the variable that the table says.
    have operand : a ∈ (f.node l).kids := by simp [LinNode.kids, left]
    obtain ⟨i, number⟩ := ready a operand
    obtain ⟨value, -⟩ := agrees.operand numbered around around.here operand number
    have bound := (consistent.numbers a i number).1
    have key : w.key i = v.key i :=
      key_of_prefix grown (by rw [Numbering.key, List.getD_eq_getElem?_getD]; simp [bound])
    have known : m.values a = M.address sym := by
      rw [target?, key_eq (key_issue_next _)] at target
      simp only [keyOf, left, Option.bind_some, number, key_issue bound] at target
      split at target
      · rename_i address
        rw [value]
        exact agrees.addresses i sym (key ▸ address) (key ▸ target)
      · cases target
    refine ⟨there, ?_⟩
    rw [known]
    refine agrees.survives consistent grown there ?_
    rw [← consistent.survives_issue there]
    exact kept

theorem Agrees.pass (agrees : Agrees M f visited w v m ν)
    (around : Around f visited v₀ w m.pos v v' before after c) (silent : c.lin? = none) :
    Agrees M f visited w v' { m with pos := m.pos + 1 } ν := by
  refine ⟨fun l active => ?_, fun _ e inside => ?_, agrees.addresses, fun a below straight => ?_⟩
  · rcases active.succ with now | active
    · cases around.here.symm.trans now
      cases silent
    · exact agrees.values l active
  · have numbers := around.numbers
    cases numbers with
    | label => cases inside
    | plain plain =>
      refine agrees.table ?_ e inside
      rw [around.here]
      rintro s ⟨⟩
      cases plain
    | value | store | effect => cases silent
  · rcases Nat.lt_or_eq_of_le (Nat.le_of_lt_succ below) with before | rfl
    · exact agrees.recent a before (straight_succ straight)
    · refine ⟨around.visits, fun l evaluated => ?_⟩
      cases around.here.symm.trans evaluated
      cases silent

theorem Agrees.step (agrees : Agrees M f visited w v m ν) (numbered : Numbered f visited v₀ w)
    (around : Around f visited v₀ w m.pos v v' before after c) {m' : Moment V O}
    (step : m.Step M f m') :
    ∃ ν' u u' before after c, Around f visited v₀ w m'.pos u u' before after c ∧
      Agrees M f visited w u m' ν' := by
  -- An evaluation goes on to the code after it.
  have onward {l : LinId} {next : Nat} (here : f.codes[m.pos]? = some (.eval l))
      (follows : f.Follows m.pos next) : next = m.pos + 1 ∧ c = .eval l ∧
        ∃ u' before after c, Around f visited v₀ w (m.pos + 1) v' u' before after c := by
    have visits := numbered.closed _ _ around.visits follows
    cases here.symm.trans around.here
    cases follows with
    | next => exact ⟨rfl, rfl, around.next numbered visits⟩
    | jump here' target =>
      cases here.symm.trans here'
      cases target
  cases step with
  | value here unifies follows =>
    obtain ⟨rfl, rfl, u', b, a, c', there⟩ := onward here follows
    obtain ⟨ν', agrees⟩ := agrees.value numbered around unifies
    exact ⟨ν', v', u', b, a, c', there, agrees⟩
  | store here stores left right follows =>
    obtain ⟨rfl, rfl, u', b, a, c', there⟩ := onward here follows
    obtain ⟨ν', agrees⟩ := agrees.store numbered around stores left _ _
    exact ⟨ν', v', u', b, a, c', there, agrees⟩
  | call here calls follows =>
    obtain ⟨rfl, rfl, u', b, a, c', there⟩ := onward here follows
    have effect : _ = true := congrArg Op.hasSideEffect calls
    refine ⟨_, v', u', b, a, c', there, agrees.effect numbered around effect _ _ fun e inside => ?_⟩
    obtain ⟨-, -, rfl | ⟨sym, stores, -⟩⟩ := around.single effect
    · cases inside
    · rw [calls] at stores
      cases stores
  | fill here fills follows =>
    rw [numbered.fill _ _ here] at fills
    cases fills
  | other here silent keeps follows =>
    cases here.symm.trans around.here
    have visits := numbered.closed _ _ around.visits follows
    cases follows with
    | next =>
      obtain ⟨u', b, a, c', there⟩ := around.next numbered visits
      exact ⟨ν, v', u', b, a, c', there, agrees.pass around silent⟩
    | jump here' target label =>
      obtain ⟨u, u', b, a, c', there⟩ := numbered.around visits
      refine ⟨ν, u, u', b, a, c', there, ?_, ?_, agrees.addresses, ?_⟩
      · intro l active
        exact agrees.values l (active.jump label here' target)
      · intro none
        exact absurd label (none _)
      · intro a below straight
        exact absurd label (straight _ below (Nat.le_refl _) _)

theorem Numbered.agrees (numbered : Numbered f visited v₀ w) {values : LinId → V}
    (path : Relation.ReflTransGen (Moment.Step M f) (.start values memory) m) :
    ∃ ν v v' before after c, Around f visited v₀ w m.pos v v' before after c ∧
      Agrees M f visited w v m ν := by
  induction path with
  | refl =>
    obtain ⟨v, v', b, a, c, around⟩ := numbered.around numbered.begins
    have first := around.first numbered
    subst first
    refine ⟨fun n => ((w.key n).sym.map M.address).getD (values ⟨0⟩), v, v', b, a, c, around, ?_, ?_,
      ?_, ?_⟩
    · rintro l ⟨a, below, -⟩
      cases below
    · simp [numbered.empty]
    · intro n s _ sym
      simp [sym]
    · intro a below
      cases below
  | tail _ step ih =>
    obtain ⟨ν, v, v', b, a, c, around, agrees⟩ := ih
    exact agrees.step numbered around step

theorem Around.back (around : Around f visited v₀ w pos v v' before after c)
    (numbered : Numbered f visited v₀ w) {t : Nat} (visits : t ∈ visited) (below : t < pos) :
    ∃ u u' b a c' between, Around f visited v₀ w t u u' b a c' ∧
      NumbersAll f (t :: between) u v := by
  have there : t ∈ before := by
    rw [around.place] at visits
    rcases List.mem_append.mp visits with old | rest
    · exact old
    · rcases List.mem_cons.mp rest with rfl | later
      · exact absurd below (Nat.lt_irrefl _)
      · have := (around.ordered numbered).2 t later
        omega
  obtain ⟨b, between, split⟩ := List.append_of_mem there
  have all := around.earlier
  rw [split] at all
  obtain ⟨u, first, rest⟩ := numbersAll_append.mp all
  cases rest with
  | @cons _ c' _ _ u' _ here numbers later =>
    refine ⟨u, u', b, between ++ pos :: after, c', between, ⟨?_, first, here, numbers, ?_⟩,
      .cons here numbers later⟩
    · rw [around.place, split, List.append_assoc]
      rfl
    · exact numbersAll_append.mpr ⟨v, later, .cons around.here around.numbers around.later⟩

theorem Around.number_ne (around : Around f visited v₀ w pos v v' before after c)
    (numbered : Numbered f visited v₀ w) (inside : e ∈ v.table) {t : Nat} {s : Symbol}
    (visits : t ∈ visited) (below : t < pos) (label : f.codes[t]? = some (.label s)) {k : LinId}
    (earlier : p < t) (evaluated : f.codes[p]? = some (.eval k)) : w.number k ≠ some e.2 := by
  intro number
  obtain ⟨u, u', b, a, c', between, there, rest⟩ := around.back numbered visits below
  rcases rest.table inside with new | ⟨-, none⟩
  · rw [(there.final numbered evaluated).1 earlier] at number
    have := ((there.consistent numbered).1.numbers k e.2 number).1
    omega
  · exact none t List.mem_cons_self s label

theorem Around.found (around : Around f visited v₀ w pos v v' before after (.eval l))
    (numbered : Numbered f visited v₀ w) {n : NodeId} (number : w.number l = some n)
    (old : n.index < v.keys.length) :
    (v.keyOf (f.node l), n) ∈ v.table ∧ ∀ k ∈ (f.node l).kids, ∃ i, v.number k = some i := by
  have final := ((around.final numbered around.here).2 (Nat.le_refl _)).symm.trans number
  have given {id : NodeId} {v₁ : Numbering} (interns : v.Interns l (f.node l) id v₁)
      (final : v₁.number l = some n) : (v.keyOf (f.node l), n) ∈ v.table := by
    have same := interns.number_self final
    subst same
    cases interns with
    | known _ found => exact found
    | new => exact absurd old (Nat.lt_irrefl _)
    | single => exact absurd old (Nat.lt_irrefl _)
  have numbers := around.numbers
  cases numbers with
  | value _ ready interns => exact ⟨given interns final, ready⟩
  | store _ ready interns _ => exact ⟨given interns final, ready⟩
  | effect _ ready interns => exact ⟨given interns final, ready⟩
  | plain plain => cases plain

theorem Agrees.straight (agrees : Agrees M f visited w v m ν) (numbered : Numbered f visited v₀ w)
    (around : Around f visited v₀ w m.pos v v' before after (.eval l)) {k : LinId}
    (first : f.codes[p]? = some (.eval k)) (below : p < m.pos) (inside : e ∈ v.table)
    (number : w.number k = some e.2) : Straight f p m.pos := by
  -- From the later end: a label with no label after it has been passed.
  have later (d s : Nat) (after : p ≤ s) (reach : s + d = m.pos) : Straight f s m.pos := by
    induction d generalizing s with
    | zero =>
      intro t above upTo
      omega
    | succ d ih =>
      have rest := ih (s + 1) (by omega) (by omega)
      intro t above upTo s' label
      by_cases next : t = s + 1
      · subst next
        rcases Nat.lt_or_eq_of_le upTo with before | same
        · have visits := (agrees.recent _ before rest).1
          exact around.number_ne numbered inside visits before label (by omega) first number
        · rw [same, around.here] at label
          cases label
      · exact rest t (by omega) upTo s' label
  exact later (m.pos - p) p (Nat.le_refl p) (by omega)

theorem Numbered.last_eq (numbered : Numbered f visited v₀ w) {values : LinId → V}
    (path : Relation.ReflTransGen (Moment.Step M f) (.start values memory) m) {k : LinId}
    {n : NodeId} (first : f.codes[p]? = some (.eval k)) (second : f.codes[m.pos]? = some (.eval l))
    (below : p < m.pos) (left : w.number k = some n) (right : w.number l = some n) :
    m.last p = some (m.compute M f l) := by
  obtain ⟨ν, v, v', b, a, c, around, agrees⟩ := numbered.agrees path
  cases second.symm.trans around.here
  have old : n.index < v.keys.length := by
    have given := ((around.final numbered first).1 below).symm.trans left
    exact ((around.consistent numbered).1.numbers k n given).1
  obtain ⟨found, ready⟩ := around.found numbered right old
  have straight := agrees.straight numbered around first below found left
  have active : Active f m.pos k := ⟨p, below, first, .inl straight⟩
  rw [(agrees.recent p below straight).2 k first, agrees.values k active n left,
    agrees.table (by simp [second]) _ found, agrees.compute_eq numbered around second ready]

end Numbering

end CBackend
