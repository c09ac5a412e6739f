import CBackend.Proofs.Numbering.Pool

/-!
Everything that can happen to a pool of values. Whatever is asked of a pool, one after the other, two
computations get one number exactly if they are the same and nothing between them made the pool forget
the first.
-/

namespace CBackend.ValuePool

inductive Request where
  | intern (key : ValueKey)
  | fresh (key : ValueKey) (aux : Int)
  | reset
  | invalidate (sym : Symbol)
  deriving DecidableEq, Repr

namespace Request

/-- The number that is issued, if any, and the pool afterwards. -/
def run (p : ValuePool) : Request → Option NodeId × ValuePool
  | intern key => (some (p.intern key).1, (p.intern key).2)
  | fresh key aux => (some (p.fresh key aux).1, (p.fresh key aux).2)
  | reset => (none, p.reset)
  | invalidate sym => (none, p.invalidate sym)

def isIntern : Request → Bool
  | intern _ => true
  | _ => false

def isFresh : Request → Bool
  | fresh .. => true
  | _ => false

def carries? : Request → Option (ValueKey × Int)
  | intern key => some (key, 0)
  | fresh key aux => some (key, aux)
  | reset | invalidate _ => none

end Request

/-- A store to `sym` may change the computation: it loads from `sym` or through an address that is
not known. -/
def Discards (p : ValuePool) (sym : Symbol) (key : ValueKey) : Prop :=
  key.op = .load ∧ ∀ a, key.left = some a → (p.node a).op = .addr → (p.node a).key.sym = some sym

/-- The request makes the pool forget a computation. A computation that is new to a full table makes
it forget all others. -/
def Forgets (p : ValuePool) (key : ValueKey) : Request → Prop
  | .intern other => p.lookup? other = none ∧ p.capacity ≤ p.table.length
  | .fresh .. => False
  | .reset => True
  | .invalidate sym => p.Discards sym key

def after (p : ValuePool) (rs : List Request) : ValuePool := rs.foldl (fun p r => (r.run p).2) p

def before (p : ValuePool) (rs : List Request) (i : Nat) : ValuePool := p.after (rs.take i)

def answer (p : ValuePool) (rs : List Request) (i : Nat) : Option NodeId :=
  rs[i]?.bind fun r => (r.run (p.before rs i)).1

variable {p : ValuePool} {k : ValueKey} {a : NodeId} {r : Request} {rs : List Request} {i j : Nat}

theorem survives_eq_false_iff {sym : Symbol} : p.survives sym k = false ↔ p.Discards sym k := by
  unfold survives Discards
  split
  · rename_i loads
    cases address : k.left with
    | none => simp [loads]
    | some a => simp [loads]
  · rename_i other
    simp [other]

theorem lookup?_run (issued : a.index < p.size) :
    (r.run p).2.lookup? k = some a ↔ p.lookup? k = some a ∧ ¬p.Forgets k r := by
  cases r with
  | intern key =>
    cases found : p.lookup? key with
    | some b =>
      have same : (Request.run p (.intern key)).2.lookup? k = p.lookup? k := by
        rw [Request.run, intern_hit found]
        rfl
      simp [same, Forgets, found]
    | none =>
      have next : (Request.run p (.intern key)).2.lookup? k =
          if key = k then some ⟨p.size⟩ else numberIn? p.room.table k := by
        rw [Request.run, intern_miss found, lookup?_eq, enter, numberIn?_cons, size_room]
      rw [next]
      by_cases same : key = k
      · subst same
        have other : some (⟨p.size⟩ : NodeId) ≠ some a := by
          rintro ⟨⟩
          exact absurd issued (Nat.lt_irrefl _)
        simp [found, other]
      · rw [if_neg same, room]
        split
        · rename_i full
          simp [reset, numberIn?, Forgets, found, full]
        · rename_i space
          simp [Forgets, space, lookup?_eq]
  | fresh key aux => exact (and_iff_left not_false).symm
  | reset =>
    constructor
    · intro found
      cases found
    · rintro ⟨-, kept⟩
      exact absurd trivial kept
  | invalidate sym =>
    have next : (Request.run p (.invalidate sym)).2.lookup? k =
        if p.survives sym k then p.lookup? k else none := numberIn?_filter (p.survives sym) k p.table
    rw [next, Forgets, ← survives_eq_false_iff]
    cases p.survives sym k <;> simp

theorem nodes_run {x : Nat} {n : ValueNode} (found : p.nodes[x]? = some n) :
    (r.run p).2.nodes[x]? = some n := by
  have inside := (Array.getElem?_eq_some_iff.mp found).1
  have pushed (m : ValueNode) : (p.nodes.push m)[x]? = some n := by
    rw [Array.getElem?_push_lt inside, ← Array.getElem?_eq_getElem inside, found]
  cases r with
  | intern key =>
    cases entry : p.lookup? key with
    | some b => rw [Request.run, intern_hit entry]; exact found
    | none => rw [Request.run, intern_miss entry, enter, nodes_room]; exact pushed _
  | fresh key aux => exact pushed _
  | reset | invalidate sym => exact found

/-- The entries of the table are computations of the current generation, and there is room for
them. -/
structure Sound (p : ValuePool) : Prop where
  entries : ∀ e ∈ p.table, ∃ n, p.nodes[e.2.index]? = some n ∧ n.key = e.1 ∧ n.aux = 0 ∧
    n.generation = p.generation
  room : p.table.length ≤ p.capacity
  positive : 0 < p.capacity

theorem sound_of_empty (empty : p.table = []) (positive : 0 < p.capacity) : p.Sound := by
  refine ⟨?_, ?_, positive⟩
  · rw [empty]
    exact List.forall_mem_nil _
  · rw [empty]
    exact Nat.zero_le _

theorem sound_init (capacity : Nat) : (init capacity).Sound :=
  sound_of_empty rfl (Nat.lt_of_lt_of_le Nat.one_pos (Nat.le_max_right _ _))

theorem Sound.room_lt (sound : p.Sound) : p.room.Sound ∧ p.room.table.length < p.room.capacity := by
  unfold ValuePool.room
  split
  · exact ⟨sound_of_empty rfl sound.positive, sound.positive⟩
  · rename_i space
    exact ⟨sound, Nat.lt_of_not_le space⟩

theorem Sound.enter (sound : p.Sound) (space : p.table.length < p.capacity) (key : ValueKey) :
    (p.enter key).Sound where
  entries e inside := by
    rcases List.mem_cons.mp inside with rfl | inside
    · exact ⟨_, Array.getElem?_push_size, rfl, rfl, rfl⟩
    · obtain ⟨n, found, carried⟩ := sound.entries e inside
      have inside := (Array.getElem?_eq_some_iff.mp found).1
      refine ⟨n, ?_, carried⟩
      rw [ValuePool.enter, Array.getElem?_push_lt inside, ← Array.getElem?_eq_getElem inside, found]
  room := space
  positive := sound.positive

theorem Sound.run (sound : p.Sound) (r : Request) : (r.run p).2.Sound := by
  cases r with
  | intern key =>
    cases entry : p.lookup? key with
    | some b =>
      rw [Request.run, intern_hit entry]
      exact ⟨sound.entries, sound.room, sound.positive⟩
    | none =>
      rw [Request.run, intern_miss entry]
      exact sound.room_lt.1.enter sound.room_lt.2 key
  | fresh key aux =>
    refine ⟨fun e inside => ?_, sound.room, sound.positive⟩
    obtain ⟨n, found, carried⟩ := sound.entries e inside
    exact ⟨n, nodes_run (r := .fresh key aux) found, carried⟩
  | reset => exact sound_of_empty rfl sound.positive
  | invalidate sym =>
    refine ⟨fun e inside => sound.entries e (List.mem_filter.mp inside).1, ?_, sound.positive⟩
    exact Nat.le_trans (List.length_filter_le _ _) sound.room

theorem Sound.lookup? (sound : p.Sound) (found : p.lookup? k = some a) :
    ∃ n, p.nodes[a.index]? = some n ∧ n.key = k ∧ n.aux = 0 := by
  obtain ⟨n, here, key, aux, -⟩ := sound.entries _ (mem_of_lookup? found)
  exact ⟨n, here, key, aux⟩

theorem Sound.carried (sound : p.Sound) {c : ValueKey × Int} (carries : r.carries? = some c)
    (issued : (r.run p).1 = some a) :
    ∃ n, (r.run p).2.nodes[a.index]? = some n ∧ n.key = c.1 ∧ n.aux = c.2 := by
  cases r with
  | intern key =>
    cases carries
    cases issued
    exact (sound.run (.intern key)).lookup? lookup?_intern
  | fresh key aux =>
    cases carries
    cases issued
    exact ⟨_, Array.getElem?_push_size, rfl, rfl⟩
  | reset | invalidate => cases carries

/-! What holds of one request holds of a history. -/

theorem before_succ (p : ValuePool) (here : rs[i]? = some r) :
    p.before rs (i + 1) = (r.run (p.before rs i)).2 := by
  rw [before, after, List.take_add_one, here, List.foldl_append]
  rfl

theorem before_succ_none (p : ValuePool) (none : rs[i]? = none) :
    p.before rs (i + 1) = p.before rs i := by
  rw [before, before, List.take_add_one, none, Option.toList_none, List.append_nil]

theorem before_length (p : ValuePool) (rs : List Request) : p.before rs rs.length = p.after rs := by
  rw [before, List.take_length]

theorem Sound.before (sound : p.Sound) (rs : List Request) (i : Nat) : (p.before rs i).Sound := by
  induction i with
  | zero => exact sound
  | succ i ih =>
    cases here : rs[i]? with
    | none => rw [before_succ_none p here]; exact ih
    | some r => rw [before_succ p here]; exact ih.run r

theorem nodes_before (later : i ≤ j) {x : Nat} {n : ValueNode}
    (found : (p.before rs i).nodes[x]? = some n) : (p.before rs j).nodes[x]? = some n := by
  induction later with
  | refl => exact found
  | @step j _ ih =>
    cases here : rs[j]? with
    | none => rw [before_succ_none p here]; exact ih
    | some r => rw [before_succ p here]; exact nodes_run ih

theorem size_before (later : i ≤ j) (issued : a.index < (p.before rs i).size) :
    a.index < (p.before rs j).size :=
  (Array.getElem?_eq_some_iff.mp (nodes_before later (Array.getElem?_eq_getElem issued))).1

theorem forall_before_succ {α : Type} {xs : List α} {P : Nat → α → Prop} (later : i ≤ j) :
    (∀ m x, i ≤ m → m < j + 1 → xs[m]? = some x → P m x) ↔
      (∀ m x, i ≤ m → m < j → xs[m]? = some x → P m x) ∧ ∀ x, xs[j]? = some x → P j x := by
  constructor
  · intro all
    exact ⟨fun m x after upTo => all m x after (by omega), fun x => all j x later (by omega)⟩
  · rintro ⟨all, last⟩ m x after upTo here
    by_cases same : m = j
    · subst same
      exact last x here
    · exact all m x after (by omega) here

theorem lookup?_before (later : i ≤ j) (issued : a.index < (p.before rs i).size) :
    (p.before rs j).lookup? k = some a ↔ (p.before rs i).lookup? k = some a ∧
      ∀ m r, i ≤ m → m < j → rs[m]? = some r → ¬(p.before rs m).Forgets k r := by
  induction later with
  | refl => exact (and_iff_left fun m r after upTo => by omega).symm
  | @step j later ih =>
    rw [forall_before_succ later, ← and_assoc, ← ih]
    cases here : rs[j]? with
    | none => simp [before_succ_none p here]
    | some r => simp [before_succ p here, lookup?_run (size_before later issued)]

theorem counted_run (p : ValuePool) (r : Request) : (r.run p).2.capacity = p.capacity ∧
    (r.run p).2.hits + (r.run p).2.misses = p.hits + p.misses + (if r.isIntern then 1 else 0) ∧
    (r.run p).2.size + p.misses =
      p.size + (r.run p).2.misses + (if r.isFresh then 1 else 0) := by
  cases r with
  | intern key =>
    cases entry : p.lookup? key with
    | some b =>
      rw [Request.run, intern_hit entry]
      exact ⟨rfl, Nat.add_right_comm _ _ _, rfl⟩
    | none =>
      have same : p.room.capacity = p.capacity ∧ p.room.hits = p.hits ∧ p.room.misses = p.misses := by
        unfold room
        split <;> exact ⟨rfl, rfl, rfl⟩
      have size : (p.room.enter key).size = p.size + 1 := by
        rw [← p.size_room]
        exact Array.size_push _
      rw [Request.run, intern_miss entry]
      refine ⟨same.1, ?_, ?_⟩
      · change p.room.hits + (p.room.misses + 1) = _
        rw [same.2.1, same.2.2]
        rfl
      · change (p.room.enter key).size + _ = p.size + (p.room.misses + 1) + 0
        rw [size, same.2.2]
        omega
  | fresh key aux =>
    have size : (Request.run p (.fresh key aux)).2.size = p.size + 1 := Array.size_push _
    rw [size]
    exact ⟨rfl, rfl, Nat.add_right_comm _ _ _⟩
  | reset | invalidate => exact ⟨rfl, rfl, rfl⟩

theorem counted_after (p : ValuePool) (rs : List Request) : (p.after rs).capacity = p.capacity ∧
    (p.after rs).hits + (p.after rs).misses = p.hits + p.misses + rs.countP Request.isIntern ∧
    (p.after rs).size + p.misses =
      p.size + (p.after rs).misses + rs.countP Request.isFresh := by
  induction rs generalizing p with
  | nil => exact ⟨rfl, rfl, rfl⟩
  | cons r rs ih =>
    obtain ⟨capacity, calls, size⟩ := p.counted_run r
    obtain ⟨capacity', calls', size'⟩ := ih (r.run p).2
    rw [List.countP_cons, List.countP_cons]
    refine ⟨capacity'.trans capacity, ?_, ?_⟩
    · change ((r.run p).2.after rs).hits + ((r.run p).2.after rs).misses = _
      omega
    · change ((r.run p).2.after rs).size + _ = _ + ((r.run p).2.after rs).misses + _
      omega

structure Exact (capacity : Nat) (rs : List Request) : Prop where
  unified : ∀ {i j k k' a b}, i < j → rs[i]? = some (.intern k) → rs[j]? = some (.intern k') →
    (init capacity).answer rs i = some a → (init capacity).answer rs j = some b →
    (a = b ↔ k = k' ∧ ∀ m r, i < m → m < j → rs[m]? = some r →
      ¬((init capacity).before rs m).Forgets k r)
  alone : ∀ {i j k aux a}, rs[i]? = some (.fresh k aux) → (init capacity).answer rs i = some a →
    i ≠ j → (init capacity).answer rs j ≠ some a
  carried : ∀ {i r c}, rs[i]? = some r → r.carries? = some c → ∃ a n,
    (init capacity).answer rs i = some a ∧ ((init capacity).after rs).nodes[a.index]? = some n ∧
      n.key = c.1 ∧ n.aux = c.2
  current : ∀ e ∈ ((init capacity).after rs).table, ∃ n,
    ((init capacity).after rs).nodes[e.2.index]? = some n ∧ n.key = e.1 ∧
      n.generation = ((init capacity).after rs).generation
  bounded : ((init capacity).after rs).table.length ≤ max capacity 1
  calls : ((init capacity).after rs).hits + ((init capacity).after rs).misses =
    rs.countP Request.isIntern
  nodes : ((init capacity).after rs).size = ((init capacity).after rs).misses +
    rs.countP Request.isFresh

theorem answer_eq (p : ValuePool) (here : rs[i]? = some r) :
    p.answer rs i = (r.run (p.before rs i)).1 := by
  rw [answer, here]
  rfl

theorem Sound.issued (sound : p.Sound) (answered : p.answer rs i = some a) :
    a.index < (p.before rs (i + 1)).size := by
  obtain ⟨r, here, answered⟩ := Option.bind_eq_some_iff.mp answered
  cases carries : r.carries? with
  | some c =>
    obtain ⟨n, found, -⟩ := (sound.before rs i).carried carries answered
    rw [before_succ p here]
    exact (Array.getElem?_eq_some_iff.mp found).1
  | none => cases r <;> cases carries <;> cases answered

/-- Numbers are exact over whole histories. Whatever is asked of a new pool, two computations get one
number exactly if they are the same and nothing between them made the pool forget it; a fresh number
is not issued another time; every number keeps naming a node that carries what was asked for; the
entries of the table are of the current generation and no more than fit; and the counters count what
has been asked for. -/
theorem history_exact (capacity : Nat) (rs : List Request) : Exact capacity rs where
  unified {i j k k' a b} later here there first second := by
    have sound := sound_init capacity
    have issued := sound.issued first
    have issued' := size_before later issued
    rw [answer_eq _ here] at first
    rw [answer_eq _ there] at second
    have known : ((init capacity).before rs (i + 1)).lookup? k = some a := by
      rw [before_succ _ here, Request.run, ← first]
      exact lookup?_intern
    have again : a = b ↔ ((init capacity).before rs j).lookup? k' = some a := by
      rw [← intern_eq_iff issued', eq_comm]
      cases second
      rfl
    rw [again]
    constructor
    · intro found
      obtain ⟨n, node, key, -⟩ := (sound.before rs (i + 1)).lookup? known
      obtain ⟨n', node', key', -⟩ := (sound.before rs j).lookup? found
      cases node'.symm.trans (nodes_before later node)
      obtain rfl : k = k' := key.symm.trans key'
      exact ⟨rfl, ((lookup?_before later issued).mp found).2⟩
    · rintro ⟨rfl, kept⟩
      exact (lookup?_before later issued).mpr ⟨known, kept⟩
  alone {i j k aux a} here first other second := by
    have sound := sound_init capacity
    have issued := sound.issued first
    have next : a.index = ((init capacity).before rs i).size := by
      rw [answer_eq _ here] at first
      cases first
      rfl
    rcases Nat.lt_or_gt_of_ne other with later | earlier
    · have issued' := size_before later issued
      obtain ⟨r, there, second⟩ := Option.bind_eq_some_iff.mp second
      cases r with
      | intern key =>
        -- A number that is found later was found before the fresh one was issued.
        have found := (intern_eq_iff issued').mp (Option.some.inj second)
        have sooner := ((lookup?_before later issued).mp found).1
        rw [before_succ _ here] at sooner
        obtain ⟨n, node, -⟩ := (sound.before rs i).lookup? sooner
        have inside := (Array.getElem?_eq_some_iff.mp node).1
        exact absurd inside (Nat.not_lt.mpr (Nat.le_of_eq next.symm))
      | fresh key aux' =>
        cases second
        exact absurd issued' (Nat.lt_irrefl _)
      | reset | invalidate => cases second
    · have inside := size_before earlier (sound.issued second)
      omega
  carried {i r c} here carries := by
    have sound := (sound_init capacity).before rs i
    obtain ⟨a, answered⟩ : ∃ a, (r.run ((init capacity).before rs i)).1 = some a := by
      cases r with
      | intern | fresh => exact ⟨_, rfl⟩
      | reset | invalidate => cases carries
    obtain ⟨n, node, carried⟩ := sound.carried carries answered
    rw [← before_succ _ here] at node
    refine ⟨a, n, (answer_eq _ here).trans answered, ?_, carried⟩
    rw [← before_length]
    exact nodes_before (List.getElem?_eq_some_iff.mp here).1 node
  current e inside := by
    have sound := (sound_init capacity).before rs rs.length
    rw [before_length] at sound
    obtain ⟨n, found, key, -, generation⟩ := sound.entries e inside
    exact ⟨n, found, key, generation⟩
  bounded := by
    have sound := (sound_init capacity).before rs rs.length
    rw [before_length] at sound
    exact Nat.le_trans sound.room (Nat.le_of_eq (counted_after _ rs).1)
  calls := by
    rw [(counted_after _ rs).2.1]
    exact Nat.zero_add _
  nodes := by
    have counted := (counted_after (init capacity) rs).2.2
    change _ + 0 = 0 + _ + _ at counted
    omega

/-- With room for one entry a second computation makes the pool forget the first. -/
example : ∀ a ∈ [Op.const, .addr], ∀ b ∈ [Op.const, .addr],
    ((init 1).answer [.intern (.leaf a .int ⟨0⟩), .intern (.leaf b .int ⟨0⟩),
      .intern (.leaf a .int ⟨0⟩)] 2 = some ⟨0⟩ ↔ a = b) := by decide

end CBackend.ValuePool
