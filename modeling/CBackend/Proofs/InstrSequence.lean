import CBackend.Proofs.InstrList

/-!
Edits of an instruction list against edits of a sequence. A list stands for a sequence of
instructions, each under the name it was given when it was placed. Every edit of the list is an edit
of the sequence with the same reply, so after any number of edits the list still reads as the
sequence, forwards and backwards.
-/

namespace CBackend

abbrev InstrSequence := List (InstrId × Instr)

def InstrSequence.names (s : InstrSequence) : List InstrId := s.map Prod.fst

inductive InstrEdit where
  | append (i : Instr)
  | insertBefore (at' : InstrId) (i : Instr)
  | insertAfter (at' : InstrId) (i : Instr)
  | remove (id : InstrId)
  | get (id : InstrId)
  | modify (id : InstrId) (f : Instr → Instr)

/-- What an edit answers: the name of a new instruction, or the instruction it was about. -/
inductive EditReply where
  | placed (id : InstrId)
  | found (i : Option Instr)
  deriving DecidableEq, Repr

namespace InstrEdit

def run (l : InstrList) : InstrEdit → EditReply × InstrList
  | append i => (.placed (l.append i).1, (l.append i).2)
  | insertBefore at' i => (.placed (l.insertBefore at' i).1, (l.insertBefore at' i).2)
  | insertAfter at' i => (.placed (l.insertAfter at' i).1, (l.insertAfter at' i).2)
  | remove id => (.found (l.remove id).1, (l.remove id).2)
  | get id => (.found (l.get? id), l)
  | modify id f => (.found (l.get? id), l.modify id f)

def anchor? : InstrEdit → Option InstrId
  | insertBefore at' _ | insertAfter at' _ => some at'
  | append _ | remove _ | get _ | modify .. => none

/-- What an edit makes of an instruction that it does not remove. -/
def change (id : InstrId) (i : Instr) : InstrEdit → Instr
  | modify k f => if k = id then f i else i
  | append _ | insertBefore .. | insertAfter .. | remove _ | get _ => i

/-- The replies to edits one after the other, and the list afterwards. -/
def runs : List InstrEdit → InstrList → List EditReply × InstrList
  | [], l => ([], l)
  | e :: es, l => ((e.run l).1 :: (runs es (e.run l).2).1, (runs es (e.run l).2).2)

/-- Instructions are only placed beside instructions that are in the list. -/
def Anchored : List InstrEdit → InstrList → Prop
  | [], _ => True
  | e :: es, l => (∀ k ∈ e.anchor?, (l.get? k).isSome) ∧ Anchored es (e.run l).2

instance : ∀ es l, Decidable (Anchored es l)
  | [], _ => .isTrue trivial
  | e :: es, l =>
    have _later : Decidable (Anchored es (e.run l).2) := instDecidableAnchored es (e.run l).2
    inferInstanceAs (Decidable ((∀ k ∈ e.anchor?, (l.get? k).isSome) ∧ Anchored es (e.run l).2))

end InstrEdit

namespace InstrSequence

/-- An edit of a sequence. A new instruction has a name that no other one has. -/
inductive Step : InstrSequence → InstrEdit → EditReply → InstrSequence → Prop
  | append {s : InstrSequence} {id : InstrId} {i : Instr} (fresh : id ∉ s.names) :
    Step s (.append i) (.placed id) (s ++ [(id, i)])
  | insertBefore {xs ys : InstrSequence} {id k : InstrId} {i j : Instr}
      (fresh : id ∉ (xs ++ (k, j) :: ys).names) :
    Step (xs ++ (k, j) :: ys) (.insertBefore k i) (.placed id) (xs ++ (id, i) :: (k, j) :: ys)
  | insertAfter {xs ys : InstrSequence} {id k : InstrId} {i j : Instr}
      (fresh : id ∉ (xs ++ (k, j) :: ys).names) :
    Step (xs ++ (k, j) :: ys) (.insertAfter k i) (.placed id) (xs ++ (k, j) :: (id, i) :: ys)
  | remove {xs ys : InstrSequence} {id : InstrId} {i : Instr} :
    Step (xs ++ (id, i) :: ys) (.remove id) (.found (some i)) (xs ++ ys)
  | removeNone {s : InstrSequence} {id : InstrId} (dead : id ∉ s.names) :
    Step s (.remove id) (.found none) s
  | get {s : InstrSequence} {id : InstrId} : Step s (.get id) (.found (s.lookup id)) s
  | modify {xs ys : InstrSequence} {id : InstrId} {i : Instr} {f : Instr → Instr} :
    Step (xs ++ (id, i) :: ys) (.modify id f) (.found (some i)) (xs ++ (id, f i) :: ys)
  | modifyNone {s : InstrSequence} {id : InstrId} {f : Instr → Instr} (dead : id ∉ s.names) :
    Step s (.modify id f) (.found none) s

inductive Steps : InstrSequence → List InstrEdit → List EditReply → InstrSequence → Prop
  | nil {s : InstrSequence} : Steps s [] [] s
  | cons {s s' s'' : InstrSequence} {e : InstrEdit} {es : List InstrEdit} {r : EditReply}
      {rs : List EditReply} (first : Step s e r s') (later : Steps s' es rs s'') :
    Steps s (e :: es) (r :: rs) s''

variable {s s' xs ys : InstrSequence} {id k : InstrId} {i : Instr} {e : InstrEdit} {r : EditReply}

@[simp] theorem names_nil : names [] = [] := rfl

@[simp] theorem names_append (xs ys : InstrSequence) :
    names (xs ++ ys) = xs.names ++ ys.names := List.map_append

@[simp] theorem names_cons (id : InstrId) (i : Instr) (s : InstrSequence) :
    names ((id, i) :: s) = id :: s.names := rfl

theorem lookup_eq_none_iff : s.lookup id = none ↔ id ∉ s.names := by
  rw [List.lookup_eq_none_iff, names, List.mem_map]
  constructor
  · rintro other ⟨entry, here, rfl⟩
    simpa using other entry here
  · intro unnamed entry here
    exact bne_iff_ne.mpr fun same => unnamed ⟨entry, here, same.symm⟩

theorem lookup_splice (fresh : id ∉ (xs ++ ys).names) (i : Instr) (k : InstrId) :
    (xs ++ (id, i) :: ys).lookup k = if k = id then some i else (xs ++ ys).lookup k := by
  rw [names_append, List.mem_append, not_or] at fresh
  rw [List.lookup_append, List.lookup_append, List.lookup_cons]
  by_cases same : k = id
  · subst same
    simp [lookup_eq_none_iff.mpr fresh.1]
  · rw [beq_false_of_ne same, if_neg same]

theorem exists_of_lookup (found : s.lookup id = some i) : ∃ xs ys, s = xs ++ (id, i) :: ys := by
  obtain ⟨xs, ys, whole, -⟩ := List.lookup_eq_some_iff.mp found
  exact ⟨xs, ys, whole⟩

theorem nodup_splice :
    (xs ++ (id, i) :: ys).names.Nodup ↔ id ∉ (xs ++ ys).names ∧ (xs ++ ys).names.Nodup := by
  rw [names_append, names_cons, List.nodup_middle, List.nodup_cons, ← names_append]

theorem Step.nodup (step : Step s e r s') (distinct : s.names.Nodup) : s'.names.Nodup := by
  cases step with
  | append fresh => exact nodup_splice.mpr ⟨by simpa using fresh, by simpa using distinct⟩
  | insertBefore fresh => exact nodup_splice.mpr ⟨fresh, distinct⟩
  | insertAfter fresh =>
    rw [List.append_cons] at fresh distinct ⊢
    exact nodup_splice.mpr ⟨fresh, distinct⟩
  | remove => exact (nodup_splice.mp distinct).2
  | modify => simpa using distinct
  | removeNone | get | modifyNone => exact distinct

theorem Step.lookup (step : Step s e r s') (distinct : s.names.Nodup) (found : s.lookup id = some i)
    (kept : e ≠ .remove id) : s'.lookup id = some (e.change id i) := by
  have named : id ∈ s.names := by
    rw [← not_not (a := id ∈ s.names), ← lookup_eq_none_iff, found]
    exact nofun
  cases step with
  | @append s k j fresh =>
    have other : id ≠ k := fun same => fresh (same ▸ named)
    rw [lookup_splice (by simpa using fresh), if_neg other, List.append_nil, found]
    rfl
  | @insertBefore xs ys k _ j _ fresh =>
    have other : id ≠ k := fun same => fresh (same ▸ named)
    rw [lookup_splice fresh, if_neg other, found]
    rfl
  | @insertAfter xs ys k _ j _ fresh =>
    have other : id ≠ k := fun same => fresh (same ▸ named)
    rw [List.append_cons] at fresh found ⊢
    rw [lookup_splice fresh, if_neg other, found]
    rfl
  | @remove xs ys k j =>
    have other : id ≠ k := fun same => kept (congrArg _ same.symm)
    rw [lookup_splice (nodup_splice.mp distinct).1, if_neg other] at found
    rw [found]
    rfl
  | @modify xs ys k j f =>
    have fresh := (nodup_splice.mp distinct).1
    rw [lookup_splice fresh] at found ⊢
    by_cases same : id = k
    · subst same
      simp_all [InstrEdit.change]
    · simp_all [InstrEdit.change, Ne.symm same]
  | @modifyNone s k f dead =>
    have other : k ≠ id := fun same => dead (same ▸ named)
    rw [found, InstrEdit.change, if_neg other]
  | removeNone | get => exact found

theorem Step.unnamed (step : Step s e r s') (dead : id ∉ s.names) (other : r ≠ .placed id) :
    id ∉ s'.names := by
  cases step with
  | append | insertBefore | insertAfter =>
    have new := fun same => other (congrArg EditReply.placed same)
    simp_all [eq_comm]
  | remove => simp_all
  | modify => simpa using dead
  | removeNone | get | modifyNone => exact dead

theorem Step.unnamed_of_remove (step : Step s (.remove id) r s') (distinct : s.names.Nodup) :
    id ∉ s'.names := by
  cases step with
  | remove => exact (nodup_splice.mp distinct).1
  | removeNone dead => exact dead

variable {es : List InstrEdit} {rs : List EditReply}

theorem Steps.lookup (steps : Steps s es rs s') (distinct : s.names.Nodup)
    (found : s.lookup id = some i) (kept : .remove id ∉ es) :
    s'.lookup id = some (es.foldl (fun i e => e.change id i) i) := by
  induction steps generalizing i with
  | nil => exact found
  | cons first _ ih =>
    rw [List.mem_cons, not_or] at kept
    exact ih (first.nodup distinct) (first.lookup distinct found (Ne.symm kept.1)) kept.2

theorem Steps.unnamed (steps : Steps s es rs s') (dead : id ∉ s.names) (other : .placed id ∉ rs) :
    id ∉ s'.names := by
  induction steps with
  | nil => exact dead
  | cons first _ ih =>
    rw [List.mem_cons, not_or] at other
    exact ih (first.unnamed dead (Ne.symm other.1)) other.2

end InstrSequence

namespace InstrList

/-- The list reads as a sequence from either end, its free cells are those that no instruction is in,
and a name that is not in the sequence reaches nothing. -/
structure Represents (l : InstrList) (s : InstrSequence) : Prop where
  distinct : s.names.Nodup
  forwards : ∀ count, s.length ≤ count → l.follow InstrCell.next count l.head = s.names
  backwards : ∀ count, s.length ≤ count → l.follow InstrCell.prev count l.tail = s.names.reverse
  ids : l.ids = s.names
  instrs : l.toList = s.map Prod.snd
  size : l.size = s.length
  freeDistinct : l.free.Nodup
  free : ∀ id, id ∈ l.free ↔ id.index < l.cells.size ∧ id ∉ s.names
  get : ∀ id, l.get? id = s.lookup id
  dead : ∀ id, id ∉ s.names → l.get? id = none ∧ l.remove id = (none, l)

/-- The cells of the list are in the order of the sequence and hold its instructions. -/
structure Carries (l : InstrList) (s : InstrSequence) : Prop where
  links : l.Links s.names
  get : ∀ id, l.get? id = s.lookup id

variable {l : InstrList} {s xs ys : InstrSequence} {id : InstrId} {i : Instr}

theorem carries_empty : empty.Carries [] := by
  obtain ⟨ids, links, none⟩ := holds_empty
  obtain rfl : ids = [] := by simpa using none
  exact ⟨links, fun _ => rfl⟩

theorem Carries.represents (carries : l.Carries s) : l.Represents s := by
  have links := carries.links
  have count : s.names.length = s.length := List.length_map _
  have dead (id : InstrId) (unnamed : id ∉ s.names) : l.get? id = none := by
    rw [carries.get, InstrSequence.lookup_eq_none_iff.mpr unnamed]
  refine ⟨links.distinct, fun n enough => links.follow_next (count ▸ enough),
    fun n enough => links.follow_prev (count ▸ enough), links.ids_eq, ?_, count ▸ links.size,
    links.freeDistinct, links.free, carries.get,
    fun id unnamed => ⟨dead id unnamed, remove_of_get?_eq_none (dead id unnamed)⟩⟩
  have values : s.names.map l.get? = (s.map Prod.snd).map some := by
    rw [InstrSequence.names, List.map_map, List.map_map]
    refine List.map_congr_left fun entry here => ?_
    obtain ⟨id, i⟩ := entry
    obtain ⟨xs, ys, whole⟩ := List.append_of_mem here
    subst whole
    have distinct := links.distinct
    change l.get? id = some i
    rw [carries.get, InstrSequence.lookup_splice (InstrSequence.nodup_splice.mp distinct).1,
      if_pos rfl]
  exact Holds.toList ⟨_, links, values⟩

theorem Carries.place {l' : InstrList} {new : InstrId} (carries : l.Carries (xs ++ ys))
    (links : l'.Links (xs.names ++ new :: ys.names)) (fresh : new ∉ (xs ++ ys).names)
    (get : ∀ k, l'.get? k = if k = new then some i else l.get? k) :
    l'.Carries (xs ++ (new, i) :: ys) := by
  refine ⟨by simpa using links, fun k => ?_⟩
  rw [get, InstrSequence.lookup_splice fresh, carries.get]

theorem Carries.unnamed (carries : l.Carries s) (none : l.get? id = none) : id ∉ s.names := by
  rw [← InstrSequence.lookup_eq_none_iff, ← carries.get, none]

theorem Carries.exists_of_get? (carries : l.Carries s) (found : l.get? id = some i) :
    ∃ xs ys, s = xs ++ (id, i) :: ys := by
  rw [carries.get] at found
  exact InstrSequence.exists_of_lookup found

theorem Carries.remove (carries : l.Carries (xs ++ (id, i) :: ys)) (found : l.get? id = some i) :
    (l.remove id).2.Carries (xs ++ ys) := by
  have links := carries.links
  have gone := (InstrSequence.nodup_splice.mp links.distinct).1
  rw [InstrSequence.names_append, InstrSequence.names_cons] at links
  refine ⟨by simpa using links.remove, fun k => ?_⟩
  rw [get?_remove found, carries.get, InstrSequence.lookup_splice gone]
  split
  · rename_i same
    rw [same, InstrSequence.lookup_eq_none_iff.mpr gone]
  · rfl

theorem Carries.modify (carries : l.Carries (xs ++ (id, i) :: ys)) (f : Instr → Instr) :
    (l.modify id f).Carries (xs ++ (id, f i) :: ys) := by
  have fresh := (InstrSequence.nodup_splice.mp carries.links.distinct).1
  refine ⟨by simpa using carries.links.modify id f, fun k => ?_⟩
  rw [get?_modify, carries.get, InstrSequence.lookup_splice fresh, InstrSequence.lookup_splice fresh]
  split <;> rfl

theorem Carries.modify_none (carries : l.Carries s) (none : l.get? id = none) (f : Instr → Instr) :
    (l.modify id f).Carries s := by
  refine ⟨carries.links.modify id f, fun k => ?_⟩
  rw [get?_modify, ← carries.get]
  split
  · rename_i same
    rw [same, none]
    rfl
  · rfl

theorem Carries.step (carries : l.Carries s) (e : InstrEdit)
    (anchored : ∀ k ∈ e.anchor?, (l.get? k).isSome) :
    ∃ s', InstrSequence.Step s e (e.run l).1 s' ∧ (e.run l).2.Carries s' := by
  have links := carries.links
  have placed (i : Instr) (p q : Option InstrId) (k : InstrId) :
      ((l.alloc i).2.link (l.alloc i).1 p q).get? k =
        if k = (l.alloc i).1 then some i else l.get? k :=
    (get?_link ..).trans (links.get?_alloc i k)
  cases e with
  | append i =>
    have fresh := (links.alloc i).fresh
    have linked := links.append i
    rw [append_eq] at linked
    rw [InstrEdit.run, append_eq]
    refine ⟨_, .append fresh, ?_⟩
    rw [← List.append_nil s] at carries fresh
    exact carries.place linked fresh (placed i _ _)
  | insertBefore k i =>
    obtain ⟨j, found⟩ := Option.isSome_iff_exists.mp (anchored k rfl)
    obtain ⟨xs, ys, rfl⟩ := carries.exists_of_get? found
    have fresh := (links.alloc i).fresh
    rw [InstrSequence.names_append, InstrSequence.names_cons] at links
    have linked := links.insertBefore i
    rw [insertBefore_eq] at linked
    rw [InstrEdit.run, insertBefore_eq]
    exact ⟨_, .insertBefore fresh,
      carries.place linked fresh (placed i ((l.alloc i).2.prevOf (some k)) (some k))⟩
  | insertAfter k i =>
    obtain ⟨j, found⟩ := Option.isSome_iff_exists.mp (anchored k rfl)
    obtain ⟨xs, ys, rfl⟩ := carries.exists_of_get? found
    have fresh := (links.alloc i).fresh
    rw [InstrSequence.names_append, InstrSequence.names_cons] at links
    have linked := links.insertAfter i
    rw [insertAfter_eq] at linked
    rw [InstrEdit.run, insertAfter_eq]
    refine ⟨_, .insertAfter fresh, ?_⟩
    rw [List.append_cons] at carries fresh ⊢
    exact carries.place (by simpa using linked) fresh (placed i _ _)
  | remove id =>
    rw [InstrEdit.run]
    cases found : l.get? id with
    | none =>
      rw [remove_of_get?_eq_none found]
      exact ⟨s, .removeNone (carries.unnamed found), carries⟩
    | some i =>
      obtain ⟨xs, ys, rfl⟩ := carries.exists_of_get? found
      have first : (l.remove id).1 = some i := congrArg Prod.fst (remove_of_get? found)
      rw [first]
      exact ⟨_, .remove, carries.remove found⟩
  | get id =>
    rw [InstrEdit.run, carries.get]
    exact ⟨s, .get, carries⟩
  | modify id f =>
    rw [InstrEdit.run]
    cases found : l.get? id with
    | none => exact ⟨s, .modifyNone (carries.unnamed found), carries.modify_none found f⟩
    | some i =>
      obtain ⟨xs, ys, rfl⟩ := carries.exists_of_get? found
      exact ⟨_, .modify, carries.modify f⟩

open InstrEdit

theorem Carries.steps {es : List InstrEdit} (carries : l.Carries s) (anchored : Anchored es l) :
    ∃ s', InstrSequence.Steps s es (runs es l).1 s' ∧ (runs es l).2.Carries s' := by
  induction es generalizing l s with
  | nil => exact ⟨s, .nil, carries⟩
  | cons e es ih =>
    obtain ⟨s₁, first, carries⟩ := carries.step e anchored.1
    obtain ⟨s₂, later, carries⟩ := ih carries anchored.2
    exact ⟨s₂, .cons first later, carries⟩

theorem runs_append (es es' : List InstrEdit) (l : InstrList) :
    (runs (es ++ es') l).2 = (runs es' (runs es l).2).2 := by
  induction es generalizing l with
  | nil => rfl
  | cons e es ih => exact ih _

theorem anchored_append {es es' : List InstrEdit} :
    Anchored (es ++ es') l ↔ Anchored es l ∧ Anchored es' (runs es l).2 := by
  induction es generalizing l with
  | nil => simp [Anchored, runs]
  | cons e es ih => simp [Anchored, runs, ih, and_assoc]

/-- An instruction list is a sequence. After any edits it represents the sequence that the same
edits with the same replies lead to. An instruction is found under its name as it was last changed
until it is removed. The name of a removed instruction reaches nothing until it is given out again. -/
theorem edits_refine (es : List InstrEdit) (anchored : Anchored es empty) :
    (∃ s, InstrSequence.Steps [] es (runs es empty).1 s ∧ (runs es empty).2.Represents s) ∧
    (∀ before after, es = before ++ after → ∀ id i, (runs before empty).2.get? id = some i →
      .remove id ∉ after →
      (runs es empty).2.get? id = some (after.foldl (fun i e => e.change id i) i)) ∧
    (∀ before after id, es = before ++ .remove id :: after →
      .placed id ∉ (runs after (runs (before ++ [.remove id]) empty).2).1 →
      (runs es empty).2.get? id = none ∧
        (runs es empty).2.remove id = (none, (runs es empty).2)) := by
  refine ⟨?_, ?_, ?_⟩
  · obtain ⟨s, steps, carries⟩ := carries_empty.steps anchored
    exact ⟨s, steps, carries.represents⟩
  · rintro before after rfl id i found kept
    rw [anchored_append] at anchored
    obtain ⟨s, -, carries⟩ := carries_empty.steps anchored.1
    obtain ⟨s', steps, carries'⟩ := carries.steps anchored.2
    rw [carries.get] at found
    rw [runs_append, carries'.get]
    exact steps.lookup carries.links.distinct found kept
  · rintro before after id rfl other
    rw [List.append_cons, anchored_append, anchored_append] at anchored
    obtain ⟨⟨first, -⟩, later⟩ := anchored
    obtain ⟨s, -, carries⟩ := carries_empty.steps first
    obtain ⟨s₁, step, carries₁⟩ := carries.step (.remove id) nofun
    have gone := step.unnamed_of_remove carries.links.distinct
    rw [runs_append] at later other
    obtain ⟨s₂, steps, carries₂⟩ := carries₁.steps later
    rw [List.append_cons, runs_append, runs_append]
    exact carries₂.represents.dead id (steps.unnamed gone other)

def marked (bytes : Nat) : Instr := { op := .push, ty := .i32, bytes }

/-- Instructions placed at the end, behind and before others, and two that are removed and changed. -/
def spliced : List InstrEdit :=
  [.append (marked 1), .append (marked 3), .insertAfter ⟨0⟩ (marked 2), .insertBefore ⟨0⟩ (marked 0),
    .remove ⟨1⟩, .modify ⟨2⟩ fun _ => marked 9]

/-- The name of the removed instruction is given out again. -/
theorem spliced_refines :
    (runs spliced empty).2.get? ⟨2⟩ = some (marked 9) ∧
    (runs spliced empty).2.remove ⟨1⟩ = (none, (runs spliced empty).2) ∧
    ∃ s, InstrSequence.Steps [] (spliced ++ [.append (marked 4)])
        [.placed ⟨0⟩, .placed ⟨1⟩, .placed ⟨2⟩, .placed ⟨3⟩, .found (some (marked 3)),
          .found (some (marked 2)), .placed ⟨1⟩] s ∧
      s.names = [⟨3⟩, ⟨0⟩, ⟨2⟩, ⟨1⟩] ∧ s.map Prod.snd = [0, 1, 9, 4].map marked := by
  have before := edits_refine spliced (by decide)
  have kept := before.2.1 (spliced.take 4) (spliced.drop 4) rfl ⟨2⟩ (marked 2) (by decide)
    (by simp [spliced])
  have dead := before.2.2 (spliced.take 4) (spliced.drop 5) ⟨1⟩ rfl (by decide)
  obtain ⟨s, steps, represents⟩ := (edits_refine (spliced ++ [.append (marked 4)]) (by decide)).1
  have computed : (runs (spliced ++ [.append (marked 4)]) empty).1 = [.placed ⟨0⟩, .placed ⟨1⟩,
        .placed ⟨2⟩, .placed ⟨3⟩, .found (some (marked 3)), .found (some (marked 2)), .placed ⟨1⟩] ∧
      (runs (spliced ++ [.append (marked 4)]) empty).2.ids = [⟨3⟩, ⟨0⟩, ⟨2⟩, ⟨1⟩] ∧
      (runs (spliced ++ [.append (marked 4)]) empty).2.toList = [0, 1, 9, 4].map marked := by
    decide +kernel
  rw [computed.1] at steps
  exact ⟨kept, dead.2, s, steps, represents.ids.symm.trans computed.2.1,
    represents.instrs.symm.trans computed.2.2⟩

end InstrList

end CBackend
