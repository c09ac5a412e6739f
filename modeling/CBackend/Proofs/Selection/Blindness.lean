import CBackend.Proofs.Offsets
import CBackend.Proofs.Selection.Emission

/-!
What selection sees of the symbol table. Two runs that differ in the offsets of some symbols give
the same result as long as the address of none of these is taken.
-/

namespace CBackend

/-- What two runs have in common: the options and the capacity of the value table, the symbols whose
offsets are the same in both, which symbols live in the frame, and which values are numbered. -/
structure Sight where
  options : CompileOptions
  capacity : Nat
  known : Symbol → Prop
  resident : Symbol → Bool
  keys : List ValueKey
  numbers : Array (Option NodeId)

/-- The value and those it is computed from take the addresses of certain symbols only. -/
inductive Addresses (keys : List ValueKey) (allowed : Symbol → Prop) : NodeId → Prop
  | intro {id : NodeId} {key : ValueKey} (found : keys[id.index]? = some key)
      (address : key.op = .addr → ∀ s, key.sym = some s → allowed s)
      (kids : ∀ k ∈ key.kids, Addresses keys allowed k) : Addresses keys allowed id

theorem Addresses.mono {keys keys' : List ValueKey} {allowed allowed' : Symbol → Prop} {id : NodeId}
    (addresses : Addresses keys allowed id) (grown : keys <+: keys')
    (more : ∀ s, allowed s → allowed' s) : Addresses keys' allowed' id := by
  induction addresses with
  | intro found address _ ih =>
    obtain ⟨rest, rfl⟩ := grown
    refine .intro ?_ (fun same s names => more s (address same s names)) ih
    rw [List.getElem?_append_left (List.getElem?_eq_some_iff.mp found).1, found]

namespace Sight

variable {v : Sight}

def beside (v : Sight) (t : SymbolTable) : Surroundings := ⟨t, v.options, v.capacity⟩

def Fixes (v : Sight) (s : Symbol) : Prop := v.known s ∨ v.resident s = false

def Sees (v : Sight) (id : NodeId) : Prop := Addresses v.keys v.Fixes id

def withKeys (v : Sight) (keys : List ValueKey) : Sight := { v with keys }

def knowing (v : Sight) (known : Symbol → Prop) : Sight := { v with known }

structure Narrows (v w : Sight) : Prop where
  options : w.options = v.options
  capacity : w.capacity = v.capacity
  known : ∀ s, v.known s → w.known s
  resident : w.resident = v.resident
  keys : v.keys <+: w.keys
  numbers : w.numbers = v.numbers

end Sight

namespace Generator

structure Configured (v : Sight) (g : Generator) : Prop where
  options : g.options = v.options
  capacity : g.pool.capacity = v.capacity

structure Seen (v : Sight) (t : SymbolTable) (g : Generator) : Prop extends g.Configured v where
  symbols : g.symbols.Alike v.known t
  resident : ∀ s, g.symbols.isFrameResident s = v.resident s

structure Based (v : Sight) (g : Generator) : Prop where
  keys : v.keys <+: g.pool.keys
  numbers : g.numbers = v.numbers

theorem Seen.congr {v : Sight} {t : SymbolTable} {g g' : Generator} (seen : g.Seen v t)
    (same : g'.surroundings = g.surroundings) : g'.Seen v t := by
  obtain ⟨symbols, options, capacity⟩ := Surroundings.mk.inj same
  exact ⟨⟨options ▸ seen.options, capacity ▸ seen.capacity⟩, symbols ▸ seen.symbols,
    symbols ▸ seen.resident⟩

end Generator

namespace Gen

open Generator

variable {α β : Type} {v : Sight} {id : NodeId}

/-- Two outcomes that differ in symbol tables only. After a failure it does not matter how. -/
def Agree (v : Sight) (result : α → Prop) (r r' : EStateM.Result CompileError Generator α) : Prop :=
  match r with
  | .ok a g => result a ∧ g.Based v ∧ ∃ t, g.Seen v t ∧ r' = .ok a (g.within (v.beside t))
  | .error e g => g.Configured v ∧ ∃ t, r' = .error e (g.within (v.beside t))

theorem Agree.checked {x : Gen α} {result : α → Prop} {g g' : Generator}
    (agree : Agree v result (x g) (x g')) :
    Agree v result (tryFinally x checkFrame g) (tryFinally x checkFrame g') := by
  rw [checked_run, checked_run]
  cases run : x g with
  | ok a last =>
    rw [run] at agree
    obtain ⟨here, based, t, seen, other⟩ := agree
    rw [other]
    have same : (last.within (v.beside t)).frame = last.frame := rfl
    cases full : last.frame.overflowed with
    | true =>
      simp only [same, full, if_true]
      exact ⟨seen.toConfigured, t, rfl⟩
    | false =>
      simp only [same, full]
      exact ⟨here, based, t, seen, rfl⟩
  | error e last =>
    rw [run] at agree
    obtain ⟨configured, t, other⟩ := agree
    rw [other]
    exact ⟨configured, t, rfl⟩

/-- A step that does not see the offsets in which two runs differ. -/
structure Blind (v : Sight) (x : Gen α) (result : α → Prop) : Prop where
  run : ∀ g t, g.Seen v t → g.Based v → Agree v result (x g) (x (g.within (v.beside t)))

namespace Blind

variable {x : Gen α} {f : α → Gen β} {result result' : α → Prop} {after : β → Prop}

theorem pure {a : α} (here : result a) : Blind v (pure a) result :=
  ⟨fun _ t seen based => ⟨here, based, t, seen, rfl⟩⟩

theorem throw (e : CompileError) : Blind v (throw e) result :=
  ⟨fun _ t seen _ => ⟨seen.toConfigured, t, rfl⟩⟩

theorem bind (first : Blind v x result) (rest : ∀ a, result a → Blind v (f a) after) :
    Blind v (x >>= f) after := by
  constructor
  intro g t seen based
  change Agree v after (EStateM.bind x f g) (EStateM.bind x f (g.within (v.beside t)))
  have runs := first.run g t seen based
  unfold EStateM.bind
  cases run : x g with
  | ok a g' =>
    rw [run] at runs
    obtain ⟨here, based', t', seen', other⟩ := runs
    rw [other]
    exact (rest a here).run g' t' seen' based'
  | error e g' =>
    rw [run] at runs
    obtain ⟨configured, t', other⟩ := runs
    rw [other]
    exact ⟨configured, t', rfl⟩

theorem imp (blind : Blind v x result) (weaker : ∀ a, result a → result' a) : Blind v x result' := by
  rw [← bind_pure x]
  exact blind.bind fun a here => pure (weaker a here)

theorem ite {p : Prop} [Decidable p] {y : Gen α} (first : Blind v x result)
    (second : Blind v y result) : Blind v (if p then x else y) result := by
  split
  · exact first
  · exact second

theorem of_detached (detached : Detached x)
    (kept : ∀ g, Ends x g (fun a g' => result a ∧ (g.Based v → g'.Based v)) fun _ _ => True) :
    Blind v x result := by
  constructor
  intro g t seen based
  unfold Agree
  cases run : x g with
  | ok a g' =>
    obtain ⟨here, stays⟩ := (kept g).ok run
    refine ⟨here, stays based, t, seen.congr (detached.surroundings_ok run), ?_⟩
    exact detached.ok run _
  | error e g' =>
    have seen' := seen.congr (detached.surroundings_error run)
    exact ⟨seen'.toConfigured, t, detached.error run _⟩

theorem of_quiet (detached : Detached x) (quiet : ∀ g₀, Quiets g₀ x result) : Blind v x result := by
  apply of_detached detached
  intro g
  apply ((quiet g).ends g (.refl g)).mono
  · intro a g' ⟨⟨_, _, emits⟩, here⟩
    exact ⟨here, fun based => ⟨based.keys.trans emits.keys, emits.numbers.trans based.numbers⟩⟩
  · exact fun _ _ _ => trivial

theorem get_bind {k : Generator → Gen α} (same : ∀ g s, k (Generator.within g s) = k g)
    (rest : ∀ g, g.Based v → Blind v (k g) result) : Blind v (get >>= k) result := by
  constructor
  intro g t seen based
  change Agree v result (k g g) (k (g.within (v.beside t)) (g.within (v.beside t)))
  rw [same]
  exact (rest g based).run g t seen based

end Blind

theorem blind_modify (change : Generator → Generator)
    (same : ∀ g s, change (Generator.within g s) = (change g).within s ∧
      (change g).pool = g.pool ∧ (change g).numbers = g.numbers) :
    Blind v (modify change) fun _ => True := by
  apply Blind.of_detached (.modify fun g s => (same g s).1)
  intro g
  obtain ⟨-, pool, numbers⟩ := same g g.surroundings
  exact ⟨trivial, fun based => ⟨pool ▸ based.keys, numbers ▸ based.numbers⟩⟩

theorem blind_emit (i : Instr) : Blind v (emit i) fun _ => True := by
  apply Blind.of_detached (detached_emit i)
  intro g
  exact ⟨trivial, fun based => ⟨based.keys, based.numbers⟩⟩

theorem blind_node (id : NodeId) :
    Blind v (node id) fun n => ∀ k, v.keys[id.index]? = some k → n.key = k := by
  apply Blind.get_bind fun _ _ => rfl
  intro g based
  apply Blind.pure
  intro k found
  obtain ⟨rest, same⟩ := based.keys
  rw [ValuePool.key_node, ← same, List.getD_eq_getElem?_getD,
    List.getElem?_append_left (List.getElem?_eq_some_iff.mp found).1, found]
  rfl

theorem addressOf_run (s : Symbol) (g : Generator) : addressOf s g =
    if g.symbols.isFrameResident s then
      match g.symbols.offset s with
      | some offset => .ok (.based .ebp offset) g
      | none => .error (.invariant (.slotUnassigned (g.symbols.name s))) g
    else .ok (.symbol s) g := by
  change (if g.symbols.isFrameResident s then _ else _ : Gen Address) g = _
  split
  · change (match g.symbols.offset s with | some _ => _ | none => _ : Gen Address) g = _
    cases g.symbols.offset s <;> rfl
  · rfl

theorem blind_addressOf {s : Symbol} (fixed : v.Fixes s) : Blind v (addressOf s) fun _ => True := by
  constructor
  intro g t seen based
  rw [addressOf_run, addressOf_run]
  change Agree v _ _ (if t.isFrameResident s then _ else _)
  rw [seen.symbols.isFrameResident]
  by_cases lives : g.symbols.isFrameResident s
  · have offset : t.offset s = g.symbols.offset s := by
      apply seen.symbols.offset s
      apply fixed.resolve_right
      rw [← seen.resident, lives]
      nofun
    rw [if_pos lives, if_pos lives]
    change Agree v _ _ (match t.offset s with | some _ => _ | none => _)
    rw [offset]
    cases g.symbols.offset s with
    | some offset => exact ⟨trivial, based, t, seen, rfl⟩
    | none =>
      refine ⟨seen.toConfigured, t, ?_⟩
      rw [← seen.symbols.name]
      rfl
  · rw [if_neg lives, if_neg lives]
    exact ⟨trivial, based, t, seen, rfl⟩

theorem blind_intConst (value : Int) (ty : CType) :
    Blind v (onSymbols (·.intConst value ty)) fun _ => True := by
  constructor
  intro g t seen based
  obtain ⟨same, alike⟩ := seen.symbols.intern (toString value) (.intConst value) ty
  refine ⟨trivial, ⟨based.keys, based.numbers⟩, (t.intConst value ty).2, ?_, ?_⟩
  · have elsewhere : SymbolKind.intConst value ≠ .param ∧ SymbolKind.intConst value ≠ .local ∧
        SymbolKind.intConst value ≠ .temp := ⟨nofun, nofun, nofun⟩
    refine ⟨⟨seen.options, seen.capacity⟩, alike, fun s => ?_⟩
    rw [← seen.resident s]
    exact g.symbols.isFrameResident_intern (toString value) ty elsewhere s
  · exact congrArg (EStateM.Result.ok · _) same

theorem Agree.weaken {w : Sight} {result : α → Prop}
    {r r' : EStateM.Result CompileError Generator α} (agree : Agree w result r r')
    (fewer : v.Narrows w) : Agree v result r r' := by
  have beside (t : SymbolTable) : w.beside t = v.beside t := by
    rw [Sight.beside, fewer.options, fewer.capacity, Sight.beside]
  have configured {g : Generator} (configured : g.Configured w) : g.Configured v :=
    ⟨configured.options.trans fewer.options, configured.capacity.trans fewer.capacity⟩
  unfold Agree at agree ⊢
  cases r with
  | ok a g =>
    obtain ⟨here, based, t, seen, other⟩ := agree
    refine ⟨here, ⟨fewer.keys.trans based.keys, based.numbers.trans fewer.numbers⟩, t, ?_,
      beside t ▸ other⟩
    refine ⟨configured seen.toConfigured, seen.symbols.weaken fewer.known, fun s => ?_⟩
    rw [seen.resident, fewer.resident]
  | error e g =>
    obtain ⟨same, t, other⟩ := agree
    exact ⟨configured same, t, beside t ▸ other⟩

theorem blind_stage_bind {kid : NodeId} {ty : CType} {f : NodeId → Gen α} {result : α → Prop}
    (sees : v.Sees kid) (rest : ∀ keys s, v.keys <+: keys → (v.withKeys keys).Sees s →
      Blind (v.withKeys keys) (f s) result) : Blind v (stage kid ty >>= f) result := by
  constructor
  intro g t seen based
  generalize made : ({ g with pool := g.pool.staged kid ty g.seq } : Generator) = g'
  have keys : g'.pool.keys = g.pool.keys ++ [.unary .cvt ty kid] := by
    rw [← made]
    exact g.pool.keys_staged kid ty g.seq
  have grown : v.keys <+: g'.pool.keys := by
    rw [keys]
    exact based.keys.trans (List.prefix_append _ _)
  have sees' : (v.withKeys g'.pool.keys).Sees ⟨g.pool.size⟩ := by
    have found : g'.pool.keys[g.pool.size]? = some (.unary .cvt ty kid) := by
      rw [← made]
      exact g.pool.found_staged kid ty g.seq
    apply Addresses.intro found
    · intro address
      cases address
    · intro k inside
      obtain rfl : k = kid := by simpa [ValueKey.kids, ValueKey.unary] using inside
      exact Addresses.mono sees grown fun _ fixed => fixed
  have same : g'.surroundings = g.surroundings ∧ g'.numbers = g.numbers := by
    subst made
    exact ⟨rfl, rfl⟩
  have seen' := seen.congr same.1
  have run := (rest g'.pool.keys ⟨g.pool.size⟩ grown sees').run g' t
    ⟨⟨seen'.options, seen'.capacity⟩, seen'.symbols, seen'.resident⟩
    ⟨List.prefix_rfl, same.2.trans based.numbers⟩
  subst made
  exact run.weaken ⟨rfl, rfl, fun _ inside => inside, rfl, grown, rfl⟩

theorem detached_popHeld : Detached popHeld := by
  apply Detached.get_bind (fun _ _ => rfl)
  intro g
  split
  · exact .throw _
  · exact Detached.bind (.modify fun _ _ => rfl) fun _ => .pure _

/-- Not to see the offsets in which two runs differ is a discipline. -/
def blindly : Discipline where
  Context := Sight
  real := False
  distinct := False
  lax := True
  Emits _ := True
  Knows v id _ := v.Sees id
  Is v id n := ∀ key, v.keys[id.index]? = some key → n.key = key
  Runs v _ _ _ _ x result := Blind v x result
  mono _ blind := blind
  bind := Blind.bind
  handles handles := .of_quiet handles.detached fun _ => handles.quiet
  emit _ := (blind_emit _).bind fun _ _ => .pure trivial
  alloc _ := .of_quiet (@handles_alloc (fun _ => True) _).detached fun _ =>
    (@handles_alloc (fun _ => True) _).quiet
  allocValue ty _ := .of_quiet (detached_allocValue ty) fun _ =>
    (quiet_allocValue ty).imp fun _ _ => ⟨⟨nofun, nofun⟩, nofun⟩
  hold _ rest := (Blind.of_quiet (detached_hold _) fun _ => quiet_hold _).bind fun _ _ => rest
  release _ rest :=
    (Blind.of_quiet (detached_release _) fun _ => quiet_release _).bind fun _ _ => rest
  wait _ rest := by
    have detached (id : NodeId) (op : Operand) : Detached (holdValue id op) :=
      (detached_hold op).bind fun _ => .modify fun _ _ => rfl
    exact (Blind.of_quiet (detached _ _) fun _ => quiet_holdValue _ _).bind fun _ _ => rest
  take rest moved := (Blind.of_quiet detached_popHeld fun _ => quiet_popHeld).bind fun h _ => by
    obtain ⟨id, op, demoted⟩ := h
    cases demoted with
    | false => exact rest id op ⟨nofun, nofun⟩
    | true => exact moved id op ⟨nofun, nofun⟩ nofun
  node := blind_node
  placed _ _ := ⟨nofun, nofun⟩
  kid sees known left := by
    obtain ⟨found, -, kids⟩ := sees
    rw [known _ found] at left
    exact kids _ (by simp [ValueKey.kids, left])
  kids sees known left right := by
    obtain ⟨found, -, kids⟩ := sees
    rw [known _ found] at left right
    exact ⟨kids _ (by simp [ValueKey.kids, right]), 0, kids _ (by simp [ValueKey.kids, left]),
      .inr trivial⟩
  stage sees rest := blind_stage_bind sees fun keys s _ sees => rest _ s sees
  constant := blind_intConst
  address sees known op known' names := by
    obtain ⟨found, address, -⟩ := sees
    have fixed := address (known _ found ▸ op) _ (known' _ found ▸ names)
    exact (blind_addressOf fixed).imp fun _ _ => ⟨nofun, nofun⟩

theorem blind_numberOf (lin : LinId) :
    Blind v (numberOf lin) fun id => v.numbers[lin.index]? = some (some id) := by
  apply Blind.get_bind (fun _ _ => rfl)
  intro g based
  rw [based.numbers]
  split
  · rename_i found
    exact .pure found
  · exact .throw _

theorem blind_shapeFrame {code : Code} (other : ∀ s, code ≠ .declare s) :
    Blind v (shapeFrame code) fun _ => True := by
  unfold shapeFrame
  split
  · exact blind_modify _ fun _ _ => ⟨rfl, rfl, rfl⟩
  · apply Blind.get_bind (fun _ _ => rfl)
    intro g _
    apply Blind.get_bind (fun _ _ => rfl)
    intro g' _
    generalize g.frame.leaveBlock _ g'.seq = outcome
    obtain ⟨result, frame⟩ := outcome
    have change : Blind v (modify fun g => { g with frame }) fun _ => True :=
      blind_modify _ fun _ _ => ⟨rfl, rfl, rfl⟩
    apply change.bind
    intro _ _
    cases result with
    | ok _ => exact .pure trivial
    | error e => exact .throw _
  · exact absurd rfl (other _)
  · exact .pure trivial

theorem blind_selectCode (f : LinearFunction) (pos : Nat)
    (other : ∀ s, f.codes.getD pos default ≠ .declare s)
    (sees : ∀ l ∈ (f.codes.getD pos default).operand?, ∀ id,
      v.numbers[l.index]? = some (some id) → v.Sees id) :
    Blind v (selectCode select f pos) fun _ => True := by
  refine blindly.runs_selectCode (c := v) (w := 0) (k := .none) (fun _ => trivial) nofun f pos ?_
    (fun _ _ _ => .throw _) ?_ blind_emit (blind_shapeFrame other)
  · intro l operand rest runs
    exact ((blind_numberOf l).imp (sees l operand)).bind fun id seen => runs v id seen
  · exact fun id => blind_modify _ fun _ _ => ⟨rfl, rfl, rfl⟩

end Gen

end CBackend
