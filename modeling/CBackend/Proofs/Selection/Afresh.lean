import CBackend.Proofs.Selection.Marks
import CBackend.Proofs.Selection.Prefixes
import CBackend.Proofs.Selection.Sources

/-!
A generator carries nothing over from one function to the next. What it leaves behind is the symbol
table, and of that the frame offsets of earlier functions are never read: the address of a variable
in the frame is taken only after its slot is assigned, in code that is in use and in code that is
dropped alike.
-/

namespace CBackend

theorem RegisterFile.reset_congr {f f' : RegisterFile}
    (same : ∀ r, f.state r = .reserved ↔ f'.state r = .reserved) : f.reset = f'.reset := by
  have each (i : Nat) (inside : i < Reg.count) :
      (f.regs[i]).state = .reserved ↔ (f'.regs[i]).state = .reserved := by
    have here := same ⟨i⟩
    simpa only [state, get, dif_pos inside] using here
  unfold reset
  congr 1
  apply Vector.ext
  intro i inside
  simp only [Vector.getElem_map, each i inside]

/-- What is left of an outcome when the state is dropped. -/
def Gen.outcome {α : Type} : EStateM.Result CompileError Generator α → Except CompileError α
  | .ok a _ => .ok a
  | .error e _ => .error e

namespace Gen

open Generator

variable {α β : Type} {v : Sight} {known known' known'' : Symbol → Prop}

/-- A step that does not see the offsets that are not known, and after which others are known. -/
structure Learns (v : Sight) (known known' : Symbol → Prop) (x : Gen α) : Prop where
  run : ∀ g t, g.Seen (v.knowing known) t → g.Based (v.knowing known) →
    Agree (v.knowing known') (fun _ => True) (x g) (x (g.within (v.beside t)))

namespace Learns

variable {x : Gen α} {f : α → Gen β}

theorem weaken (learns : Learns v known known' x) (fewer : ∀ s, known'' s → known' s) :
    Learns v known known'' x := by
  constructor
  intro g t seen based
  exact (learns.run g t seen based).weaken ⟨rfl, rfl, fewer, rfl, List.prefix_rfl, rfl⟩

theorem of_blind (blind : Blind (v.knowing known) x fun _ => True) : Learns v known known x :=
  ⟨blind.run⟩

theorem bind (first : Learns v known known' x) (rest : ∀ a, Learns v known' known'' (f a)) :
    Learns v known known'' (x >>= f) := by
  constructor
  intro g t seen based
  change Agree _ _ (EStateM.bind x f g) (EStateM.bind x f (g.within (v.beside t)))
  have runs := first.run g t seen based
  unfold EStateM.bind
  cases run : x g with
  | ok a g' =>
    rw [run] at runs
    obtain ⟨-, based', t', seen', other⟩ := runs
    rw [other]
    exact (rest a).run g' t' seen' based'
  | error e g' =>
    rw [run] at runs
    obtain ⟨configured, t', other⟩ := runs
    rw [other]
    exact ⟨⟨configured.options, configured.capacity⟩, t', rfl⟩

end Learns

theorem blind_finish : Blind v finish fun _ => True := by
  apply Blind.of_detached (.modifyGet fun _ _ => rfl)
  intro g
  exact ⟨trivial, fun based => ⟨based.keys, based.numbers⟩⟩

theorem learns_assign (place : Frame → Symbol → SymbolTable → Int × Frame × SymbolTable)
    (recorded : ∀ f s t, (place f s t).2.2 = t.setOffset s (place f s t).1)
    (typed : ∀ f s t u, u.ty s = t.ty s →
      (place f s u).1 = (place f s t).1 ∧ (place f s u).2.1 = (place f s t).2.1) (s : Symbol) :
    Learns v known (fun s' => known s' ∨ s' = s) (modify fun g => { g with
      frame := (place g.frame s g.symbols).2.1
      symbols := (place g.frame s g.symbols).2.2 }) := by
  constructor
  intro g t seen based
  obtain ⟨offset, frame⟩ := typed g.frame s g.symbols t (seen.symbols.ty s)
  refine ⟨trivial, ⟨based.keys, based.numbers⟩,
    t.setOffset s (place g.frame s g.symbols).1, ⟨⟨seen.options, seen.capacity⟩, ?_, ?_⟩, ?_⟩
  · change SymbolTable.Alike _ (place g.frame s g.symbols).2.2 _
    rw [recorded]
    exact seen.symbols.setOffset s _
  · intro s'
    change SymbolTable.isFrameResident (place g.frame s g.symbols).2.2 s' = _
    rw [recorded, SymbolTable.isFrameResident_setOffset]
    exact seen.resident s'
  · have table : (place g.frame s t).2.2 = t.setOffset s (place g.frame s g.symbols).1 := by
      rw [recorded, offset]
    change EStateM.Result.ok () { g.within (v.beside t) with
      frame := (place g.frame s t).2.1
      symbols := (place g.frame s t).2.2 } = _
    rw [frame, table]
    rfl

theorem learns_bindParam (s : Symbol) :
    Learns v known (fun s' => known s' ∨ s' = s) (bindParam s) :=
  learns_assign Frame.bindParam (fun _ _ _ => rfl)
    (fun f s t u same => by simp only [Frame.bindParam, same, and_self]) s

theorem learns_declare (s : Symbol) :
    Learns v known (fun s' => known s' ∨ s' = s) (shapeFrame (.declare s)) :=
  learns_assign Frame.declareLocal (fun _ _ _ => rfl)
    (fun f s t u same => by simp only [Frame.declareLocal, same, and_self]) s

theorem learns_params (params : List Symbol) :
    Learns v known (fun s => known s ∨ s ∈ params) (params.forM bindParam) := by
  induction params generalizing known with
  | nil =>
    have nothing : Blind (v.knowing known) (pure ()) fun _ => True := .pure trivial
    exact (Learns.of_blind nothing).weaken fun s inside => inside.resolve_right List.not_mem_nil
  | cons first rest ih =>
    apply ((learns_bindParam first).bind fun _ => ih).weaken
    intro s inside
    rw [List.mem_cons] at inside
    tauto

theorem learns_stepCode (f : LinearFunction) (reachable : Bool) (pos : Nat)
    (sees : reachable = true → ∀ l ∈ (f.codes.getD pos default).operand?, ∀ id,
      v.numbers[l.index]? = some (some id) → (v.knowing known).Sees id) :
    Learns v known (fun s => known s ∨ f.codes.getD pos default = .declare s)
      (stepCode select f reachable pos) := by
  have first : Blind (v.knowing known) (modify fun g => { g with seq := pos }) fun _ => True :=
    blind_modify _ fun _ _ => ⟨rfl, rfl, rfl⟩
  apply (Learns.of_blind first).bind
  intro _
  by_cases declares : ∃ s, f.codes.getD pos default = .declare s
  · obtain ⟨s, code⟩ := declares
    have shapes : Learns v known (fun s' => known s' ∨ f.codes.getD pos default = .declare s')
        (shapeFrame (.declare s)) := by
      apply (learns_declare s).weaken
      intro s' inside
      rw [code, Code.declare.injEq, eq_comm (a := s)] at inside
      exact inside
    cases reachable with
    | true =>
      have same : selectCode select f pos = shapeFrame (.declare s) := by rw [selectCode, code]
      rw [if_pos rfl, same]
      exact shapes
    | false =>
      have same : (if (f.codes.getD pos default).isStructural = true
          then shapeFrame (f.codes.getD pos default) else pure ()) = shapeFrame (.declare s) := by
        rw [code]
        rfl
      rw [if_neg nofun]
      dsimp only
      rw [same]
      exact shapes
  · have other (s : Symbol) : f.codes.getD pos default ≠ .declare s := fun code =>
      declares ⟨s, code⟩
    have step : Blind (v.knowing known) (if reachable = true then selectCode select f pos
        else if (f.codes.getD pos default).isStructural = true
          then shapeFrame (f.codes.getD pos default) else pure ()) fun _ => True := by
      split
      · rename_i used
        exact blind_selectCode f pos other (sees used)
      · exact .ite (blind_shapeFrame other) (.pure trivial)
    exact (Learns.of_blind step).weaken fun s inside => inside.resolve_right (other s)

end Gen

open Gen Generator

namespace LinearFunction

variable {f : LinearFunction} {v : Sight} {base : Symbol → Prop}

def Declared (f : LinearFunction) (p : Nat) (s : Symbol) : Prop :=
  s ∈ f.params ∨ ∃ q < p, f.codes[q]? = some (.declare s)

/-- A variable is declared before its address is first evaluated. -/
def DeclaredFirst (f : LinearFunction) (s : Symbol) : Prop :=
  ∀ (p : Nat) (l : LinId), f.codes[p]? = some (.eval l) → (f.node l).op = .addr →
    (f.node l).sym = some s → ∃ q < p, f.codes[q]? = some (.declare s)

/-- Whatever lives in the frame is a parameter or is declared before its address is evaluated. -/
def DeclaresFirst (f : LinearFunction) (symbols : SymbolTable) : Prop :=
  ∀ s, symbols.isFrameResident s = true → s ∈ f.params ∨ f.DeclaredFirst s

theorem Evaluated.sees {pos : Nat} {l : LinId} {id : NodeId} (evaluated : f.Evaluated (pos + 1) l)
    (addresses : Addresses v.keys (f.Reads l) id)
    (first : ∀ s, v.resident s = true → base s ∨ s ∈ f.params ∨ f.DeclaredFirst s) :
    (v.knowing fun s => base s ∨ f.Declared pos s).Sees id := by
  apply addresses.mono List.prefix_rfl
  intro s reads
  by_cases lives : v.resident s = true
  · obtain ⟨q, before, k, here, address, names⟩ := evaluated.address reads
    rcases first s lives with known | param | declared
    · exact .inl (.inl known)
    · exact .inl (.inr (.inl param))
    · obtain ⟨q', earlier, declares⟩ := declared q k here address names
      exact .inl (.inr (.inr ⟨q', by omega, declares⟩))
  · exact .inr (Bool.not_eq_true _ ▸ lives)

theorem learns_steps {steps : List (Bool × Nat)} {p n : Nat}
    (positions : steps.map Prod.snd = List.range' p n) (inside : p + n ≤ f.codes.size)
    (sees : ∀ pos, (true, pos) ∈ steps → ∀ l ∈ (f.codes.getD pos default).operand?, ∀ id,
      v.numbers[l.index]? = some (some id) →
        (v.knowing fun s => base s ∨ f.Declared pos s).Sees id) :
    Learns v (fun s => base s ∨ f.Declared p s) (fun s => base s ∨ f.Declared (p + n) s)
      (steps.forM fun (reachable, pos) => stepCode select f reachable pos) := by
  induction steps generalizing p n with
  | nil =>
    obtain rfl : n = 0 := by simpa using congrArg List.length positions.symm
    have nothing : Blind (v.knowing fun s => base s ∨ f.Declared p s) (pure ()) fun _ => True :=
      .pure trivial
    exact .of_blind nothing
  | cons step rest ih =>
    obtain ⟨reachable, pos⟩ := step
    cases n with
    | zero => cases positions
    | succ n =>
      rw [List.range'_succ, List.map_cons, List.cons.injEq] at positions
      obtain ⟨rfl, positions⟩ := positions
      have later := ih positions (by omega) fun q there => sees q (List.mem_cons_of_mem _ there)
      have here := learns_stepCode f reachable pos fun used =>
        sees pos (used ▸ List.mem_cons_self)
      rw [show pos + (n + 1) = pos + 1 + n by omega]
      refine (here.weaken fun s known => ?_).bind fun _ => later
      rcases known with known | param | ⟨q, before, declares⟩
      · exact .inl (.inl known)
      · exact .inl (.inr (.inl param))
      · rcases Nat.lt_succ_iff_lt_or_eq.mp before with earlier | rfl
        · exact .inl (.inr (.inr ⟨q, earlier, declares⟩))
        · refine .inr ?_
          rw [Array.getD_eq_getD_getElem?, declares]
          rfl

theorem prepares_numbered (f : LinearFunction) : Prepares (numbered f) fun _ => True := by
  refine (prepares_flowGraph f).bind fun graph _ => ?_
  refine (prepares_numberValues f graph).bind fun _ _ => ?_
  refine Keeps.bind (.modify fun _ start => ?_) fun _ _ => .pure trivial
  exact { start with }

def selected (f : LinearFunction) (graph : FlowGraph) : Gen CompiledFunction := do
  f.params.forM bindParam
  graph.steps.forM fun (reachable, pos) => stepCode select f reachable pos
  let (code, frameSize) ← finish
  return {
    name := f.name
    ret := f.ret
    params := f.params
    code
    frameSize
    blocks := graph.reachableBlocks.length
    stats := (← get).stats }

theorem generate_eq (f : LinearFunction) (g : Generator) :
    f.generate select g = (numbered f >>= f.selected) g.reset := by
  simp only [generate, prepare, numbered, selected, bind_assoc, pure_bind]
  rfl

theorem compile_of_selected {g : Generator} {after : CompiledFunction → Generator → Prop}
    {failed : CompileError → Generator → Prop} (used : g.Used)
    (refused : ∀ e g, e.malformed = true → failed e g)
    (aborted : ∀ g, failed (.invariant (.aborted .frameOverflow)) g)
    (rest : ∀ graph g', g'.Prepared → graph.blocks.toList.flatMap positions = List.range
      f.codes.size → (∀ l id, g'.numbers[l.index]? = some (some id) → f.Copies g'.pool.keys l id) →
      Ends (f.selected graph) g' after failed) : Ends f.compile g after failed := by
  have prepares := (prepares_numbered f).ends g.reset (prepared_reset used.reserved)
  have first : Ends (numbered f) g.reset
      (fun graph g' => numbered f g.reset = .ok graph g' ∧ g'.Prepared) failed := by
    unfold Ends
    cases run : numbered f g.reset with
    | ok graph g' => exact ⟨rfl, (prepares.ok run).1⟩
    | error e g' => exact refused e g' (prepares.error run).2
  have generates : Ends (f.generate select) g after failed := by
    unfold Ends
    rw [generate_eq]
    refine first.bind ?_
    rintro graph g' ⟨run, prepared⟩
    obtain ⟨positions, copies, -⟩ := numbered_eq_ok run rfl rfl
    refine rest graph g' prepared positions fun l id found => copies l id ?_
    rw [Numbering.number, Generator.numbering, Array.getElem?_toList, found]
    rfl
  exact (checked_ends generates (fun _ _ here _ => here) fun g' _ _ => aborted g').imp
    fun _ _ => And.left

theorem learns_selected {graph : FlowGraph}
    (positions : graph.blocks.toList.flatMap positions = List.range f.codes.size)
    (sees : ∀ pos ∈ graph.visited, ∀ l ∈ (f.codes.getD pos default).operand?, ∀ id,
      v.numbers[l.index]? = some (some id) →
        (v.knowing fun s => base s ∨ f.Declared pos s).Sees id) :
    Learns v base (fun s => base s ∨ f.Declared f.codes.size s) (f.selected graph) := by
  have params : Learns v base (fun s => base s ∨ f.Declared 0 s) (f.params.forM bindParam) := by
    apply (learns_params f.params).weaken
    intro s inside
    rcases inside with known | param | ⟨q, before, _⟩
    · exact .inl known
    · exact .inr param
    · omega
  have steps : Learns v (fun s => base s ∨ f.Declared 0 s)
      (fun s => base s ∨ f.Declared (0 + f.codes.size) s)
      (graph.steps.forM fun (reachable, pos) => stepCode select f reachable pos) := by
    apply learns_steps
    · rw [FlowGraph.positions_eq_steps, positions, List.range_eq_range']
    · rw [Nat.zero_add]
    · intro pos used
      apply sees pos
      rw [← graph.visited_eq_steps]
      exact List.mem_map.mpr ⟨_, List.mem_filter.mpr ⟨used, rfl⟩, rfl⟩
  rw [Nat.zero_add] at steps
  apply params.bind
  intro _
  apply steps.bind
  intro _
  refine .of_blind (.bind blind_finish fun _ _ => ?_)
  exact .get_bind (fun _ _ => rfl) fun _ _ => .pure trivial

theorem generate_agree (f : LinearFunction) (g : Generator) {t : SymbolTable}
    (alike : g.symbols.Alike base t)
    (first : ∀ s, g.symbols.isFrameResident s = true → base s ∨ s ∈ f.params ∨ f.DeclaredFirst s) :
    ∃ v : Sight, v.options = g.options ∧ v.capacity = g.pool.capacity ∧
      Agree v (fun _ => True) (f.generate select g)
        (f.generate select (g.within ⟨t, g.options, g.pool.capacity⟩)) := by
  rw [generate_eq, generate_eq]
  change ∃ v : Sight, _ ∧ _ ∧ Agree v _ (EStateM.bind (numbered f) f.selected g.reset)
    (EStateM.bind (numbered f) f.selected (g.reset.within ⟨t, g.options, g.pool.capacity⟩))
  have other := (nameless_numbered f).run g.reset t
  change numbered f (g.reset.within ⟨t, g.options, g.pool.capacity⟩) =
    relocate ⟨t, g.options, g.pool.capacity⟩ _ at other
  unfold EStateM.bind
  rw [other]
  cases run : numbered f g.reset with
  | error e g' =>
    obtain ⟨-, options, capacity⟩ := Surroundings.mk.inj ((nameless_numbered f).error run)
    exact ⟨⟨g.options, g.pool.capacity, base, g.symbols.isFrameResident, [], #[]⟩, rfl, rfl,
      ⟨options, capacity⟩, t, rfl⟩
  | ok graph g' =>
    obtain ⟨symbols, options, capacity⟩ := Surroundings.mk.inj ((nameless_numbered f).ok run)
    obtain ⟨positions, copies, evaluated⟩ := numbered_eq_ok run rfl rfl
    let v : Sight := ⟨g.options, g.pool.capacity, base, g.symbols.isFrameResident, g'.pool.keys,
      g'.numbers⟩
    refine ⟨v.knowing fun s => base s ∨ f.Declared f.codes.size s, rfl, rfl, ?_⟩
    have seen : g'.Seen (v.knowing base) t :=
      ⟨⟨options, capacity⟩, symbols ▸ alike, fun s => by rw [symbols]; rfl⟩
    refine (learns_selected positions fun pos used l uses id found => ?_).run g' t seen
      ⟨List.prefix_rfl, rfl⟩
    refine (evaluated pos used l uses).sees (copies l id ?_).addresses first
    rw [Numbering.number, Generator.numbering, Array.getElem?_toList, found]
    rfl

theorem compile_agree (f : LinearFunction) (g : Generator) {t : SymbolTable}
    (alike : g.symbols.Alike base t)
    (first : ∀ s, g.symbols.isFrameResident s = true → base s ∨ s ∈ f.params ∨ f.DeclaredFirst s) :
    ∃ v : Sight, v.options = g.options ∧ v.capacity = g.pool.capacity ∧
      Agree v (fun _ => True) (f.compile g)
        (f.compile (g.within ⟨t, g.options, g.pool.capacity⟩)) := by
  obtain ⟨v, options, capacity, agree⟩ := f.generate_agree g alike first
  exact ⟨v, options, capacity, Agree.checked agree⟩

end LinearFunction

namespace Generator.Used

variable {g : Generator}

theorem capacity (used : g.Used) : g.pool.capacity = max g.options.poolCapacity 1 := by
  have kept (f : LinearFunction) (g : Generator) := f.compile_agree g
    (SymbolTable.Alike.refl (fun _ => True) g.symbols) fun _ _ => .inl trivial
  induction used with
  | init => rfl
  | named _ _ ih => exact ih
  | @compiled f g _ _ _ run ih =>
    obtain ⟨v, options, capacity, agree⟩ := kept f g
    rw [run] at agree
    obtain ⟨-, -, t, seen, -⟩ := agree
    rw [seen.capacity, seen.options, options, capacity, ih]
  | @failed f g _ _ _ run ih =>
    obtain ⟨v, options, capacity, agree⟩ := kept f g
    rw [run] at agree
    rw [agree.1.capacity, agree.1.options, options, capacity, ih]

theorem reset_eq (used : g.Used) (symbols : SymbolTable) :
    (g.within ⟨symbols, g.options, g.pool.capacity⟩).reset =
      (Generator.init g.options symbols).reset := by
  have regs : g.regs.reset = RegisterFile.init.reset := by
    apply RegisterFile.reset_congr
    intro r
    rw [used.reserved r, RegisterFile.sound_init.reserved r]
  have pool : g.pool.clear = (ValuePool.init g.options.poolCapacity).clear := by
    rw [ValuePool.clear, used.capacity]
    rfl
  change ({ (Generator.init g.options symbols).reset with
    pool := g.pool.clear
    regs := g.regs.reset } : Generator) = _
  rw [regs, pool]
  rfl

end Generator.Used

/-- Whatever a generator has compiled before, with success or without, a function in which all that
lives in the frame is declared first is compiled as by a new one whose symbols have no offsets. -/
theorem LinearFunction.compile_afresh (f : LinearFunction) {g : Generator} (used : g.Used)
    (first : f.DeclaresFirst g.symbols) :
    outcome (f.compile g) = outcome (f.compile (.init g.options g.symbols.bare)) := by
  obtain ⟨v, -, -, agree⟩ := f.compile_agree g g.symbols.alike_bare
    fun s lives => .inr (first s lives)
  have fresh : f.compile (.init g.options g.symbols.bare) =
      f.compile (g.within ⟨g.symbols.bare, g.options, g.pool.capacity⟩) := by
    rw [compile, compileWith, checked_run, checked_run, generate_eq, generate_eq, used.reset_eq]
  rw [fresh]
  cases run : f.compile g with
  | ok c g' =>
    rw [run] at agree
    obtain ⟨-, -, t, -, other⟩ := agree
    rw [other]
    rfl
  | error e g' =>
    rw [run] at agree
    obtain ⟨-, t, other⟩ := agree
    rw [other]
    rfl

def SymbolTable.single : SymbolTable where
  entries := #[⟨"f", .function, .int, none⟩, ⟨"x", .local, .int, none⟩,
    ⟨"exit", .label, .void, none⟩]

/-- Stores to a variable by way of an address that no conversion gives. -/
def LinearFunction.faulty : LinearFunction where
  name := ⟨0⟩
  ret := .int
  params := []
  codes := #[.frameEnter, .declare ⟨1⟩, .eval ⟨0⟩, .eval ⟨1⟩, .eval ⟨2⟩, .eval ⟨3⟩, .eval ⟨4⟩,
    .label ⟨2⟩, .frameExit]
  nodes := #[
    { op := .addr, ty := .pointer, sym := some ⟨1⟩ },
    { op := .load, ty := .int, left := some ⟨0⟩ },
    { op := .neg, ty := .int, left := some ⟨1⟩ },
    { op := .cvt, ty := .void, left := some ⟨1⟩ },
    { op := .assign, ty := .int, left := some ⟨3⟩, right := some ⟨2⟩ }]
  exit := ⟨2⟩

def LinearFunction.negating : LinearFunction where
  name := ⟨0⟩
  ret := .int
  params := []
  codes := #[.frameEnter, .declare ⟨1⟩, .eval ⟨0⟩, .eval ⟨1⟩, .eval ⟨2⟩, .eval ⟨3⟩, .label ⟨2⟩,
    .frameExit]
  nodes := #[
    { op := .addr, ty := .pointer, sym := some ⟨1⟩ },
    { op := .load, ty := .int, left := some ⟨0⟩ },
    { op := .neg, ty := .int, left := some ⟨1⟩ },
    { op := .assign, ty := .int, left := some ⟨0⟩, right := some ⟨2⟩ }]
  exit := ⟨2⟩

theorem LinearFunction.faulty_stops : (match faulty.compile (.init {} .single) with
    | .ok .. => none
    | .error e g => some (e, g.held.length, g.symbols)) =
      some (.unsupported (.conversion .int .void), 1, SymbolTable.single.setOffset ⟨1⟩ (-4)) := by
  decide +kernel

theorem LinearFunction.negating_declaresFirst (symbols : SymbolTable) :
    negating.DeclaresFirst symbols := by
  have evaluated : ∀ p < 8, ∀ l ∈ negating.codes[p]?.bind Code.lin?,
      (negating.node l).op = .addr → p = 2 ∧ l = ⟨0⟩ := by decide
  intro s _
  right
  intro p l here address names
  have inside : p < 8 := (Array.getElem?_eq_some_iff.mp here).1
  obtain ⟨rfl, rfl⟩ := evaluated p inside l (by rw [here]; rfl) address
  cases names
  exact ⟨1, by omega, rfl⟩

/-- The stopped generator compiles the next function as a new one does. -/
theorem LinearFunction.negating_afresh : ∃ g : Generator, g.Used ∧ g.held ≠ [] ∧
    g.symbols.offset ⟨1⟩ = some (-4) ∧ negating.DeclaresFirst g.symbols ∧
    outcome (negating.compile g) = outcome (negating.compile (.init g.options g.symbols.bare)) := by
  have stops := faulty_stops
  cases run : faulty.compile (.init {} .single) with
  | ok c g =>
    rw [run] at stops
    cases stops
  | error e g =>
    rw [run, Option.some.injEq, Prod.mk.injEq, Prod.mk.injEq] at stops
    obtain ⟨-, held, symbols⟩ := stops
    have used : g.Used := .failed (.init {} .single) run
    have first := negating_declaresFirst g.symbols
    refine ⟨g, used, ?_, ?_, first, negating.compile_afresh used first⟩
    · exact List.ne_nil_of_length_pos (by omega)
    · rw [symbols]
      rfl

end CBackend
