import CBackend.Proofs.Selection.Prefixes
import CBackend.Proofs.Selection.Walk

/-!
Every step of selection gives back what it takes in hand. An operand that waits may be moved to
memory deep inside the selection of another one, which unpins it; whoever takes it back pins what it
comes back as.
-/

namespace CBackend

theorem CompileError.unaccounted_of_mild {e : CompileError} (mild : e.grave = false) :
    e.unaccounted = false := by
  unfold grave at mild
  unfold unaccounted
  split
  · cases mild
  · cases mild
  · rfl

namespace Gen

open Generator

variable {α β : Type} {id : NodeId} {op : Operand}

theorem level_node (id : NodeId) : Level (node id) fun v => ∀ op, v.loc = some op → op.Real :=
  Level.get.bind fun _ located => .pure (located id)

theorem level_emit (i : Instr) : Level (emit i) fun _ => True :=
  .modifyGet (fun _ => rfl) (fun _ => rfl) fun _ located => located

theorem level_emit' (i : Instr) : Level (emit' i) fun _ => True :=
  (level_emit i).bind fun _ _ => .pure trivial

theorem level_onSymbols (step : SymbolTable → α × SymbolTable) :
    Level (onSymbols step) fun _ => True :=
  .modifyGet (fun _ => rfl) (fun _ => rfl) fun _ located => located

theorem level_demote (mask : RegMask) : Level (demote mask) fun _ => True :=
  .single (fun _ => .demote mask) fun _ _ start =>
    (demote_accounted start mask).imp fun _ _ kept => ⟨kept, trivial⟩

theorem Handles.level {fine : Operand → Prop} {moves : Bool} {x : Gen α} {result : α → Prop}
    (handles : Handles fine moves x result) (real : ∀ op, fine op → op.Real) : Level x result := by
  induction handles with
  | pure here => exact .pure here
  | throw mild => exact Level.throw (CompileError.unaccounted_of_mild mild)
  | look _ _ ih => exact Level.get.bind fun g _ => ih g
  | bind _ _ ih ih' => exact ih.bind ih'
  | allocTemp => exact .modifyGet (fun _ => rfl) (fun _ => rfl) fun _ located => located
  | emit => exact level_emit' _
  | modifyStats => exact .modify (fun _ => rfl) (fun _ => rfl) fun _ located => located
  | modifyNode id _ place =>
    refine .modify (fun _ => rfl) (fun _ => rfl) fun _ located => located.modify id ?_
    intro v before op here
    rcases place v op here with old | ⟨slot, rfl⟩ | fine
    · exact before op old
    · exact Operand.real_slot slot
    · exact real op fine
  | associate =>
    refine .onRegs (fun _ _ ok => (RegisterFile.rehouses_of_associate ok).pins) fun f e failed => ?_
    exact CompileError.unaccounted_of_mild (RegisterFile.mild_of_associate failed)
  | dissociate =>
    refine .onRegs (fun _ _ ok => (RegisterFile.rehouses_of_dissociate ok).pins) fun f e failed => ?_
    exact CompileError.unaccounted_of_mild (RegisterFile.mild_of_dissociate failed)
  | demote => exact level_demote _
  | lack => exact Level.throw rfl

theorem level_alloc (mask : RegMask) : Level (alloc mask) fun r => r.number < Reg.count :=
  (@handles_alloc (fun _ => False) mask).level fun _ => False.elim

theorem hold_single (r : Reg) : hold (.single r) = onRegs (·.pin r) := by
  simp [hold, Operand.single, Operand.regs]

theorem release_single (r : Reg) : release (.single r) = onRegs (·.unpin r) := by
  simp [release, Operand.single, Operand.regs]

theorem level_allocValue (ty : CType) : Level (allocValue ty) Operand.Real := by
  unfold allocValue
  split
  · exact (level_alloc _).bind fun _ inside => .pure (Operand.real_single inside)
  refine (level_alloc _).bind fun lo low => ?_
  split
  · exact .pure (Operand.real_single low)
  rw [← hold_single, ← release_single]
  have real : (Operand.single lo).Real := Operand.real_single low
  constructor
  intro k
  have first : Throughout Accounted k (hold (.single lo)) (fun _ k' => k' = k.hold (.single lo))
      (Accounted k) := by
    refine .single (.hold _) fun g start => ?_
    rw [hold_single]
    refine (onRegs_spec _ g).mono ?_ ?_
    · rintro _ _ ⟨regs, run, rfl⟩
      refine ⟨start.hold real fun r => ?_, rfl⟩
      rw [RegisterFile.pins_of_pin low run]
      simp [Operand.single, Operand.regs, List.count_cons]
    · rintro _ _ ⟨cause, overflow, rfl, rfl⟩
      rw [(RegisterFile.pin_eq_error overflow).2]
      exact ⟨rfl, start⟩
  have second : Throughout Accounted (k.hold (.single lo))
      (tryFinally (alloc .general) (release (.single lo)))
      (fun hi k' => k' = k ∧ hi.number < Reg.count) (Accounted k) := by
    refine .ensure ((level_alloc .general).through _) ?_ fun g start => ?_
    · rintro hi _ ⟨rfl, high⟩
      refine .single (.release (.refl _)) fun g start => ?_
      exact (release_accounted start (.refl _)).mono (fun _ _ released => ⟨released, rfl, high⟩)
        fun _ _ => False.elim
    · exact (release_accounted start (.refl _)).mono (fun _ _ released => released) fun _ _ => False.elim
  refine first.bind fun _ _ same => same ▸ second.bind ?_
  rintro hi _ ⟨rfl, high⟩
  exact (Returns.pure (Operand.real_pair low high)).through _

theorem level_addressOf (sym : Symbol) : Level (addressOf sym) fun a => (Operand.mem a).Real := by
  unfold addressOf
  refine Level.get.bind fun g _ => ?_
  dsimp only
  split
  · split
    · exact .pure (Operand.real_slot _)
    · exact Level.throw rfl
  · exact .pure (List.forall_mem_nil _)

theorem level_stage (kid : NodeId) (ty : CType) : Level (stage kid ty) fun _ => True :=
  .modifyGet (fun _ => rfl) (fun _ => rfl) fun _ located id op place =>
    located id op (ValuePool.loc_staged place)

theorem through_pop {waiting : Nat} {held : List Operand} {f : HeldValue → Gen β}
    {post : β → Holdings → Prop}
    (rest : ∀ id op, op.Real → Through ⟨waiting, op :: held⟩ (f ⟨id, op, false⟩) post)
    (moved : ∀ id op, op.Real → Through ⟨waiting, held⟩ (f ⟨id, op, true⟩) post) :
    Through ⟨waiting + 1, held⟩ (popHeld >>= f) post := by
  have taken : Through ⟨waiting + 1, held⟩ popHeld fun h k' =>
      k' = Holdings.take ⟨waiting + 1, held⟩ h ∧ h.operand.Real :=
    .single .take fun g start => (popHeld_accounted start (Nat.succ_pos _)).mono
      (fun _ _ ⟨taken, real⟩ => ⟨taken, rfl, real⟩) fun _ _ => False.elim
  refine taken.bind ?_
  rintro ⟨id, op, demoted⟩ _ ⟨rfl, real⟩
  cases demoted with
  | false => exact rest id op real
  | true => exact moved id op real

def evenly : Discipline where
  Context := Unit
  real := True
  distinct := False
  lax := True
  Emits _ := True
  Knows _ _ _ := True
  Is _ _ v := ∀ op, v.loc = some op → op.Real
  Runs _ _ k k' _ x result := Through k x fun a k'' => k'' = k' ∧ result a
  mono _ runs := runs
  bind first rest := first.bind fun a _ ⟨same, here⟩ => same ▸ rest a here
  handles handles := (handles.level fun _ fine => fine.real trivial).loose.through _
  emit _ := (level_emit' _).loose.through _
  alloc _ := ((handles_alloc _).level fun _ real => real).loose.through _
  allocValue ty _ := ((level_allocValue ty).loose.through _).mono
    (fun _ _ ⟨same, real⟩ => ⟨same, ⟨fun _ => real, nofun⟩, nofun⟩) fun _ _ => trivial
  hold fine rest := through_hold (fine.real trivial) rest
  release := through_release
  wait fine rest := through_wait (fine.real trivial) rest
  take rest moved := through_pop (fun id op real => rest id op ⟨fun _ => real, nofun⟩)
    fun id op real => moved id op ⟨fun _ => real, nofun⟩ nofun
  node id := (level_node id).loose.through _
  placed known place := ⟨fun _ => known _ place, nofun⟩
  kid _ _ _ := trivial
  kids _ _ _ _ := ⟨trivial, 0, trivial, .inr trivial⟩
  stage _ rest := (level_stage _ _).loose.andThen fun id _ => rest () id trivial
  constant _ _ := (level_onSymbols _).loose.through _
  address _ _ _ _ _ := ((level_addressOf _).loose.through _).mono
    (fun _ _ ⟨same, real⟩ => ⟨same, fun _ => real, nofun⟩) fun _ _ => trivial

theorem level_numberOf (lin : LinId) : Level (numberOf lin) fun _ => True := by
  unfold numberOf
  refine Level.get.bind fun g _ => ?_
  split
  · exact .pure trivial
  · exact Level.throw rfl

theorem level_shapeFrame (code : Code) : Level (shapeFrame code) fun _ => True := by
  unfold shapeFrame
  split
  · exact .modify (fun _ => rfl) (fun _ => rfl) fun _ located => located
  · rename_i level
    refine Level.get.bind fun g _ => Level.get.bind fun g' _ => ?_
    generalize left : g.frame.leaveBlock level g'.seq = outcome
    obtain ⟨result, frame⟩ := outcome
    have leave : Level (modify fun g => { g with frame }) fun _ => True :=
      .modify (fun _ => rfl) (fun _ => rfl) fun _ located => located
    refine leave.bind fun _ _ => ?_
    cases result with
    | ok _ => exact .pure trivial
    | error cause =>
      refine Level.throw ?_
      rcases Frame.leaveBlock_error left with rfl | ⟨_, rfl⟩ <;> rfl
  · exact .modify (fun _ => rfl) (fun _ => rfl) fun _ located => located
  · exact .pure trivial

theorem balanced_selectCode (f : LinearFunction) (pos : Nat) :
    Balanced (selectCode select f pos) fun _ => True := by
  have enter (id : InstrId) : Level (modify fun g => { g with enter := some id }) fun _ => True :=
    .modify (fun _ => rfl) (fun _ => rfl) fun _ located => located
  refine ⟨fun k => evenly.runs_selectCode (c := ()) (w := 0) (fun _ => trivial) nofun f pos ?_
    (fun _ _ _ => (Level.throw rfl).loose.through _) ?_ ?_ ?_⟩
  · exact fun l _ rest runs => (level_numberOf l).loose.andThen fun id _ => runs () id trivial
  · exact fun id => (enter id).loose.through k
  · exact fun i => (level_emit i).loose.through k
  · exact (level_shapeFrame _).loose.through k

theorem balanced_stepCode (f : LinearFunction) (reachable : Bool) (pos : Nat) :
    Balanced (stepCode select f reachable pos) fun _ => True := by
  unfold stepCode
  have move : Level (modify fun g => { g with seq := pos }) fun _ => True :=
    .modify (fun _ => rfl) (fun _ => rfl) fun _ located => located
  refine move.loose.bind fun _ _ => ?_
  split
  · exact balanced_selectCode f pos
  dsimp only
  split
  · exact (level_shapeFrame _).loose
  · exact .pure trivial

end Gen

open Gen Generator

namespace Generator

structure AtRest (g : Generator) : Prop where
  pins : ∀ r, (g.regs.get r).pins = 0
  held : g.held = []
  located : g.Located

variable {g : Generator}

theorem accounted_none_iff : g.Accounted .none ↔ g.AtRest := by
  constructor
  · intro accounted
    have empty : g.held = [] := List.length_eq_zero_iff.mp accounted.waiting
    refine ⟨fun r => ?_, empty, accounted.located⟩
    rw [accounted.pins, empty]
    rfl
  · intro rest
    refine ⟨fun r => ?_, ?_, List.forall_mem_nil _, ?_, rest.located⟩
    · rw [rest.pins, rest.held]
      rfl
    · rw [rest.held]
      rfl
    · rw [rest.held]
      exact List.forall_mem_nil _

theorem Prepared.atRest (prepared : g.Prepared) (limit : Option Nat) :
    ({ g with regs := { g.regs with pinLimit := limit } } : Generator).AtRest where
  pins := prepared.pins
  held := prepared.held
  located id op place := by
    change (g.pool.node id).loc = some op at place
    rw [prepared.pool.loc] at place
    cases place

end Generator

theorem Gen.Balanced.atRest {α : Type} {x : Gen α} (balanced : Balanced x fun _ => True)
    {g : Generator} (rest : g.AtRest) :
    Ends x g (fun _ g' => g'.AtRest) fun e _ => e.unaccounted = false := by
  refine ((balanced.through .none).ends (accounted_none_iff.mpr rest)).mono ?_ fun _ _ other => other.1
  rintro _ g' ⟨_, accounted, rfl, -⟩
  exact accounted_none_iff.mp accounted

namespace LinearFunction

/-- Prepares a function and selects its first codes, with a bound on how often a register can be
pinned. -/
def selectFirstWithin (f : LinearFunction) (limit : Option Nat) (count : Nat) : Gen Unit := do
  let graph ← f.prepare
  modify fun g => { g with regs := { g.regs with pinLimit := limit } }
  (graph.steps.take count).forM fun (reachable, pos) => stepCode select f reachable pos

theorem selectFirstWithin_atRest (f : LinearFunction) {g g' : Generator} (used : g.Used)
    {limit : Option Nat} {count : Nat} (run : f.selectFirstWithin limit count g = .ok () g') :
    g'.AtRest := by
  obtain ⟨graph, g₁, prepares, run⟩ := bind_eq_ok.mp run
  have prepared := (f.prepare_prepared used.reserved).ok prepares
  have steps : Balanced ((graph.steps.take count).forM fun (reachable, pos) =>
      stepCode select f reachable pos) fun _ => True :=
    .forM fun (reachable, pos) _ => balanced_stepCode f reachable pos
  exact (steps.atRest (prepared.atRest limit)).ok run

/-- Pins balance. While a code is selected each register is pinned as often as operands in hand read
it, and as much is in hand afterwards as before, whatever the bound on pins. From rest selection
leads to rest and never fails for a missing pin or a missing operand, and every code of a function is
selected from rest. -/
theorem pins_balance (f : LinearFunction) :
    (∀ pos k, Throughout Accounted k (selectCode select f pos) (fun _ k' => k' = k) fun _ => True) ∧
    (∀ (pos : Nat) (g : Generator), g.AtRest →
      Ends (selectCode select f pos) g (fun _ g' => g'.AtRest) fun e _ => e.unaccounted = false) ∧
    ∀ (limit : Option Nat) (count : Nat) (g g' : Generator), g.Used →
      f.selectFirstWithin limit count g = .ok () g' → g'.AtRest := by
  refine ⟨fun pos k => ?_, fun pos g rest => ?_, fun limit count g g' used run => ?_⟩
  · exact ((balanced_selectCode f pos).through k).mono (fun _ _ ⟨same, _⟩ => same) fun _ _ => trivial
  · exact (balanced_selectCode f pos).atRest rest
  · exact f.selectFirstWithin_atRest used run

/-- Passes a sum of four wide integers as an argument. The first that waits has to make room for the
last, as there are registers for three. -/
def fourPairs : LinearFunction where
  name := ⟨0⟩
  ret := .void
  params := []
  codes := #[.frameEnter, .eval ⟨0⟩, .eval ⟨1⟩, .eval ⟨2⟩, .eval ⟨3⟩, .eval ⟨4⟩, .eval ⟨5⟩, .eval ⟨6⟩,
    .eval ⟨7⟩, .eval ⟨8⟩, .eval ⟨9⟩, .eval ⟨10⟩, .arg ⟨10⟩, .label ⟨5⟩, .frameExit]
  nodes := #[
    { op := .const, ty := .llong, sym := some ⟨1⟩ },
    { op := .neg, ty := .llong, left := some ⟨0⟩ },
    { op := .const, ty := .llong, sym := some ⟨2⟩ },
    { op := .neg, ty := .llong, left := some ⟨2⟩ },
    { op := .const, ty := .llong, sym := some ⟨3⟩ },
    { op := .neg, ty := .llong, left := some ⟨4⟩ },
    { op := .const, ty := .llong, sym := some ⟨4⟩ },
    { op := .neg, ty := .llong, left := some ⟨6⟩ },
    { op := .add, ty := .llong, left := some ⟨1⟩, right := some ⟨3⟩ },
    { op := .add, ty := .llong, left := some ⟨8⟩, right := some ⟨5⟩ },
    { op := .add, ty := .llong, left := some ⟨9⟩, right := some ⟨7⟩ }]
  exit := ⟨5⟩

theorem fourPairs_evictions : (do
    fourPairs.selectFirstWithin none 12
    modify fun g => { g with seq := 12 }
    selectCode select fourPairs 12
    return (← get).stats.evictions : Gen Nat).run' (.init {} { entries := #[] }) = some 1 := by
  decide +kernel

/-- Without a bound on pins the argument is passed, and one operand is moved to memory meanwhile. -/
theorem pins_balance_fourPairs : (Generator.init {} { entries := #[] }).Used ∧
    ∃ g g', fourPairs.selectFirstWithin none 12 (.init {} { entries := #[] }) = .ok () g ∧ g.AtRest ∧
      selectCode select fourPairs 12 { g with seq := 12 } = .ok () g' ∧ g'.AtRest ∧
      g'.stats.evictions = 1 := by
  have used : (Generator.init {} { entries := #[] }).Used := .init ..
  obtain ⟨_, run⟩ := exists_of_run' fourPairs_evictions
  obtain ⟨_, g, first, run⟩ := bind_eq_ok.mp run
  have rest : g.AtRest := fourPairs.pins_balance.2.2 none 12 _ g used first
  obtain ⟨_, g₁, moves, run⟩ := bind_eq_ok.mp run
  cases modify_eq_ok.mp moves
  obtain ⟨_, g', selects, last⟩ := bind_eq_ok.mp run
  have moved : ({ g with seq := 12 } : Generator).AtRest := ⟨rest.pins, rest.held, rest.located⟩
  refine ⟨used, g, g', first, rest, selects, ?_, (EStateM.Result.ok.inj last).1⟩
  exact (fourPairs.pins_balance.2.1 12 _ moved).ok selects

end LinearFunction

end CBackend
