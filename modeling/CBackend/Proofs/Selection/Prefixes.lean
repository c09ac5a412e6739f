import CBackend.Proofs.Selection.Preparation
import CBackend.Proofs.Selection.Rules

/-!
Values and registers agree after every code that has been selected, in every function and whatever
has been compiled before. The failures that would come of a disagreement therefore never occur.
-/

namespace CBackend

theorem Frame.popTo_error {level seq : Nat} {entries rest : List FrameEntry} {kept : List TempSlot}
    {cause : Violation} (failed : Frame.popTo level seq entries kept = (.error cause, rest)) :
    cause = .noBlockMarker level ∨ ∃ inner, cause = .unclosedBlock level inner := by
  fun_induction Frame.popTo level seq entries kept with
  | case1 =>
    cases failed
    exact .inl rfl
  | case2 => cases failed
  | case3 =>
    cases failed
    exact .inr ⟨_, rfl⟩
  | case4 _ _ _ _ ih => exact ih failed
  | case5 _ _ _ ih => exact ih failed

theorem Frame.leaveBlock_error {f f' : Frame} {level seq : Nat} {cause : Violation}
    (failed : f.leaveBlock level seq = (.error cause, f')) :
    cause = .noBlockMarker level ∨ ∃ inner, cause = .unclosedBlock level inner := by
  unfold Frame.leaveBlock at failed
  split at failed
  · rename_i popped
    cases failed
    exact popTo_error popped
  · cases failed

namespace Gen

open Generator

variable {α : Type} {n : Nat} {g : Generator}

theorem outputs_shapeFrame (code : Code) : Outputs (shapeFrame code) := by
  unfold shapeFrame
  split
  · exact ⟨fun _ => ⟨rfl, rfl, rfl, rfl, rfl⟩⟩
  · rename_i level
    refine ⟨fun g => ?_⟩
    refine .after_ok (x := get) rfl ?_
    refine .after_ok (x := get) rfl ?_
    generalize left : g.frame.leaveBlock level g.seq = outcome
    obtain ⟨result, frame⟩ := outcome
    refine .after_ok (x := modify _) rfl ?_
    cases result with
    | ok _ => exact ⟨rfl, rfl, rfl, rfl, rfl⟩
    | error cause =>
      refine ⟨⟨rfl, rfl, rfl, rfl, rfl⟩, ?_⟩
      rcases Frame.leaveBlock_error left with rfl | ⟨_, rfl⟩ <;> rfl
  · exact ⟨fun _ => ⟨rfl, rfl, rfl, rfl, rfl⟩⟩
  · exact ⟨fun _ => .refl _⟩

theorem respects_numberOf_bind {f : NodeId → Gen α} {result : α → Prop} (lin : LinId)
    (rest : ∀ n id, id.index < n → Respects n (f id) result) :
    Respects n (numberOf lin >>= f) result := by
  refine ⟨fun g start => ?_⟩
  refine ((numberOf_ends lin g).mono (fun _ _ here => here) ?_).bind fun id g' ⟨same, known⟩ => ?_
  · intro e g' ⟨same, failed⟩
    have malformed := CompileError.malformed_of_unnumbered failed
    exact ⟨same ▸ start, CompileError.consistent_of_malformed malformed⟩
  · subst g'
    exact (rest _ id (start.numbered id (mem_numbers known))).at_size start

theorem respects_selectCode (f : LinearFunction) (pos : Nat) :
    Respects n (selectCode select f pos) fun _ => True := by
  unfold selectCode
  split
  · rename_i lin _
    rw [nodeAt_bind]
    split
    case isFalse => exact Respects.throw rfl
    split
    · exact respects_numberOf_bind lin fun _ _ => respects_selectEffect
    · exact .pure trivial
  · exact respects_numberOf_bind _ fun _ _ => respects_pushArg
  · exact respects_selectJump _
  · exact respects_numberOf_bind _ fun _ _ issued => respects_selectBranch issued _
  · exact respects_selectLabel _
  · rename_i value _
    have last {n : Nat} : Respects n (if f.codes[pos + 1]? ≠ some (.label f.exit) then selectJump f.exit
        else pure ()) fun _ => True := by
      split
      · exact respects_selectJump _
      · exact .pure trivial
    cases value with
    | none => exact last
    | some lin =>
      refine respects_numberOf_bind lin fun m id issued => ?_
      exact (respects_returnValue issued).bind fun _ _ => last
  · exact respects_numberOf_bind _ fun _ _ issued => respects_selectZeroFill issued _
  · refine (outputs_emit _).respects.bind fun id _ => ?_
    exact .modify fun _ start => start.beside ⟨rfl, rfl, rfl, rfl, rfl⟩
  · exact (outputs_emit' _).respects.bind fun _ _ => (outputs_emit' _).respects
  · exact (outputs_shapeFrame _).respects

theorem respects_stepCode (f : LinearFunction) (reachable : Bool) (pos : Nat) :
    Respects n (stepCode select f reachable pos) fun _ => True := by
  unfold stepCode
  refine Keeps.bind (.modify fun g start => ?_) fun _ _ => ?_
  · exact start.congr (fun _ => ⟨rfl, rfl⟩) rfl (fun _ => ⟨rfl, rfl⟩) start.held rfl
  split
  · exact respects_selectCode f pos
  dsimp only
  split
  · exact (outputs_shapeFrame _).respects
  · exact .pure trivial

end Gen

open Gen Generator

namespace LinearFunction

variable {g : Generator}

/-- Prepares a function and selects its codes up to a number of them. -/
def selectFirst (f : LinearFunction) (count : Nat) : Gen Unit := do
  let graph ← f.prepare
  (graph.steps.take count).forM fun (reachable, pos) => stepCode select f reachable pos

theorem respects_steps (f : LinearFunction) (steps : List (Bool × Nat)) :
    Respects 0 (steps.forM fun (reachable, pos) => stepCode select f reachable pos) fun _ => True :=
  .forM fun (reachable, pos) _ => respects_stepCode f reachable pos

theorem selectFirst_ends (f : LinearFunction) (count : Nat)
    (reserved : ∀ r, g.regs.state r = .reserved ↔ ¬r.Allocatable) :
    RespectsAt 0 g (f.selectFirst count) fun _ => True :=
  (f.prepare_ends reserved).bind fun _ g' start => (f.respects_steps _).ends g' start

theorem generate_ends (f : LinearFunction)
    (reserved : ∀ r, g.regs.state r = .reserved ↔ ¬r.Allocatable) :
    RespectsAt 0 g (f.generate select) fun _ => True := by
  refine (f.prepare_ends reserved).bind fun graph g' start => ?_
  have rest := (f.respects_steps graph.steps).ends g' start
  refine rest.bind fun _ g'' ⟨last, _⟩ => ?_
  exact ⟨last.beside ⟨rfl, rfl, rfl, rfl, rfl⟩, trivial⟩

theorem compile_ends (f : LinearFunction)
    (reserved : ∀ r, g.regs.state r = .reserved ↔ ¬r.Allocatable) :
    RespectsAt 0 g f.compile fun _ => True := by
  refine (checked_ends (f.generate_ends reserved) (fun _ _ here _ => here) ?_).imp fun _ _ => And.left
  rintro g' (⟨_, last, -⟩ | ⟨_, last, -⟩) _
  · exact ⟨last, rfl⟩
  · exact ⟨last, rfl⟩

end LinearFunction

/-- A generator that may have compiled functions before, with success or without. -/
inductive Generator.Used : Generator → Prop
  | init (options : CompileOptions) (symbols : SymbolTable) : Used (.init options symbols)
  | named {g : Generator} (used : Used g) (symbols : SymbolTable) : Used { g with symbols }
  | compiled {f : LinearFunction} {g g' : Generator} {c : CompiledFunction} (used : Used g)
      (run : f.compile g = .ok c g') : Used g'
  | failed {f : LinearFunction} {g g' : Generator} {e : CompileError} (used : Used g)
      (run : f.compile g = .error e g') : Used g'

theorem Generator.Used.reserved {g : Generator} (used : g.Used) (r : Reg) :
    g.regs.state r = .reserved ↔ ¬r.Allocatable := by
  induction used generalizing r with
  | init => exact RegisterFile.sound_init.reserved r
  | named _ _ ih => exact ih r
  | @compiled f _ _ _ _ run ih => exact ((f.compile_ends ih).ok run).1.agrees.regs.reserved r
  | @failed f _ _ _ _ run ih => exact ((f.compile_ends ih).error run).1.agrees.regs.reserved r

/-- After every code that has been selected registers and locations agree, and compilation never
fails in a way that would show the contrary. -/
theorem LinearFunction.registers_agree (f : LinearFunction) {g : Generator} (used : g.Used) :
    (∀ count g', f.selectFirst count g = .ok () g' → g'.Agrees) ∧
      ∀ e g', f.compile g = .error e g' → e.inconsistent = false :=
  ⟨fun count _ run => ((f.selectFirst_ends count used.reserved).ok run).1.agrees,
    fun _ _ run => ((f.compile_ends used.reserved).error run).2⟩

def SymbolTable.measure : SymbolTable where
  entries := #[⟨"f", .function, .void, none⟩, ⟨"g", .function, .double, none⟩]

/-- Calls a function, narrows its floating result to a byte and passes it on as an argument. -/
def LinearFunction.narrowing : LinearFunction where
  name := ⟨0⟩
  ret := .void
  params := []
  codes := #[.frameEnter, .eval ⟨0⟩, .eval ⟨1⟩, .eval ⟨2⟩, .arg ⟨2⟩, .label ⟨2⟩, .frameExit]
  nodes := #[
    { op := .addr, ty := .pointer, sym := some ⟨1⟩ },
    { op := .call, ty := .double, left := some ⟨0⟩ },
    { op := .cvt, ty := .uchar, left := some ⟨1⟩ }]
  exit := ⟨2⟩

theorem LinearFunction.narrowing_users :
    (do narrowing.selectFirst 5; usersOf .eax : Gen _).run' (.init {} .measure) =
      some [⟨3⟩, ⟨2⟩] := by
  decide +kernel

/-- The byte and the integer it was cut from share a register. -/
theorem LinearFunction.registers_agree_narrowing : (Generator.init {} .measure).Used ∧
    ∃ g, narrowing.selectFirst 5 (.init {} .measure) = .ok () g ∧ g.Agrees ∧
      (g.regs.users .eax).map RegUser.node = [⟨3⟩, ⟨2⟩] := by
  have used : (Generator.init {} .measure).Used := .init {} .measure
  obtain ⟨g', run⟩ := exists_of_run' narrowing_users
  obtain ⟨_, g, first, last⟩ := bind_eq_ok.mp run
  have users : (g.regs.users .eax).map RegUser.node = [⟨3⟩, ⟨2⟩] := (EStateM.Result.ok.inj last).1
  exact ⟨used, g, first, (narrowing.registers_agree used).1 5 g first, users⟩

end CBackend
