import CBackend.Proofs.Selection.Limits

/-!
Where compilation aborts. Of an abort nothing is reported, so it is kept apart from the errors that
compilation ends with. Numbering aborts at a code that evaluates a node that is not there, selection
where a count of pins overflows, and both where the frame has overflowed, which is looked at in the
end.
-/

namespace CBackend

/-- Ends of the compiler itself, of which nothing is reported. -/
def CompileError.aborts : CompileError → Bool
  | .invariant (.aborted _) | .invariant (.register (.aborted _)) => true
  | _ => false

theorem CompileError.reported_of_mild {e : CompileError} (mild : e.grave = false) :
    e.aborts = false := by
  unfold aborts
  split <;> first | rfl | cases mild

/-- Why a compilation aborts, with the state in which it does. -/
inductive LinearFunction.Aborts (f : LinearFunction) (g : Generator) : CompileError → Prop
  | pins {r : Reg} (deep : ¬f.Shallow (mostPins - 2)) :
      f.Aborts g (.invariant (.register (.pinOverflow r)))
  | node {lin : LinId} (evaluated : .eval lin ∈ f.codes) (dangling : f.nodes.size ≤ lin.index) :
      f.Aborts g (.invariant (.aborted (.danglingNode lin)))
  | frame (full : g.frame.overflowed = true) : f.Aborts g (.invariant (.aborted .frameOverflow))

namespace Gen

open Generator

variable {f : LinearFunction} {α β : Type} {x : Gen α} {result : α → Prop}

/-- A computation that does not abort but for want of pins or nodes. -/
abbrev Goes (f : LinearFunction) (x : Gen α) (result : α → Prop) : Prop :=
  Keeps (fun _ => True) (fun e _ => e.aborts = true →
    (∃ r, e = .invariant (.register (.pinOverflow r))) ∨ ∀ g, f.Aborts g e) x result

theorem Goes.throw {e : CompileError} (reported : e.aborts = false) : Goes f (throw e) result :=
  Keeps.throw fun _ _ aborts => absurd (reported.symm.trans aborts) Bool.false_ne_true

theorem Goes.modifyGet {step : Generator → α × Generator} :
    Goes f (modifyGet step) fun _ => True :=
  Keeps.modifyGet fun _ _ => ⟨trivial, trivial⟩

theorem Goes.tryFinally {finalizer : Gen β} (first : Goes f x result)
    (last : Goes f finalizer fun _ => True) : Goes f (tryFinally x finalizer) result :=
  Keeps.tryFinally first last fun _ g expected => (last.ends g trivial).imp fun _ _ _ => expected

theorem goes_pin (r : Reg) : Goes f (onRegs (·.pin r)) fun _ => True := by
  refine .onRegs (fun _ _ _ _ => trivial) fun _ _ failed _ _ => .inl ⟨r, ?_⟩
  rw [(RegisterFile.pin_eq_error failed).2]

theorem goes_unpin (r : Reg) : Goes f (onRegs (·.unpin r)) fun _ => True := by
  refine .onRegs (fun _ _ _ _ => trivial) fun _ _ failed _ aborts => ?_
  rw [RegisterFile.unpin_eq_error failed] at aborts
  cases aborts

theorem goes_hold (op : Operand) : Goes f (hold op) fun _ => True := .forM fun r _ => goes_pin r

theorem goes_release (op : Operand) : Goes f (release op) fun _ => True :=
  .forM fun r _ => goes_unpin r

theorem Handles.goes_of {fine : Operand → Prop} {moves : Bool}
    (handles : Handles fine moves x result)
    (demotes : moves = true → ∀ mask, Goes f (Gen.demote mask) fun _ => True) : Goes f x result := by
  refine handles.keeps (fun e _ mild _ aborts => ?_) (fun _ _ _ _ _ _ _ => trivial)
    (fun _ _ _ _ => trivial) (fun _ _ _ _ _ _ => trivial) demotes fun _ _ _ _ aborts => ?_
  · rw [CompileError.reported_of_mild mild] at aborts
    cases aborts
  · cases aborts

theorem goes_demote (mask : RegMask) : Goes f (demote mask) fun _ => True := by
  unfold demote
  refine Keeps.get.bind fun g _ => ?_
  split
  · exact .pure trivial
  have stores (id : NodeId) (op : Operand) : Goes f (registersToMemory id op) _ :=
    (@handles_registersToMemory (fun _ => False) false id op).goes_of nofun
  refine Keeps.get.bind fun g _ => Keeps.get.bind fun g' _ => ?_
  refine (stores _ _).bind fun _ _ => (goes_release _).bind fun _ _ => ?_
  exact Goes.modifyGet.bind fun _ _ => Goes.modifyGet.bind fun _ _ => .pure trivial

theorem Handles.goes {fine : Operand → Prop} {moves : Bool} (handles : Handles fine moves x result) :
    Goes f x result :=
  handles.goes_of fun _ => goes_demote

theorem goes_alloc (mask : RegMask) : Goes f (alloc mask) fun r => r.number < Reg.count :=
  (@handles_alloc (fun _ => False) mask).goes

theorem goes_allocValue (ty : CType) : Goes f (allocValue ty) fun _ => True := by
  unfold allocValue
  split
  · exact (goes_alloc _).bind fun _ _ => .pure trivial
  refine (goes_alloc _).bind fun lo _ => ?_
  split
  · exact .pure trivial
  refine (goes_pin lo).bind fun _ _ => ?_
  exact ((goes_alloc _).tryFinally (goes_unpin lo)).bind fun _ _ => .pure trivial

theorem goes_addressOf (sym : Symbol) : Goes f (addressOf sym) fun _ => True := by
  unfold addressOf
  refine Keeps.get.bind fun g _ => ?_
  dsimp only
  split
  · split
    · exact .pure trivial
    · exact Goes.throw rfl
  · exact .pure trivial

theorem goes_popHeld : Goes f popHeld fun _ => True := by
  unfold popHeld
  refine Keeps.get.bind fun g _ => ?_
  split
  · exact Goes.throw rfl
  · exact Goes.modifyGet.bind fun _ _ => .pure trivial

/-- Not to abort but for want of pins or nodes is a discipline, known of one function throughout. -/
def steadily : Discipline where
  Context := LinearFunction
  real := False
  distinct := False
  lax := True
  Emits _ := True
  Knows _ _ _ := True
  Is _ _ _ := True
  Runs f _ _ _ _ x result := Goes f x result
  mono _ runs := runs
  bind first rest := first.bind rest
  handles handles := handles.goes
  emit _ := Goes.modifyGet.bind fun _ _ => .pure trivial
  alloc _ := goes_alloc _
  allocValue ty _ := (goes_allocValue ty).imp fun _ _ => ⟨⟨False.elim, False.elim⟩, False.elim⟩
  hold _ rest := (goes_hold _).bind fun _ _ => rest
  release _ rest := (goes_release _).bind fun _ _ => rest
  wait _ rest := ((goes_hold _).bind fun _ _ => Goes.modifyGet).bind fun _ _ => rest
  take rest moved := by
    refine goes_popHeld.bind fun h _ => ?_
    obtain ⟨id, op, demoted⟩ := h
    cases demoted with
    | false => exact rest id op ⟨False.elim, False.elim⟩
    | true => exact moved id op ⟨False.elim, False.elim⟩ False.elim
  node id := Keeps.get.bind fun _ _ => .pure trivial
  placed _ _ := ⟨False.elim, False.elim⟩
  kid _ _ _ := trivial
  kids _ _ _ _ := ⟨trivial, 0, trivial, .inr trivial⟩
  stage _ rest := Goes.modifyGet.bind fun id _ => rest _ id trivial
  constant _ _ := .modifyGet
  address _ _ _ _ _ := (goes_addressOf _).imp fun _ _ => ⟨False.elim, False.elim⟩

theorem goes_numberOf (lin : LinId) : Goes f (numberOf lin) fun _ => True := by
  unfold numberOf
  refine Keeps.get.bind fun g _ => ?_
  split
  · exact .pure trivial
  · exact Goes.throw rfl

theorem goes_shapeFrame (code : Code) : Goes f (shapeFrame code) fun _ => True := by
  unfold shapeFrame
  split
  · exact .modifyGet
  · rename_i level
    refine Keeps.get.bind fun g _ => Keeps.get.bind fun g' _ => ?_
    generalize left : g.frame.leaveBlock level g'.seq = outcome
    obtain ⟨result, frame⟩ := outcome
    refine Goes.modifyGet.bind fun _ _ => ?_
    cases result with
    | ok _ => exact .pure trivial
    | error cause =>
      refine Goes.throw ?_
      rcases Frame.leaveBlock_error left with rfl | ⟨_, rfl⟩ <;> rfl
  · exact .modifyGet
  · exact .pure trivial

theorem goes_stepCode (reachable : Bool) (pos : Nat) :
    Goes f (stepCode select f reachable pos) fun _ => True := by
  unfold stepCode
  refine Goes.modifyGet.bind fun _ _ => ?_
  split
  · refine steadily.runs_selectCode (c := f) (w := 0) (k := .none) (fun _ => trivial) nofun f pos
      ?_ ?_ ?_ ?_ (goes_shapeFrame _)
    · exact fun l _ rest runs => (goes_numberOf l).bind fun id _ => runs f id trivial
    · exact fun l code dangling => Keeps.throw fun _ _ _ => .inr fun _ => .node (mem_of_getD code) dangling
    · exact fun _ => .modifyGet
    · exact fun _ => .modifyGet
  dsimp only
  split
  · exact goes_shapeFrame _
  · exact .pure trivial

theorem goes_numberNode {lin : LinId} (evaluated : .eval lin ∈ f.codes) :
    Goes f (numberNode f lin) fun _ => True := by
  have operand (kid : Option LinId) : Goes f (numberOf? kid) fun _ => True := by
    cases kid with
    | none => exact .pure trivial
    | some l => exact (goes_numberOf l).bind fun _ _ => .pure trivial
  rw [numberNode_eq, nodeAt_bind]
  split
  case isFalse dangling =>
    exact Keeps.throw fun _ _ _ => .inr fun _ => .node evaluated (Nat.le_of_not_lt dangling)
  refine (operand _).bind fun left _ => (operand _).bind fun right _ => ?_
  split
  · exact Goes.modifyGet
  · exact Goes.throw rfl

theorem goes_numberValues (graph : FlowGraph) : Goes f (numberValues f graph) fun _ => True := by
  refine NumberingRules.numberValues (P := fun x => Goes f x fun _ => True) ?_ graph
  exact {
    pure _ := .pure trivial
    bind first rest := first.bind fun a _ => rest a
    read _ rest := Keeps.get.bind fun g _ => rest g
    start := .modifyGet
    numberNode _ evaluated := goes_numberNode evaluated
    numberOf := goes_numberOf
    countUse _ _ _ _ := .modifyGet
    reset := .modifyGet
    invalidate _ := .modifyGet }

theorem goes_flowGraph : Goes f (flowGraph f) fun _ => True := by
  unfold flowGraph
  refine Keeps.bind (.ofExcept fun e _ failed _ aborts => ?_) fun graph _ => ?_
  · obtain ⟨l, rfl⟩ := FlowGraph.build_eq_error failed
    cases aborts
  refine Keeps.get.bind fun g _ => ?_
  split
  · exact Goes.modifyGet.bind fun _ _ => .pure trivial
  · exact .pure trivial

theorem goes_prepare (f : LinearFunction) : Goes f f.prepare fun _ => True := by
  unfold LinearFunction.prepare
  refine Goes.modifyGet.bind fun _ _ => goes_flowGraph.bind fun graph _ => ?_
  refine (goes_numberValues graph).bind fun _ _ => Goes.modifyGet.bind fun _ _ => ?_
  exact (Keeps.forM fun _ _ => Goes.modifyGet).bind fun _ _ => .pure trivial

theorem goes_generate (f : LinearFunction) : Goes f (f.generate select) fun _ => True := by
  unfold LinearFunction.generate
  refine (goes_prepare f).bind fun graph _ => ?_
  refine (Keeps.forM fun step _ => goes_stepCode step.1 step.2).bind fun _ _ => ?_
  exact Goes.modifyGet.bind fun _ _ => Keeps.get.bind fun _ _ => .pure trivial

end Gen

open Gen

theorem LinearFunction.compile_aborts (f : LinearFunction) {g : Generator} (used : g.Used) :
    Ends f.compile g (fun _ g' => g'.frame.overflowed = false) fun e g' =>
      (e.aborts = true → f.Aborts g' e) ∧
        (g'.frame.overflowed = true → e = .invariant (.aborted .frameOverflow)) := by
  have stops : Ends f.compile g (fun _ g' => g'.frame.overflowed = false) fun e g' =>
      (e.aborts = true → (∃ r, e = .invariant (.register (.pinOverflow r))) ∨ f.Aborts g' e) ∧
        (g'.frame.overflowed = true → e = .invariant (.aborted .frameOverflow)) := by
    refine (checked_ends ((goes_generate f).ends g trivial) (fun e g' expected whole => ?_) ?_).imp
      fun _ _ => And.right
    · refine ⟨fun aborts => (expected aborts).imp_right fun known => known g', fun full => ?_⟩
      rw [whole] at full
      cases full
    · exact fun g' _ full => ⟨fun _ => .inr (.frame full), fun _ => rfl⟩
  refine (stops.and (f.compile_excused used id)).mono (fun _ _ => And.left) ?_
  rintro e g' ⟨⟨known, full⟩, excuses⟩
  refine ⟨fun aborts => ?_, full⟩
  obtain ⟨r, rfl⟩ | known := known aborts
  · exact .pins fun shallow => excuses.pins shallow r rfl
  · exact known

end CBackend
