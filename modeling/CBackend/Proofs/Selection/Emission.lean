import CBackend.Proofs.FrameBlocks
import CBackend.Proofs.InstrList
import CBackend.Proofs.Numbering.Table
import CBackend.Proofs.Selection.Walk

/-!
What selection writes. Asking for values and handing out registers adds instructions that neither
change the flow of control nor call, all for the code being selected. It opens and closes no block
of the frame, and numbers stand for what they stood for.
-/

namespace CBackend

inductive Mark where
  | enter
  | leave
  | ret
  | call
  | label (target : Option Symbol)
  | jump (target : Option Symbol)
  | branch (target : Option Symbol)
  deriving DecidableEq

def Instr.mark? (i : Instr) : Option Mark :=
  match i.op with
  | .enter => some .enter
  | .leave => some .leave
  | .ret => some .ret
  | .call | .callind => some .call
  | .label => some (.label i.target)
  | .jmp => some (.jump i.target)
  | .jcc _ => some (.branch i.target)
  | _ => none

theorem Instr.mark?_of_call {i : Instr} (calls : i.op = .call ∨ i.op = .callind) :
    i.mark? = some .call := by
  rcases calls with direct | indirect
  · simp [mark?, direct]
  · simp [mark?, indirect]

theorem Instr.mark?_of_isPlain {i : Instr} (plain : i.op.isPlain = true) : i.mark? = none := by
  unfold mark?
  split <;> simp_all [Opcode.isPlain]

theorem SelectionTable.calls_call : ∀ e ∈ call.entries, e.2 = .call ∨ e.2 = .callind := by
  decide +kernel

/-- Errors about linear code in which a label is missing or blocks do not nest. -/
def CompileError.misshapen : CompileError → Bool
  | .invariant (.noBlockMarker _) | .invariant (.unclosedBlock ..) => true
  | .invariant (.undefinedLabel _) => true
  | _ => false

theorem CompileError.misshapen_of_mild {e : CompileError} (mild : e.grave = false) :
    e.misshapen = false := by
  unfold misshapen
  split <;> first | rfl | cases mild

namespace Generator

/-- Instructions have been added, and numbers stand for what they stood for. -/
structure Extends (g : Generator) (new : List Instr) (g' : Generator) : Prop where
  numbers : g'.numbers = g.numbers
  keys : g.pool.keys <+: g'.pool.keys
  code : ∀ {is}, g.code.Holds is → g'.code.Holds (is ++ new)

structure Emits (g : Generator) (new : List Instr) (g' : Generator) : Prop extends
    g.Extends new g' where
  seq : g'.seq = g.seq
  levels : g'.frame.levels = g.frame.levels

def Quiet (g g' : Generator) : Prop :=
  ∃ new, (∀ i ∈ new, i.mark? = none ∧ i.seq = g.seq) ∧ g.Emits new g'

variable {g g₁ g₂ : Generator} {new new' : List Instr}

theorem Extends.refl (g : Generator) : g.Extends [] g :=
  ⟨rfl, List.prefix_refl _, fun holds => by rwa [List.append_nil]⟩

theorem Extends.trans (first : g.Extends new g₁) (second : g₁.Extends new' g₂) :
    g.Extends (new ++ new') g₂ where
  numbers := second.numbers.trans first.numbers
  keys := first.keys.trans second.keys
  code holds := by
    rw [← List.append_assoc]
    exact second.code (first.code holds)

theorem Emits.refl (g : Generator) : g.Emits [] g := ⟨.refl g, rfl, rfl⟩

theorem Emits.trans (first : g.Emits new g₁) (second : g₁.Emits new' g₂) :
    g.Emits (new ++ new') g₂ :=
  ⟨first.toExtends.trans second.toExtends, second.seq.trans first.seq,
    second.levels.trans first.levels⟩

theorem Quiet.refl (g : Generator) : g.Quiet g := ⟨[], List.forall_mem_nil _, .refl g⟩

theorem Quiet.seq (quiet : g.Quiet g₁) : g₁.seq = g.seq := by
  obtain ⟨_, _, emits⟩ := quiet
  exact emits.seq

theorem Quiet.emits {i : Instr} (quiet : g.Quiet g₁) (emits : g₁.Emits [i] g₂)
    (plain : i.mark? = none) (seq : i.seq = g.seq) : g.Quiet g₂ := by
  obtain ⟨new, plains, first⟩ := quiet
  refine ⟨new ++ [i], ?_, first.trans emits⟩
  exact List.forall_mem_append.mpr ⟨plains, List.forall_mem_singleton.mpr ⟨plain, seq⟩⟩

theorem Quiet.congr (quiet : g.Quiet g₁) (seq : g₂.seq = g₁.seq) (numbers : g₂.numbers = g₁.numbers)
    (code : g₂.code = g₁.code) (levels : g₂.frame.levels = g₁.frame.levels)
    (keys : g₁.pool.keys <+: g₂.pool.keys) : g.Quiet g₂ := by
  obtain ⟨new, plains, emits⟩ := quiet
  refine ⟨new, plains, ?_⟩
  have same : g₁.Emits [] g₂ :=
    ⟨⟨numbers, keys, fun holds => by rwa [List.append_nil, code]⟩, seq, levels⟩
  have both := emits.trans same
  rwa [List.append_nil] at both

end Generator

namespace Gen

open Generator

variable {α β : Type} {g₀ g : Generator} {id : NodeId}

/-- A step that writes no mark; it may fail, but not because of a block. -/
abbrev Quiets (g₀ : Generator) (x : Gen α) (result : α → Prop) : Prop :=
  Keeps g₀.Quiet (fun e _ => e.misshapen = false) x result

theorem emit_ends (i : Instr) (g : Generator) :
    Ends (emit i) g (fun _ g' => g.Emits [{ i with seq := g.seq }] g') fun _ _ => False := by
  refine ⟨⟨rfl, List.prefix_refl _, fun holds => ?_⟩, rfl, rfl⟩
  exact holds.append _

theorem emit'_ends (i : Instr) (g : Generator) :
    Ends (emit' i) g (fun _ g' => g.Emits [{ i with seq := g.seq }] g') fun _ _ => False :=
  (emit_ends i g).bind fun _ _ emits => emits

theorem quiet_emit' {i : Instr} (plain : i.op.isPlain = true) : Quiets g₀ (emit' i) fun _ => True := by
  refine ⟨fun g quiet => ?_⟩
  refine (emit'_ends i g).mono (fun _ g' emits => ⟨?_, trivial⟩) fun _ _ => False.elim
  exact quiet.emits emits (Instr.mark?_of_isPlain plain) quiet.seq

theorem onRegs_ends (step : RegisterFile → Except RegisterError RegisterFile) (g : Generator) :
    Ends (onRegs step) g (fun _ g' => ∃ regs, g' = { g with regs }) fun e _ => e.misshapen = false := by
  unfold onRegs
  refine .after_ok (x := get) rfl ?_
  split
  · rename_i regs _
    exact ⟨regs, rfl⟩
  · exact rfl

theorem quiet_onRegs (step : RegisterFile → Except RegisterError RegisterFile) :
    Quiets g₀ (onRegs step) fun _ => True := by
  refine ⟨fun g quiet => (onRegs_ends step g).imp fun _ g' changed => ?_⟩
  obtain ⟨regs, rfl⟩ := changed
  exact ⟨quiet.congr rfl rfl rfl rfl (List.prefix_refl _), trivial⟩

theorem quiet_onSymbols (step : SymbolTable → α × SymbolTable) :
    Quiets g₀ (onSymbols step) fun _ => True :=
  .modifyGet fun _ quiet => ⟨quiet.congr rfl rfl rfl rfl (List.prefix_refl _), trivial⟩

theorem quiet_hold (op : Operand) : Quiets g₀ (hold op) fun _ => True :=
  .forM fun _ _ => quiet_onRegs _

theorem quiet_release (op : Operand) : Quiets g₀ (release op) fun _ => True :=
  .forM fun _ _ => quiet_onRegs _

section Handles

variable {fine : Operand → Prop} {moves : Bool} {x : Gen α} {result : α → Prop}

theorem Handles.quiet_of (handles : Handles fine moves x result)
    (demotes : moves = true → ∀ mask, Quiets g₀ (Gen.demote mask) fun _ => True) :
    Quiets g₀ x result := by
  induction handles with
  | pure here => exact .pure here
  | throw mild => exact .throw fun _ _ => CompileError.misshapen_of_mild mild
  | look _ _ ih => exact Keeps.get.bind fun g _ => ih g
  | bind _ _ ih ih' => exact ih.bind ih'
  | allocTemp =>
    refine .modifyGet fun g quiet => ⟨quiet.congr rfl rfl rfl ?_ (List.prefix_refl _), trivial⟩
    exact Frame.levels_allocTemp _ _ _ _
  | emit plain => exact quiet_emit' plain
  | modifyStats => exact .modify fun _ quiet => quiet.congr rfl rfl rfl rfl (List.prefix_refl _)
  | modifyNode id key =>
    refine .modify fun g quiet => quiet.congr rfl rfl rfl rfl ?_
    exact (ValuePool.keys_modify _ _ key).symm ▸ List.prefix_refl _
  | associate | dissociate => exact quiet_onRegs _
  | demote allowed => exact demotes allowed _
  | lack => exact .throw fun _ _ => rfl

theorem quiet_demote (mask : RegMask) : Quiets g₀ (demote mask) fun _ => True := by
  unfold demote
  refine Keeps.get.bind fun g _ => ?_
  split
  · exact .pure trivial
  refine Keeps.get.bind fun g _ => ?_
  have stores (id : NodeId) (src : Operand) : Quiets g₀ (registersToMemory id src) _ :=
    (@handles_registersToMemory (fun _ => False) false id src).quiet_of nofun
  refine Keeps.get.bind fun g' _ => ?_
  refine (stores _ _).bind fun mem _ => ?_
  refine (quiet_release _).bind fun _ _ => ?_
  exact ⟨fun _ quiet => ⟨quiet.congr rfl rfl rfl rfl (List.prefix_refl _), trivial⟩⟩

theorem Handles.quiet (handles : Handles fine moves x result) : Quiets g₀ x result :=
  handles.quiet_of fun _ => quiet_demote

end Handles

theorem quiet_allocValue (ty : CType) : Quiets g₀ (allocValue ty) fun _ => True := by
  have alloc (mask : RegMask) : Quiets g₀ (alloc mask) _ := (@handles_alloc (fun _ => False) mask).quiet
  unfold allocValue
  split
  · exact (alloc _).bind fun _ _ => .pure trivial
  refine (alloc _).bind fun lo _ => ?_
  split
  · exact .pure trivial
  refine (quiet_onRegs _).bind fun _ _ => ?_
  refine ((alloc _).tryFinally (quiet_onRegs _) fun e g other => ?_).bind fun hi _ => ?_
  · exact (onRegs_ends _ g).imp fun _ _ _ => other
  · exact .pure trivial

theorem quiet_holdValue (id : NodeId) (op : Operand) : Quiets g₀ (holdValue id op) fun _ => True :=
  (quiet_hold op).bind fun _ _ => .modify fun _ quiet => quiet.congr rfl rfl rfl rfl (List.prefix_refl _)

theorem quiet_popHeld : Quiets g₀ popHeld fun _ => True := by
  refine Keeps.get.bind fun g _ => ?_
  split
  · exact .throw fun _ _ => rfl
  · exact ⟨fun _ quiet => ⟨quiet.congr rfl rfl rfl rfl (List.prefix_refl _), trivial⟩⟩

theorem quiet_addressOf (sym : Symbol) : Quiets g₀ (addressOf sym) fun _ => True := by
  unfold addressOf
  refine Keeps.get.bind fun g _ => ?_
  dsimp only
  split
  · split
    · exact .pure trivial
    · exact .throw fun _ _ => rfl
  · exact .pure trivial

theorem quiet_stage (kid : NodeId) (ty : CType) : Quiets g₀ (stage kid ty) fun _ => True := by
  refine .modifyGet fun g quiet => ⟨quiet.congr rfl rfl rfl rfl ?_, trivial⟩
  exact g.pool.keys_staged kid ty g.seq ▸ List.prefix_append _ _

def quietly (g₀ : Generator) : Discipline where
  Context := Unit
  real := False
  distinct := False
  lax := True
  Emits i := i.op.isPlain = true
  Knows _ _ _ := True
  Is _ _ _ := True
  Runs _ _ _ _ _ x result := Quiets g₀ x result
  mono _ quiet := quiet
  bind := Keeps.bind
  handles := Handles.quiet
  emit := quiet_emit'
  alloc _ := (@handles_alloc (fun _ => True) _).quiet
  allocValue ty _ := (quiet_allocValue ty).imp fun _ _ => ⟨⟨nofun, nofun⟩, nofun⟩
  hold _ rest := (quiet_hold _).bind fun _ _ => rest
  release _ rest := (quiet_release _).bind fun _ _ => rest
  wait _ rest := (quiet_holdValue _ _).bind fun _ _ => rest
  take rest moved := quiet_popHeld.bind fun h _ => by
    obtain ⟨id, op, demoted⟩ := h
    cases demoted with
    | false => exact rest id op ⟨nofun, nofun⟩
    | true => exact moved id op ⟨nofun, nofun⟩ nofun
  node _ := ⟨fun _ quiet => ⟨quiet, trivial⟩⟩
  placed _ _ := ⟨nofun, nofun⟩
  kid _ _ _ := trivial
  kids _ _ _ _ := ⟨trivial, 0, trivial, .inr trivial⟩
  stage _ rest := (quiet_stage _ _).bind fun id _ => rest () id trivial
  constant _ _ := quiet_onSymbols _
  address _ _ _ _ _ := (quiet_addressOf _).imp fun _ _ => ⟨nofun, nofun⟩

theorem quiet_select (id : NodeId) (mask : Format) : Quiets g₀ (select id mask) fun _ => True :=
  Keeps.imp ((quietly g₀).runs_select () .none id mask 0 trivial nofun) fun _ _ => trivial

theorem quiet_flushRegisters : Quiets g₀ flushRegisters fun _ => True :=
  (@handles_flushRegisters (fun _ => True) true).quiet

end Gen

end CBackend
