import CBackend.Proofs.Registers
import CBackend.Proofs.Selection.Keeps
import CBackend.Selection.Allocation

/-!
Values and registers agree: a register lists a part of a value exactly if that register is the
value's location for the part. This is what holds between the steps of selection; steps that only
add to the output and steps that pin registers keep it.
-/

namespace CBackend

namespace ValuePool

theorem node_modify (p : ValuePool) (id k : NodeId) (change : ValueNode → ValueNode) :
    (p.modify id change).node k =
      if k = id ∧ id.index < p.size then change (p.node k) else p.node k := by
  have index : id.index = k.index ↔ k = id := by cases id; cases k; simp [eq_comm]
  unfold node modify size
  simp only [Array.getD_eq_getD_getElem?, Array.getElem?_modify, index]
  by_cases same : k = id
  · subst same
    by_cases inside : k.index < p.nodes.size
    · simp [inside]
    · simp [inside]
  · simp [same]

@[simp] theorem size_modify (p : ValuePool) (id : NodeId) (change : ValueNode → ValueNode) :
    (p.modify id change).size = p.size := by
  simp [modify, size]

theorem node_of_size_le (p : ValuePool) {id : NodeId} (outside : p.size ≤ id.index) :
    p.node id = default := by
  unfold size at outside
  simp [node, Array.getD_eq_getD_getElem?, outside]

theorem node_fresh (p : ValuePool) (key : ValueKey) (aux : Int) (k : NodeId) :
    (p.fresh key aux).2.node k =
      if k.index = p.size then { key, aux, generation := p.generation } else p.node k := by
  unfold fresh push node size
  simp only [Array.getD_eq_getD_getElem?, Array.getElem?_push]
  split <;> rfl

@[simp] theorem size_fresh (p : ValuePool) (key : ValueKey) (aux : Int) :
    (p.fresh key aux).2.size = p.size + 1 := by
  simp [fresh, push, size]

end ValuePool

namespace Operand

/-- The register of a part: part zero is in the low register, part one in the high one. -/
def part? : Operand → Nat → Option Reg
  | .reg lo _, 0 => some lo
  | .reg _ hi, 1 => hi
  | _, _ => none

/-- An operand that reads only registers that values may live in, if it is in registers. -/
def Proper (op : Operand) : Prop := ∀ part r, op.part? part = some r → r.Allocatable

theorem proper_single {r : Reg} (allocatable : r.Allocatable) : (single r).Proper := by
  rintro (_ | _ | _) s ⟨⟩
  exact allocatable

theorem proper_pair {lo hi : Reg} (low : lo.Allocatable) (high : hi.Allocatable) :
    (pair lo hi).Proper := by
  rintro (_ | _ | _) s ⟨⟩
  · exact low
  · exact high

theorem proper_imm (sym : Symbol) : (imm sym).Proper := nofun

theorem proper_mem (a : Address) : (mem a).Proper := nofun

theorem proper_ind (a : Address) : (ind a).Proper := nofun

theorem Proper.low {lo : Reg} {hi : Option Reg} (proper : (reg lo hi).Proper) : lo.Allocatable :=
  proper 0 lo rfl

theorem Proper.high {lo hi : Reg} (proper : (reg lo (some hi)).Proper) : hi.Allocatable :=
  proper 1 hi rfl

end Operand

namespace Generator

/-- The register that holds a part of a value, according to the location of the value. -/
def register? (g : Generator) (id : NodeId) (part : Nat) : Option Reg :=
  (g.pool.node id).loc.bind (·.part? part)

structure Agrees (g : Generator) : Prop where
  regs : g.regs.Sound
  users : ∀ r id part, g.regs.Holds r id part ↔ g.register? id part = some r

def InRegisters (g : Generator) (id : NodeId) : Prop :=
  ∃ lo hi, (g.pool.node id).loc = some (.reg lo hi)

variable {g g' : Generator} {id : NodeId}

theorem inRegisters_of_register {part : Nat} {r : Reg} (found : g.register? id part = some r) :
    g.InRegisters id := by
  unfold register? at found
  cases place : (g.pool.node id).loc with
  | none => simp [place] at found
  | some op =>
    cases op with
    | reg lo hi => exact ⟨lo, hi, place⟩
    | imm | mem | ind => simp [place, Operand.part?] at found

theorem InRegisters.issued (inside : g.InRegisters id) : id.index < g.pool.size := by
  by_contra outside
  obtain ⟨lo, hi, place⟩ := inside
  rw [ValuePool.node_of_size_le _ (Nat.le_of_not_lt outside)] at place
  cases place

theorem Agrees.proper (agrees : g.Agrees) {op : Operand} (place : (g.pool.node id).loc = some op) :
    op.Proper := by
  intro part r found
  have held : g.regs.Holds r id part :=
    (agrees.users r id part).mpr (by simp [register?, place, found])
  by_contra other
  obtain ⟨u, member, -⟩ := held
  rw [agrees.regs.empty r other] at member
  cases member

theorem Agrees.congr (agrees : g.Agrees) (regs : g.regs.Alike g'.regs)
    (places : ∀ id, (g'.pool.node id).loc = (g.pool.node id).loc) : g'.Agrees where
  regs := agrees.regs.alike regs
  users r id part := by
    rw [regs.holds, register?, places]
    exact agrees.users r id part

/-- What holds between the steps of selection, with numbers below `n` issued: operands have smaller
numbers than their values, and what waits or was numbered has an issued number. -/
structure Selecting (n : Nat) (g : Generator) : Prop where
  agrees : g.Agrees
  kids : ∀ id, ∀ k ∈ (g.pool.node id).key.kids, k.index < id.index
  held : ∀ h ∈ g.held, h.node.index < g.pool.size ∧ h.operand.Proper
  numbered : ∀ id, some id ∈ g.numbers → id.index < g.pool.size
  size : n ≤ g.pool.size

variable {n : Nat}

theorem Selecting.at_size (start : g.Selecting n) : g.Selecting g.pool.size :=
  { start with size := Nat.le_refl _ }

theorem Selecting.weaken {m : Nat} (start : g.Selecting m) (fewer : n ≤ m) : g.Selecting n :=
  { start with size := Nat.le_trans fewer start.size }

theorem Selecting.congr (start : g.Selecting n) (regs : g.regs.Alike g'.regs)
    (size : g'.pool.size = g.pool.size)
    (nodes : ∀ id, (g'.pool.node id).loc = (g.pool.node id).loc ∧
      (g'.pool.node id).key = (g.pool.node id).key)
    (held : ∀ h ∈ g'.held, h.node.index < g.pool.size ∧ h.operand.Proper)
    (numbers : g'.numbers = g.numbers) : g'.Selecting n where
  agrees := start.agrees.congr regs fun id => (nodes id).1
  kids id := by
    rw [(nodes id).2]
    exact start.kids id
  held h inside := by
    rw [size]
    exact held h inside
  numbered id inside := by
    rw [size]
    exact start.numbered id (numbers ▸ inside)
  size := by
    rw [size]
    exact start.size

theorem Selecting.modify (start : g.Selecting n) (id : NodeId) {change : ValueNode → ValueNode}
    (place : ∀ v, (change v).loc = v.loc) (key : ∀ v, (change v).key = v.key) :
    ({ g with pool := g.pool.modify id change } : Generator).Selecting n := by
  refine start.congr (fun _ => ⟨rfl, rfl⟩) (g.pool.size_modify id change) (fun k => ?_) start.held
    rfl
  rw [ValuePool.node_modify]
  split
  · exact ⟨place _, key _⟩
  · exact ⟨rfl, rfl⟩

theorem Selecting.fresh (start : g.Selecting n) {key : ValueKey}
    (kids : ∀ k ∈ key.kids, k.index < g.pool.size) (aux : Int) :
    ({ g with pool := (g.pool.fresh key aux).2 } : Generator).Selecting (g.pool.size + 1) where
  agrees := by
    refine start.agrees.congr (fun _ => ⟨rfl, rfl⟩) fun id => ?_
    rw [ValuePool.node_fresh]
    split
    · rename_i new
      rw [ValuePool.node_of_size_le _ (Nat.le_of_eq new.symm)]
      rfl
    · rfl
  kids id k inside := by
    rw [ValuePool.node_fresh] at inside
    split at inside
    · rename_i new
      rw [new]
      exact kids k inside
    · exact start.kids id k inside
  held h inside := by
    rw [ValuePool.size_fresh]
    exact (start.held h inside).imp_left Nat.lt_succ_of_lt
  numbered id inside := by
    rw [ValuePool.size_fresh]
    exact Nat.lt_succ_of_lt (start.numbered id inside)
  size := Nat.le_of_eq (g.pool.size_fresh key aux).symm

structure Beside (g g' : Generator) : Prop where
  regs : g'.regs = g.regs
  pool : g'.pool = g.pool
  held : g'.held = g.held
  numbers : g'.numbers = g.numbers
  seq : g'.seq = g.seq

theorem Beside.refl (g : Generator) : g.Beside g := ⟨rfl, rfl, rfl, rfl, rfl⟩

theorem Selecting.beside (start : g.Selecting n) (beside : g.Beside g') : g'.Selecting n := by
  refine start.congr (fun r => ?_) (by rw [beside.pool]) (fun id => ?_) ?_ beside.numbers
  · rw [beside.regs]
    exact ⟨rfl, rfl⟩
  · rw [beside.pool]
    exact ⟨rfl, rfl⟩
  · rw [beside.held]
    exact start.held

end Generator

/-- Failures that would show that registers and locations disagree, or that a value is its own
operand. -/
def CompileError.inconsistent : CompileError → Bool
  | .invariant (.register (.notAssociated ..)) | .invariant (.register (.reserved _))
  | .invariant (.spillOutsideRegister _) | .invariant (.cyclicValue _) => true
  | _ => false

namespace Gen

open Generator

variable {α β : Type} {n : Nat} {g : Generator} {id : NodeId} {result : α → Prop} {x : Gen α}

/-- A step that keeps registers and locations in agreement, and whose failures are no sign of the
contrary. -/
abbrev Respects (n : Nat) (x : Gen α) (result : α → Prop) : Prop :=
  Keeps (Selecting n) (fun e g => g.Selecting n ∧ e.inconsistent = false) x result

abbrev RespectsAt (n : Nat) (g : Generator) (x : Gen α) (result : α → Prop) : Prop :=
  Ends x g (fun a g' => g'.Selecting n ∧ result a) fun e g' => g'.Selecting n ∧ e.inconsistent = false

theorem RespectsAt.weaken {m : Nat} (respects : RespectsAt m g x result) (fewer : n ≤ m) :
    RespectsAt n g x result :=
  respects.mono (fun _ _ => .imp_left (·.weaken fewer)) fun _ _ => .imp_left (·.weaken fewer)

theorem Respects.at_size (respects : Respects g.pool.size x result) (start : g.Selecting n) :
    RespectsAt n g x result :=
  RespectsAt.weaken (respects.ends g start.at_size) start.size

theorem Respects.throw {e : CompileError} (expected : e.inconsistent = false) :
    Respects n (throw e) result := Keeps.throw fun _ start => ⟨start, expected⟩

theorem Respects.tryFinally {finalizer : Gen β} (respects : Respects n x result)
    (last : Respects n finalizer fun _ => True) : Respects n (tryFinally x finalizer) result := by
  refine Keeps.tryFinally respects last fun e g ⟨start, expected⟩ => ?_
  exact (last.ends g start).imp fun _ _ ⟨kept, _⟩ => ⟨kept, expected⟩

theorem respects_node (id : NodeId) : Respects n (node id) fun v =>
    (∀ k ∈ v.key.kids, k.index < id.index) ∧ ∀ op, v.loc = some op → op.Proper :=
  ⟨fun _ start => ⟨start, start.kids id, fun _ place => start.agrees.proper place⟩⟩

theorem respects_modifyNode (id : NodeId) {change : ValueNode → ValueNode}
    (place : ∀ v, (change v).loc = v.loc) (key : ∀ v, (change v).key = v.key) :
    Respects n (modifyNode id change) fun _ => True :=
  .modify fun _ start => start.modify id place key

/-- A step that only adds to the output: to the code, the frame, the counts or the symbols. -/
structure Outputs (x : Gen α) : Prop where
  beside : ∀ g, Ends x g (fun _ g' => g.Beside g')
    fun e g' => g.Beside g' ∧ e.inconsistent = false

theorem Outputs.ends (outputs : Outputs x) (start : g.Selecting n) :
    Ends x g (fun _ g' => g'.Selecting n ∧ g.Beside g')
      fun e g' => g'.Selecting n ∧ e.inconsistent = false :=
  (outputs.beside g).mono (fun _ _ beside => ⟨start.beside beside, beside⟩)
    fun _ _ ⟨beside, expected⟩ => ⟨start.beside beside, expected⟩

theorem Outputs.respects (outputs : Outputs x) : Respects n x fun _ => True :=
  ⟨fun _ start => (outputs.ends start).imp fun _ _ ⟨kept, _⟩ => ⟨kept, trivial⟩⟩

theorem outputs_modifyStats (f : FunctionStats → FunctionStats) : Outputs (modifyStats f) :=
  ⟨fun _ => ⟨rfl, rfl, rfl, rfl, rfl⟩⟩

theorem outputs_onSymbols (step : SymbolTable → α × SymbolTable) : Outputs (onSymbols step) :=
  ⟨fun _ => ⟨rfl, rfl, rfl, rfl, rfl⟩⟩

theorem outputs_allocTemp (owner : NodeId) (size lastRef : Nat) :
    Outputs (allocTemp owner size lastRef) :=
  ⟨fun _ => ⟨rfl, rfl, rfl, rfl, rfl⟩⟩

theorem outputs_emit (instr : Instr) : Outputs (emit instr) :=
  ⟨fun _ => ⟨rfl, rfl, rfl, rfl, rfl⟩⟩

theorem outputs_emit' (instr : Instr) : Outputs (emit' instr) :=
  ⟨fun _ => ⟨rfl, rfl, rfl, rfl, rfl⟩⟩

theorem outputs_ofExcept {r : Except CompileError α}
    (failed : ∀ e, r = .error e → e.inconsistent = false) : Outputs (ofExcept r) := by
  refine ⟨fun g => ?_⟩
  cases r with
  | ok a => exact .refl g
  | error e => exact ⟨.refl g, failed e rfl⟩

theorem outputs_lookup (table : SelectionTable) (key : Nat) :
    Outputs (ofExcept (table.lookup key)) := by
  refine outputs_ofExcept fun e failed => ?_
  unfold SelectionTable.lookup at failed
  split at failed
  · cases failed
  · cases failed
    rfl

theorem outputs_moveOpcode (dst src : Format) (ty : ValueClass) : Outputs (moveOpcode dst src ty) :=
  outputs_lookup _ _

theorem outputs_forOp (op : Op) : Outputs (ofExcept (SelectionTable.forOp op)) := by
  refine outputs_ofExcept fun e failed => ?_
  cases op <;> cases failed <;> rfl

theorem respects_onRegs {step : RegisterFile → Except RegisterError RegisterFile}
    (alike : ∀ f f', step f = .ok f' → f.Alike f')
    (failed : ∀ f e, step f = .error e → (CompileError.invariant (.register e)).inconsistent = false) :
    Respects n (onRegs step) fun _ => True := by
  refine ⟨fun g start => ?_⟩
  unfold onRegs
  refine .after_ok (x := get) rfl ?_
  cases run : step g.regs with
  | ok regs =>
    exact ⟨start.congr (alike _ _ run) rfl (fun _ => ⟨rfl, rfl⟩) start.held rfl, trivial⟩
  | error e => exact ⟨start, failed _ _ run⟩

theorem respects_pin (r : Reg) : Respects n (onRegs (·.pin r)) fun _ => True := by
  refine respects_onRegs (fun _ _ => RegisterFile.alike_of_pin) fun f e failed => ?_
  unfold RegisterFile.pin at failed
  dsimp only at failed
  split at failed <;> cases failed
  rfl

theorem respects_unpin (r : Reg) : Respects n (onRegs (·.unpin r)) fun _ => True := by
  refine respects_onRegs (fun _ _ => RegisterFile.alike_of_unpin) fun f e failed => ?_
  unfold RegisterFile.unpin at failed
  dsimp only at failed
  split at failed <;> cases failed
  rfl

theorem respects_hold (op : Operand) : Respects n (hold op) fun _ => True :=
  .forM fun r _ => respects_pin r

theorem respects_release (op : Operand) : Respects n (release op) fun _ => True :=
  .forM fun r _ => respects_unpin r

end Gen

end CBackend
