import CBackend.Machine.Run
import CBackend.Proofs.StateError

/-!
How the single operations of the machine fail. Reading and writing registers, operands and memory,
pushing single values and popping them all report what went wrong, and none of them has anything to
do with the way through the code. Only a quotient that does not fit and the unchecked lowering of the
stack pointer can make an instruction give up without a report.
-/

namespace CBackend

namespace MachineError

/-- Errors of a run that has lost its way through the code. -/
def strays : MachineError → Bool
  | .undefinedLabel _ | .malformed (.ranOffEnd _) | .malformed .jumpWithoutTarget => true
  | _ => false

def isAbort : MachineError → Bool
  | .aborted _ => true
  | _ => false

def plain (e : MachineError) : Bool := !e.strays && !e.isAbort

end MachineError

namespace Exec

variable {α β : Type} {e : MachineError}

/-- A step on registers and memory that fails only with a report about an operand. -/
def Plain (x : Exec α) : Prop := ∀ c e c', x c = .error e c' → e.plain = true

theorem plain_pure (a : α) : Plain (pure a) := by
  intro c e c' failed
  cases failed

theorem plain_throw (other : e.plain = true) : Plain (throw e : Exec α) := by
  rintro c _ _ ⟨⟩
  exact other

theorem plain_get : Plain get := by
  intro c e c' failed
  cases failed

theorem plain_modify (f : Cpu → Cpu) : Plain (modify f) := by
  intro c e c' failed
  cases failed

theorem Plain.bind {x : Exec α} {f : α → Exec β} (plain : Plain x) (rest : ∀ a, Plain (f a)) :
    Plain (x >>= f) := by
  intro c e c' failed
  change EStateM.bind x f c = _ at failed
  unfold EStateM.bind at failed
  split at failed
  · exact rest _ _ _ _ failed
  · cases failed
    exact plain _ _ _ ‹_›

theorem Plain.map {x : Exec α} (f : α → β) (plain : Plain x) : Plain (f <$> x) := by
  intro c e c' failed
  change EStateM.map f x c = _ at failed
  unfold EStateM.map at failed
  split at failed
  · cases failed
  · cases failed
    exact plain _ _ _ ‹_›

theorem plain_ofExcept {r : Except MachineError α} (other : ∀ e, r = .error e → e.plain = true) :
    Plain (ofExcept r) := by
  cases r with
  | ok a => exact plain_pure a
  | error e => exact plain_throw (other e rfl)

theorem plain_readGeneral (r : Reg) : Plain (readGeneral r) := by
  refine plain_get.bind fun c => ?_
  split
  · exact plain_pure _
  · exact plain_throw rfl

theorem plain_setGeneral (r : Reg) (w : BitVec 32) : Plain (setGeneral r w) := plain_modify _

theorem plain_floatingSlot (r : Reg) : Plain (floatingSlot r) := by
  unfold floatingSlot
  split
  · exact plain_pure _
  · exact plain_pure _
  · exact plain_throw rfl

theorem plain_checkRange (address length : Nat) : Plain (checkRange address length) := by
  unfold checkRange
  split
  · exact plain_pure _
  · exact plain_throw rfl

theorem plain_readBytes (address length : Nat) : Plain (readBytes address length) :=
  (plain_checkRange _ _).bind fun _ => plain_get.bind fun _ => plain_pure _

theorem plain_writeBytes (address : Nat) (bytes : List Byte) : Plain (writeBytes address bytes) :=
  (plain_checkRange _ _).bind fun _ => plain_modify _

theorem plain_readMemory (address : Nat) (ty : ValueClass) : Plain (readMemory address ty) := by
  unfold readMemory
  split
  · exact plain_throw rfl
  · exact (plain_readBytes _ _).bind fun _ => plain_pure _

theorem plain_writeMemory (address : Nat) (ty : ValueClass) (v : Value) :
    Plain (writeMemory address ty v) := by
  unfold writeMemory
  split
  · exact plain_throw rfl
  · exact plain_writeBytes _ _

theorem plain_copyBytes (target source length : Nat) : Plain (copyBytes target source length) :=
  (plain_readBytes _ _).bind fun _ => plain_writeBytes _ _

theorem plain_clearBytes (address length : Nat) : Plain (clearBytes address length) :=
  (plain_checkRange _ _).bind fun _ => plain_modify _

theorem symbolAddress_error {l : Layout} {sym : Symbol} (failed : l.symbolAddress sym = .error e) :
    e.plain = true := by
  unfold Layout.symbolAddress Layout.globalAddress at failed
  split at failed
  · split at failed <;> cases failed
    rfl
  · cases failed
  · cases failed
    rfl

theorem plain_resolve (l : Layout) (a : Address) : Plain (resolve l a) := by
  unfold resolve
  have last (s : Symbol) : Plain (ofExcept (do return ((← l.symbolAddress s : Nat) : Int))) :=
    plain_ofExcept fun _ failed => (except_bind_eq_error failed).elim symbolAddress_error nofun
  cases a.base with
  | none =>
    cases a.sym with
    | none => exact plain_pure _
    | some s => exact ((last s).map _).bind fun _ => plain_pure _
  | some r =>
    refine ((plain_readGeneral r).map _).bind fun base => ?_
    cases a.sym with
    | none => exact plain_pure _
    | some s => exact ((last s).map _).bind fun _ => plain_pure _

theorem plain_readConstant (l : Layout) (sym : Symbol) (ty : ValueClass) :
    Plain (readConstant l sym ty) := by
  unfold readConstant
  split
  · exact plain_pure _
  · exact plain_pure _
  · exact (plain_ofExcept fun _ failed => symbolAddress_error failed).map _

theorem plain_read (l : Layout) (op : Operand) (ty : ValueClass) : Plain (read l op ty) := by
  unfold read
  split
  · split
    · exact (plain_floatingSlot _).bind fun _ => plain_get.bind fun _ => plain_pure _
    · refine (plain_readGeneral _).bind fun low => ?_
      split
      · exact ((plain_readGeneral _).map _).bind fun _ => plain_pure _
      · exact plain_pure _
  · exact plain_readConstant _ _ _
  · exact (plain_resolve _ _).bind fun _ => plain_pure _
  · exact (plain_resolve _ _).bind fun _ => plain_readMemory _ _

theorem plain_write (l : Layout) (op : Operand) (ty : ValueClass) (v : Value) :
    Plain (write l op ty v) := by
  unfold write
  split
  · split
    · exact (plain_floatingSlot _).bind fun _ => plain_modify _
    · refine (plain_readGeneral _).bind fun _ => (plain_setGeneral _ _).bind fun _ => ?_
      split
      · exact (plain_readGeneral _).bind fun _ => plain_setGeneral _ _
      · exact plain_pure _
  · exact (plain_resolve _ _).bind fun _ => plain_writeMemory _ _ _
  · exact plain_throw rfl

theorem plain_pushValue (v : Value) (ty : ValueClass) (bytes : Nat) : Plain (pushValue v ty bytes) := by
  refine (plain_readGeneral _).bind fun sp => ?_
  dsimp only
  split
  · exact plain_throw rfl
  · exact (plain_setGeneral _ _).bind fun _ => plain_writeMemory _ _ _

theorem plain_pushWord (w : BitVec 32) : Plain (pushWord w) := plain_pushValue _ _ _

theorem plain_popWord : Plain popWord :=
  (plain_readGeneral _).bind fun _ => (plain_readMemory _ _).bind fun _ =>
    (plain_setGeneral _ _).bind fun _ => plain_pure _

theorem plain_operand (op : Option Operand) : Plain (operand op) := by
  cases op with
  | none => exact plain_throw rfl
  | some op => exact plain_pure op

theorem plain_readOperand (l : Layout) (op : Option Operand) (ty : ValueClass) :
    Plain (readOperand l op ty) :=
  (plain_operand op).bind fun _ => plain_read _ _ _

theorem plain_writeOperand (l : Layout) (op : Option Operand) (ty : ValueClass) (v : Value) :
    Plain (writeOperand l op ty v) :=
  (plain_operand op).bind fun _ => plain_write _ _ _ _

theorem plain_floatBinary (l : Layout) (i : Instr) (op : Double → Double → Double) :
    Plain (floatBinary l i op) :=
  (plain_operand _).bind fun _ => (plain_read _ _ _).bind fun _ => (plain_readOperand _ _ _).bind fun _ =>
    plain_write _ _ _ _

theorem plain_intUnary (l : Layout) (i : Instr) (op : Word → Word) : Plain (intUnary l i op) :=
  (plain_operand _).bind fun _ => (plain_read _ _ _).bind fun _ => plain_write _ _ _ _

theorem plain_convert (l : Layout) (i : Instr) (source : ValueClass) (f : Value → Value) :
    Plain (convert l i source f) :=
  (plain_readOperand _ _ _).bind fun _ => plain_writeOperand _ _ _ _

theorem plain_leaveFrame : Plain leaveFrame :=
  (plain_readGeneral _).bind fun _ => (plain_setGeneral _ _).bind fun _ => plain_popWord.bind fun _ =>
    plain_setGeneral _ _

theorem plain_copy (l : Layout) (i : Instr) : Plain (copy l i) := by
  refine (plain_operand _).bind fun dst => (plain_operand _).bind fun src => ?_
  split
  · exact (plain_resolve _ _).bind fun _ => (plain_resolve _ _).bind fun _ => plain_copyBytes _ _ _
  · exact plain_throw rfl

theorem plain_zeroFill (l : Layout) (i : Instr) : Plain (zeroFill l i) := by
  refine (plain_operand _).bind fun dst => ?_
  split
  · exact (plain_resolve _ _).bind fun _ => plain_clearBytes _ _
  · exact plain_throw rfl

theorem plain_lea (l : Layout) (i : Instr) : Plain (lea l i) := by
  refine (plain_operand _).bind fun src => ?_
  split
  · exact (plain_resolve _ _).bind fun _ => plain_writeOperand _ _ _ _
  · exact plain_throw rfl

theorem plain_pushArgs (symbols : SymbolTable) (args : List (Symbol × Value)) :
    Plain (RunM.pushArgs symbols args) := by
  induction args with
  | nil => exact plain_pure _
  | cons arg rest ih => exact ih.bind fun _ => plain_pushValue _ _ _

theorem plain_returnFromHost (v : Value) : Plain (RunM.returnFromHost v) := by
  cases v with
  | int w => exact (plain_setGeneral _ _).bind fun _ => plain_setGeneral _ _
  | float d => exact plain_modify _
  | void => exact plain_pure _

theorem divide_wraps_error {quotient : Word → Word → Word} {a b : Word}
    (failed : IntOp.divide quotient true a b = .error e) : e = .divideByZero := by
  unfold IntOp.divide at failed
  split at failed
  · cases failed
    rfl
  · split at failed
    · simp_all
    · cases failed

theorem plain_apply {op : IntOp} (signed : op ≠ .udiv) (signed' : op ≠ .umod) (ty : ValueClass)
    (a b : Word) : Plain (ofExcept (op.apply ty a b)) := by
  refine plain_ofExcept fun e failed => ?_
  cases op with
  | div | mod => rw [divide_wraps_error failed]; rfl
  | udiv => exact absurd rfl signed
  | umod => exact absurd rfl signed'
  | _ => cases failed

theorem plain_intBinary {op : IntOp} (signed : op ≠ .udiv) (signed' : op ≠ .umod) (l : Layout)
    (i : Instr) : Plain (intBinary l i op) :=
  (plain_operand _).bind fun _ => (plain_read _ _ _).bind fun _ =>
    (plain_readOperand _ _ _).bind fun _ => (plain_apply signed signed' _ _ _).bind fun _ =>
      plain_write _ _ _ _

theorem plain_execute (l : Layout) {i : Instr} (noPush : i.op ≠ .push) (noEnter : i.op ≠ .enter)
    (noUdiv : i.op ≠ .udiv) (noUmod : i.op ≠ .umod) : Plain (execute l i) := by
  unfold execute
  cases op : i.op with
  | mov | fld | fst | movsx | movzx | fild | ufild | fist | ufist | fcvt => exact plain_convert _ _ _ _
  | lea => exact plain_lea l i
  | add | sub | mul | div | mod | and | or | xor | shl | shr | sar =>
    exact plain_intBinary (by decide) (by decide) _ _
  | neg | not => exact plain_intUnary _ _ _
  | fadd | fsub | fmul | fdiv => exact plain_floatBinary _ _ _
  | fchs => exact (plain_operand _).bind fun _ => (plain_read _ _ _).bind fun _ => plain_write _ _ _ _
  | cmp | fcmp =>
    exact (plain_readOperand _ _ _).bind fun _ => (plain_readOperand _ _ _).bind fun _ =>
      plain_modify _
  | set cond => exact plain_get.bind fun _ => plain_writeOperand _ _ _ _
  | push => exact absurd op noPush
  | enter => exact absurd op noEnter
  | udiv => exact absurd op noUdiv
  | umod => exact absurd op noUmod
  | leave => exact plain_leaveFrame
  | copy => exact plain_copy l i
  | zerofill => exact plain_zeroFill l i
  | label | jmp | jcc | call | callind | ret => exact plain_pure _

end Exec

end CBackend
