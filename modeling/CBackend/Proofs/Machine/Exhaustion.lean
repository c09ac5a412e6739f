import CBackend.Proofs.Closure
import CBackend.Proofs.Machine.Failures
import CBackend.Proofs.Machine.Parameters
import CBackend.Proofs.Machine.Stack

/-!
When a machine gives up without a report. Every push of a single value reports that the stack is
exhausted. Three things lower the stack pointer unchecked: entering a frame, pushing a block and
reserving the buffer for a struct result. A call comes to nothing exactly if one of them meets a
stack that is too short for it, or if a quotient on the way does not fit.
-/

namespace CBackend

variable {σ α β : Type}

def Aborts (x : EStateM MachineError σ α) (s : σ) (cause : Abort) : Prop :=
  ∃ s', x s = .error (.aborted cause) s'

section Aborts

variable {x : EStateM MachineError σ α} {f : α → EStateM MachineError σ β} {s s₁ : σ} {a : α}
  {cause : Abort}

theorem not_aborts_of_ok (run : x s = .ok a s₁) : ¬ Aborts x s cause := by
  rintro ⟨s', failed⟩
  rw [run] at failed
  cases failed

theorem aborts_throw_iff {e : MachineError} :
    Aborts ((throw e : EStateM MachineError σ α) >>= f) s cause ↔ e = .aborted cause := by
  constructor
  · rintro ⟨_, ⟨⟩⟩
    rfl
  · rintro rfl
    exact ⟨s, rfl⟩

theorem aborts_bind_iff : Aborts (x >>= f) s cause ↔
    Aborts x s cause ∨ ∃ a s₁, x s = .ok a s₁ ∧ Aborts (f a) s₁ cause := by
  change (∃ s', EStateM.bind x f s = _) ↔ _
  unfold EStateM.bind Aborts
  cases x s with
  | ok a s₁ => simp
  | error e s₁ => simp

theorem aborts_after (run : x s = .ok a s₁) : Aborts (x >>= f) s cause ↔ Aborts (f a) s₁ cause := by
  unfold Aborts
  rw [bind_run run]

end Aborts

namespace Exec

variable {x : Exec α} {f : α → Exec β} {c : Cpu} {cause : Abort}

theorem Plain.not_aborts (plain : Plain x) : ¬ Aborts x c cause := by
  rintro ⟨c', failed⟩
  cases plain _ _ _ failed

theorem Plain.aborts_bind_iff (plain : Plain x) :
    Aborts (x >>= f) c cause ↔ ∃ a c₁, x c = .ok a c₁ ∧ Aborts (f a) c₁ cause := by
  rw [CBackend.aborts_bind_iff, or_iff_right plain.not_aborts]

theorem aborts_bind_plain (plain : ∀ a, Plain (f a)) : Aborts (x >>= f) c cause ↔ Aborts x c cause := by
  rw [CBackend.aborts_bind_iff, or_iff_left]
  rintro ⟨a, c₁, -, aborts⟩
  exact (plain a).not_aborts aborts

def Looks (x : Exec α) : Prop := ∀ c a c', x c = .ok a c' → c' = c

theorem looks_pure (a : α) : Looks (pure a) := by
  rintro c _ _ ⟨⟩
  rfl

theorem looks_throw (e : MachineError) : Looks (throw e : Exec α) := by
  intro c a c' ok
  cases ok

theorem looks_get : Looks get := by
  rintro c _ _ ⟨⟩
  rfl

theorem Looks.bind (first : Looks x) (rest : ∀ a, Looks (f a)) : Looks (x >>= f) := by
  intro c b c' ok
  obtain ⟨a, c₁, run, ok⟩ := bind_eq_ok.mp ok
  rw [rest a _ _ _ ok, first _ _ _ run]

theorem Looks.map (f : α → β) (first : Looks x) : Looks (f <$> x) := by
  intro c b c' ok
  obtain ⟨a, run, -⟩ := map_eq_ok.mp ok
  exact first _ _ _ run

theorem looks_ofExcept (r : Except MachineError α) : Looks (ofExcept r) := by
  cases r with
  | ok a => exact looks_pure a
  | error e => exact looks_throw e

theorem looks_readGeneral (r : Reg) : Looks (readGeneral r) := by
  refine looks_get.bind fun c => ?_
  split
  · exact looks_pure _
  · exact looks_throw _

theorem looks_resolve (l : Layout) (a : Address) : Looks (resolve l a) := by
  unfold resolve
  cases a.base with
  | none =>
    cases a.sym with
    | none => exact looks_pure _
    | some s => exact ((looks_ofExcept _).map _).bind fun _ => looks_pure _
  | some r =>
    refine ((looks_readGeneral r).map _).bind fun base => ?_
    cases a.sym with
    | none => exact looks_pure _
    | some s => exact ((looks_ofExcept _).map _).bind fun _ => looks_pure _

theorem aborts_lowerStack_iff {bytes : Nat} :
    Aborts (lowerStack bytes) c cause ↔ cause = .stackUnderrun ∧ c.stackPointer < bytes := by
  by_cases short : c.stackPointer < bytes
  · have fails : lowerStack bytes c = .error (.aborted .stackUnderrun) c := by
      unfold Cpu.stackPointer at short
      rw [lowerStack, bind_run (readGeneral_run (by decide)), if_pos short]
      rfl
    simp [Aborts, fails, short, eq_comm]
  · simp [not_aborts_of_ok (lowerStack_run bytes (Nat.le_of_not_lt short)), short]

end Exec

inductive Instr.Breaks (l : Layout) (c : Cpu) (i : Instr) : Abort → Prop
  | enter (op : i.op = .enter) (room : 4 ≤ c.stackPointer) (inside : c.stackPointer ≤ Memory.size)
      (short : c.stackPointer < i.bytes + 4) : Breaks l c i .stackUnderrun
  | push {a n} (op : i.op = .push) (block : i.ty = .blk) (source : i.src = some (.ind a))
      (resolves : Exec.resolve l a c = .ok n c) (short : c.stackPointer < i.bytes) :
      Breaks l c i .stackUnderrun
  | divide {dst a b c₁ c₂} (op : i.op = .udiv ∨ i.op = .umod) (signed : i.ty ≠ .u64)
      (target : i.dst = some dst) (dividend : Exec.read l dst i.ty c = .ok a c₁)
      (divisor : Exec.readOperand l i.src i.ty c₁ = .ok b c₂) (least : a.toWord = .intMin 64)
      (minusOne : b.toWord = -1) : Breaks l c i .quotientOverflow

theorem Instr.Breaks.op {l : Layout} {c : Cpu} {i : Instr} {cause : Abort}
    (breaks : i.Breaks l c cause) :
    i.op = .enter ∨ i.op = .push ∨ i.op = .udiv ∨ i.op = .umod := by
  cases breaks with
  | enter op => exact .inl op
  | push op => exact .inr (.inl op)
  | divide op => exact .inr (.inr op)

namespace Exec

variable {c : Cpu} {l : Layout} {i : Instr} {cause : Abort}

theorem le_size_of_writeMemory {a : Nat} {ty : ValueClass} {v : Value} {c' : Cpu}
    (ok : writeMemory a ty v c = .ok () c') : a + (encode v ty).length ≤ Memory.size := by
  unfold writeMemory writeBytes checkRange at ok
  by_cases none : ty.width = 0
  · rw [if_pos none] at ok
    cases ok
  · by_contra outside
    have range : Memory.inside a (encode v ty).length = false := decide_eq_false outside
    rw [if_neg none, range] at ok
    cases ok

theorem pushWord_eq_ok_iff {w : BitVec 32} {u : Unit} {c' : Cpu} : pushWord w c = .ok u c' ↔
    4 ≤ c.stackPointer ∧ c.stackPointer ≤ Memory.size ∧ c' = c.push (wordBytes w) := by
  constructor
  · intro ok
    have room := le_stackPointer_of_pushValue ok
    have inside : c.stackPointer ≤ Memory.size := by
      have enough : ¬ (c.general .esp).toNat < 4 := Nat.not_lt.mpr room
      rw [pushWord, pushValue, bind_run (readGeneral_run (by decide)), if_neg enough] at ok
      obtain ⟨_, c₁, lowered, ok⟩ := bind_eq_ok.mp ok
      have bound : c.stackPointer - 4 + 4 ≤ Memory.size := le_size_of_writeMemory ok
      omega
    rw [pushWord_run w room inside] at ok
    cases ok
    exact ⟨room, inside, rfl⟩
  · rintro ⟨room, inside, rfl⟩
    exact pushWord_run w room inside

theorem aborts_enterFrame_iff {bytes : Nat} : Aborts (enterFrame bytes) c cause ↔
    cause = .stackUnderrun ∧ 4 ≤ c.stackPointer ∧ c.stackPointer ≤ Memory.size ∧
      c.stackPointer < bytes + 4 := by
  have lowers (c₁ : Cpu) : Aborts (do
        setGeneral .ebp (← readGeneral .esp)
        let _ ← lowerStack bytes) c₁ cause ↔ cause = .stackUnderrun ∧ c₁.stackPointer < bytes := by
    rw [aborts_after (readGeneral_run (by decide)), aborts_after (setGeneral_run _ _),
      aborts_bind_plain fun _ => plain_pure _, aborts_lowerStack_iff, Cpu.stackPointer,
      Cpu.general_setGeneral_of_ne (by decide)]
    rfl
  rw [enterFrame, aborts_after (readGeneral_run (by decide)), (plain_pushWord _).aborts_bind_iff]
  simp only [lowers, pushWord_eq_ok_iff]
  constructor
  · rintro ⟨_, _, ⟨room, inside, rfl⟩, same, short⟩
    rw [Cpu.stackPointer_push, length_wordBytes] at short
    exact ⟨same, room, inside, by omega⟩
  · rintro ⟨same, room, inside, short⟩
    refine ⟨(), _, ⟨room, inside, rfl⟩, same, ?_⟩
    rw [Cpu.stackPointer_push, length_wordBytes]
    omega

theorem operand_eq_ok {op : Option Operand} {o : Operand} {c' : Cpu} (ok : operand op c = .ok o c') :
    op = some o ∧ c' = c := by
  cases op with
  | none => cases ok
  | some op =>
    cases ok
    exact ⟨rfl, rfl⟩

theorem aborts_push_iff : Aborts (push l i) c cause ↔
    cause = .stackUnderrun ∧ i.ty = .blk ∧ c.stackPointer < i.bytes ∧
      ∃ a n, i.src = some (.ind a) ∧ resolve l a c = .ok n c := by
  unfold push
  constructor
  · intro whole
    obtain ⟨src, c₁, first, aborts⟩ := (plain_operand _).aborts_bind_iff.mp whole
    obtain ⟨named, rfl⟩ := operand_eq_ok first
    split at aborts
    · rename_i block
      split at aborts
      · rename_i a
        obtain ⟨n, c₂, resolves, lowers⟩ := (plain_resolve _ _).aborts_bind_iff.mp aborts
        obtain rfl := looks_resolve _ _ _ _ _ resolves
        rw [aborts_bind_plain fun _ => plain_copyBytes _ _ _, aborts_lowerStack_iff] at lowers
        exact ⟨lowers.1, block, lowers.2, a, n, named, resolves⟩
      · exact absurd aborts (plain_throw rfl).not_aborts
    · exact absurd aborts ((plain_read _ _ _).bind fun _ => plain_pushValue _ _ _).not_aborts
  · rintro ⟨rfl, block, short, a, n, named, resolves⟩
    rw [named, aborts_after (x := operand (some (.ind a))) rfl, if_pos block]
    refine (aborts_after resolves).mpr ?_
    rw [aborts_bind_plain fun _ => plain_copyBytes _ _ _, aborts_lowerStack_iff]
    exact ⟨rfl, short⟩

theorem ofExcept_aborts_iff {r : Except MachineError α} :
    Aborts (ofExcept r) c cause ↔ r = .error (.aborted cause) := by
  cases r with
  | ok a => simp [not_aborts_of_ok (x := ofExcept (.ok a)) (s := c) rfl]
  | error e =>
    change (∃ c', EStateM.Result.error e c = _) ↔ _
    simp

theorem divide_signed_eq_abort_iff {quotient : Word → Word → Word} {a b : Word} :
    IntOp.divide quotient false a b = .error (.aborted cause) ↔
      cause = .quotientOverflow ∧ a = .intMin 64 ∧ b = -1 := by
  unfold IntOp.divide
  by_cases zero : b = 0
  · rw [if_pos zero]
    refine iff_of_false (by simp) ?_
    rintro ⟨-, -, minusOne⟩
    rw [zero] at minusOne
    cases minusOne
  · rw [if_neg zero, Bool.not_false, Bool.true_and, ← Bool.decide_and]
    by_cases overflows : a = .intMin 64 ∧ b = -1
    · rw [if_pos (decide_eq_true overflows), and_iff_left overflows]
      constructor
      · rintro ⟨⟩
        rfl
      · rintro rfl
        rfl
    · rw [decide_eq_false overflows, if_neg Bool.false_ne_true]
      exact iff_of_false (by simp) fun both => overflows both.2

theorem apply_eq_abort_iff {op : IntOp} (unsigned : op = .udiv ∨ op = .umod) (ty : ValueClass)
    {a b : Word} : op.apply ty a b = .error (.aborted cause) ↔
      cause = .quotientOverflow ∧ ty ≠ .u64 ∧ a = .intMin 64 ∧ b = -1 := by
  have wide (quotient : Word → Word → Word) :
      IntOp.divide quotient true a b ≠ .error (.aborted cause) := by
    intro failed
    cases divide_wraps_error failed
  rcases unsigned with rfl | rfl
  · simp only [IntOp.apply]
    split
    · simp_all
    · simp_all [divide_signed_eq_abort_iff]
  · simp only [IntOp.apply]
    split
    · simp_all
    · simp_all [divide_signed_eq_abort_iff]

theorem aborts_intBinary_iff {op : IntOp} (unsigned : op = .udiv ∨ op = .umod) :
    Aborts (intBinary l i op) c cause ↔ cause = .quotientOverflow ∧ i.ty ≠ .u64 ∧
      ∃ dst a b c₁ c₂, i.dst = some dst ∧ read l dst i.ty c = .ok a c₁ ∧
        readOperand l i.src i.ty c₁ = .ok b c₂ ∧ a.toWord = .intMin 64 ∧ b.toWord = -1 := by
  unfold intBinary
  constructor
  · intro whole
    obtain ⟨dst, _, first, aborts⟩ := (plain_operand _).aborts_bind_iff.mp whole
    obtain ⟨named, rfl⟩ := operand_eq_ok first
    obtain ⟨a, c₁, dividend, aborts⟩ := (plain_read _ _ _).aborts_bind_iff.mp aborts
    obtain ⟨b, c₂, divisor, aborts⟩ := (plain_readOperand _ _ _).aborts_bind_iff.mp aborts
    rw [aborts_bind_plain fun _ => plain_write _ _ _ _] at aborts
    obtain ⟨same, signed, least, minusOne⟩ :=
      (apply_eq_abort_iff unsigned i.ty).mp (ofExcept_aborts_iff.mp aborts)
    exact ⟨same, signed, dst, a, b, c₁, c₂, named, dividend, divisor, least, minusOne⟩
  · rintro ⟨rfl, signed, dst, a, b, c₁, c₂, named, dividend, divisor, least, minusOne⟩
    have overflows := (apply_eq_abort_iff unsigned i.ty).mpr ⟨rfl, signed, least, minusOne⟩
    rw [named, aborts_after (x := operand (some dst)) rfl]
    refine (aborts_after dividend).mpr ((aborts_after divisor).mpr ?_)
    rw [aborts_bind_plain fun _ => plain_write _ _ _ _, ofExcept_aborts_iff, overflows]

theorem aborts_execute_iff : Aborts (execute l i) c cause ↔ i.Breaks l c cause := by
  cases op : i.op with
  | enter =>
    simp only [execute, op, aborts_enterFrame_iff]
    constructor
    · rintro ⟨rfl, room, inside, short⟩
      exact .enter op room inside short
    · intro breaks
      cases breaks with
      | enter _ room inside short => exact ⟨rfl, room, inside, short⟩
      | push other => cases op.symm.trans other
      | divide other => simp [op] at other
  | push =>
    simp only [execute, op, aborts_push_iff]
    constructor
    · rintro ⟨rfl, block, short, a, n, named, resolves⟩
      exact .push op block named resolves short
    · intro breaks
      cases breaks with
      | enter other => cases op.symm.trans other
      | push _ block named resolves short => exact ⟨rfl, block, short, _, _, named, resolves⟩
      | divide other => simp [op] at other
  | udiv | umod =>
    simp only [execute, op]
    rw [aborts_intBinary_iff (by simp)]
    constructor
    · rintro ⟨rfl, signed, dst, a, b, c₁, c₂, named, dividend, divisor, least, minusOne⟩
      exact .divide (by simp [op]) signed named dividend divisor least minusOne
    · intro breaks
      cases breaks with
      | enter other => cases op.symm.trans other
      | push other => cases op.symm.trans other
      | divide _ signed named dividend divisor least minusOne =>
        exact ⟨rfl, signed, _, _, _, _, _, named, dividend, divisor, least, minusOne⟩
  | _ =>
    have plain := plain_execute l (i := i) (by simp [op]) (by simp [op]) (by simp [op]) (by simp [op])
    exact iff_of_false plain.not_aborts fun breaks => by simpa [op] using breaks.op

end Exec

namespace Machine

variable {W : Type}

def instruction? (m : Machine W) (c : Control) : Option Instr :=
  (m.function? c.function).bind (·.code[c.pc]?)

def BreaksAt (m : Machine W) (c : Control) (cause : Abort) : Prop :=
  ∃ i, m.instruction? c = some i ∧ i.Breaks m.layout m.cpu cause

def counted (m : Machine W) : Machine W := { m with steps := m.steps + 1 }

/-- So many instructions lead from one place of a run to another. -/
inductive Steps : Nat → Machine W → Control → Machine W → Control → Prop
  | refl (m c) : Steps 0 m c m c
  | cons {n m c m₁ c₁ m₂ c₂} (step : RunM.step c m.counted = .ok (some c₁) m₁)
      (rest : Steps n m₁ c₁ m₂ c₂) : Steps (n + 1) m c m₂ c₂

end Machine

namespace RunM

open Machine

variable {W : Type} {m : Machine W} {c : Control} {cause : Abort}

theorem aborts_onCpu_iff {x : Exec α} : Aborts (onCpu x : RunM W α) m cause ↔ Aborts x m.cpu cause := by
  unfold Aborts onCpu
  cases x m.cpu with
  | ok a cpu => simp
  | error e cpu => simp

theorem onCpu_eq_ok {x : Exec α} {a : α} {m' : Machine W} (ok : onCpu x m = .ok a m') :
    ∃ cpu, x m.cpu = .ok a cpu ∧ m' = { m with cpu } := by
  unfold onCpu at ok
  cases run : x m.cpu with
  | ok b cpu =>
    rw [run] at ok
    cases ok
    exact ⟨cpu, rfl, rfl⟩
  | error e cpu =>
    rw [run] at ok
    cases ok

def Reports (x : RunM W α) : Prop := ∀ m cause, ¬ Aborts x m cause

section Reports

variable {x : RunM W α} {f : α → RunM W β}

theorem reports_pure (a : α) : Reports (pure a : RunM W α) := by
  rintro m cause ⟨m', failed⟩
  cases failed

theorem reports_throw {e : MachineError} (reported : e.isAbort = false) :
    Reports (throw e : RunM W α) := by
  rintro m cause ⟨m', failed⟩
  cases failed
  cases reported

theorem reports_get : Reports (get : RunM W (Machine W)) := by
  rintro m cause ⟨m', failed⟩
  cases failed

theorem reports_modify (f : Machine W → Machine W) : Reports (modify f : RunM W PUnit) := by
  rintro m cause ⟨m', failed⟩
  cases failed

theorem Reports.bind (first : Reports x) (rest : ∀ a, Reports (f a)) : Reports (x >>= f) := by
  intro m cause aborts
  rcases aborts_bind_iff.mp aborts with here | ⟨a, m₁, -, later⟩
  · exact first m cause here
  · exact rest a m₁ cause later

theorem aborts_bind_reports (rest : ∀ a, Reports (f a)) :
    Aborts (x >>= f) m cause ↔ Aborts x m cause := by
  rw [CBackend.aborts_bind_iff, or_iff_left]
  rintro ⟨a, m₁, -, aborts⟩
  exact rest a m₁ cause aborts

theorem reports_onCpu {x : Exec α} (plain : Exec.Plain x) : Reports (onCpu x : RunM W α) :=
  fun _ _ aborts => plain.not_aborts (aborts_onCpu_iff.mp aborts)

theorem reports_jumpTarget (c : Control) (i : Instr) : Reports (jumpTarget c i : RunM W Nat) := by
  unfold jumpTarget
  split
  · exact reports_throw rfl
  · refine reports_get.bind fun m => ?_
    split
    · exact reports_pure _
    · exact reports_throw rfl

theorem reports_callHost (f : HostFunction W) : Reports (callHost f) :=
  reports_get.bind fun _ => (reports_onCpu (Exec.plain_readGeneral _)).bind fun _ =>
    (reports_modify _).bind fun _ => reports_onCpu (Exec.plain_returnFromHost _)

theorem reports_callThrough (c : Control) (i : Instr) :
    Reports (callThrough c i : RunM W Control) := by
  refine reports_get.bind fun m => (reports_onCpu (Exec.plain_readOperand _ _ _)).bind fun v => ?_
  dsimp only
  split
  · exact reports_throw rfl
  · split
    · exact (reports_callHost _).bind fun _ => reports_pure _
    · exact (reports_onCpu (Exec.plain_pushWord _)).bind fun _ => reports_pure _

end Reports

theorem aborts_step_iff : Aborts (step c) m cause ↔ m.BreaksAt c cause := by
  cases here : m.instruction? c with
  | none =>
    have fetched : fetch c m = .error (.malformed (.ranOffEnd (m.layout.symbols.name c.function))) m := by
      rw [fetch, bind_run (x := get) rfl]
      unfold Machine.instruction? at here
      rw [here]
      rfl
    have stuck : ¬ Aborts (fetch c) m cause := by simp [Aborts, fetched]
    refine iff_of_false (fun aborts => ?_) (by simp [BreaksAt, here])
    rcases aborts_bind_iff.mp aborts with first | ⟨i, m₁, ok, -⟩
    · exact stuck first
    · rw [fetched] at ok
      cases ok
  | some i =>
    have fetched : fetch c m = .ok i m := by
      rw [fetch, bind_run (x := get) rfl]
      unfold Machine.instruction? at here
      rw [here]
      rfl
    have breaks_iff : m.BreaksAt c cause ↔ i.Breaks m.layout m.cpu cause := by simp [BreaksAt, here]
    rw [step, aborts_after fetched, breaks_iff]
    dsimp only
    cases op : i.op with
    | ret =>
      refine iff_of_false ?_ fun breaks => by simpa [op] using breaks.op
      refine (reports_onCpu Exec.plain_popWord).bind (fun _ => ?_) m cause
      split
      · exact reports_pure _
      · exact reports_pure _
    | jmp =>
      refine iff_of_false ?_ fun breaks => by simpa [op] using breaks.op
      exact (reports_jumpTarget _ i).bind (fun _ => reports_pure _) m cause
    | jcc cond =>
      refine iff_of_false ?_ fun breaks => by simpa [op] using breaks.op
      refine reports_get.bind (fun _ => ?_) m cause
      split
      · exact (reports_jumpTarget _ i).bind fun _ => reports_pure _
      · exact reports_pure _
    | call | callind =>
      refine iff_of_false ?_ fun breaks => by simpa [op] using breaks.op
      exact (reports_callThrough _ i).bind (fun _ => reports_pure _) m cause
    | _ =>
      rw [aborts_after (x := get) rfl, aborts_bind_reports fun _ => reports_pure _, aborts_onCpu_iff,
        Exec.aborts_execute_iff]

theorem aborts_run_iff {fuel : Nat} : Aborts (run fuel c) m cause ↔
    ∃ n < fuel, ∃ m' c', Steps n m c m' c' ∧ m'.BreaksAt c' cause := by
  induction fuel generalizing m c with
  | zero =>
    refine iff_of_false ?_ (by simp)
    exact (reports_modify _).bind (fun _ => reports_get.bind fun _ => reports_throw rfl) m cause
  | succ fuel ih =>
    have counts : (countStep : RunM W Unit) m = .ok () m.counted := rfl
    rw [run, aborts_after counts, aborts_bind_iff, aborts_step_iff]
    constructor
    · rintro (here | ⟨next, m₁, stepped, later⟩)
      · exact ⟨0, Nat.succ_pos fuel, m, c, .refl m c, here⟩
      · cases next with
        | none => exact absurd later (reports_pure _ _ _)
        | some c₁ =>
          obtain ⟨n, below, m', c', steps, breaks⟩ := ih.mp later
          exact ⟨n + 1, Nat.succ_lt_succ below, m', c', .cons stepped steps, breaks⟩
    · rintro ⟨n, below, m', c', steps, breaks⟩
      cases steps with
      | refl => exact .inl breaks
      | cons stepped rest =>
        refine .inr ⟨some _, _, stepped, ih.mpr ⟨_, Nat.lt_of_succ_lt_succ below, m', c', rest, breaks⟩⟩

theorem aborts_prepareCall_iff {symbols : SymbolTable} {ret : CType} {args : List (Symbol × Value)}
    {cpu : Cpu} : Aborts (prepareCall symbols ret args) cpu cause ↔
      cause = .stackUnderrun ∧ ret.isStruct = true ∧ Memory.size < roundToSlot ret.size := by
  unfold prepareCall
  rw [aborts_after (x := modify _) rfl, aborts_after (Exec.setGeneral_run _ _)]
  split
  · rename_i struct
    have plain (out : Nat) : Exec.Plain (do
        pushArgs symbols args
        Exec.pushValue (.ofNat out) .u32 4
        Exec.pushWord returnToken
        return out) :=
      (Exec.plain_pushArgs _ _).bind fun _ => (Exec.plain_pushValue _ _ _).bind fun _ =>
        (Exec.plain_pushWord _).bind fun _ => Exec.plain_pure _
    rw [Exec.aborts_bind_plain plain, Exec.aborts_lowerStack_iff, Cpu.stackPointer,
      Cpu.general_setGeneral (by decide)]
    have size : (BitVec.ofNat 32 Memory.size).toNat = Memory.size := by decide
    rw [size, struct]
    simp
  · rename_i plainResult
    have plain : Exec.Plain (do
        pushArgs symbols args
        Exec.pushWord returnToken
        return 0) :=
      (Exec.plain_pushArgs _ _).bind fun _ => (Exec.plain_pushWord _).bind fun _ => Exec.plain_pure _
    exact iff_of_false plain.not_aborts fun both => plainResult both.2.1

end RunM

/-- A call from outside on which the machine gives up. -/
inductive Machine.CallBreaks {W : Type} (m : Machine W) (sym : Symbol) (args : List Value) :
    Abort → Prop
  | output {f} (loaded : m.function? sym = some f) (struct : f.ret.isStruct = true)
      (bare : f.params = []) : CallBreaks m sym args .missingOutput
  | buffer {f} (loaded : m.function? sym = some f) (output : f.params ≠ [])
      (count : f.visible.length = args.length) (struct : f.ret.isStruct = true)
      (short : Memory.size < roundToSlot f.ret.size) : CallBreaks m sym args .stackUnderrun
  | run {f out cpu n m' c' cause} (loaded : m.function? sym = some f)
      (output : f.ret.isStruct = true → f.params ≠ []) (count : f.visible.length = args.length)
      (prepared : RunM.prepareCall m.layout.symbols f.ret (f.visible.zip args) m.cpu = .ok out cpu)
      (below : n < m.stepLimit - m.steps)
      (steps : Steps n { m with cpu } ⟨sym, 0, []⟩ m' c') (breaks : m'.BreaksAt c' cause) :
      CallBreaks m sym args cause

namespace RunM

open Machine

variable {W : Type} {m : Machine W} {sym : Symbol} {args : List Value} {cause : Abort}

theorem aborts_start_iff {f : LoadedFunction} : Aborts (do
      let out ← onCpu (prepareCall m.layout.symbols f.ret (f.visible.zip args))
      run (m.stepLimit - m.steps) ⟨sym, 0, []⟩
      return result (← get).cpu f.ret out) m cause ↔
    (cause = .stackUnderrun ∧ f.ret.isStruct = true ∧ Memory.size < roundToSlot f.ret.size) ∨
    ∃ out cpu, prepareCall m.layout.symbols f.ret (f.visible.zip args) m.cpu = .ok out cpu ∧
      ∃ n < m.stepLimit - m.steps, ∃ m' c',
        Steps n { m with cpu } ⟨sym, 0, []⟩ m' c' ∧ m'.BreaksAt c' cause := by
  have runs (out : Nat) (m₁ : Machine W) : Aborts (do
        run (m.stepLimit - m.steps) ⟨sym, 0, []⟩
        return result (← get).cpu f.ret out) m₁ cause ↔
      Aborts (run (m.stepLimit - m.steps) ⟨sym, 0, []⟩) m₁ cause :=
    aborts_bind_reports fun _ => reports_get.bind fun _ => reports_pure _
  rw [aborts_bind_iff, aborts_onCpu_iff, aborts_prepareCall_iff]
  refine or_congr_right ?_
  constructor
  · rintro ⟨out, m₁, prepared, later⟩
    rw [runs, aborts_run_iff] at later
    obtain ⟨cpu, ok, rfl⟩ := onCpu_eq_ok prepared
    exact ⟨out, cpu, ok, later⟩
  · rintro ⟨out, cpu, prepared, later⟩
    refine ⟨out, _, onCpu_run prepared, ?_⟩
    rw [runs, aborts_run_iff]
    exact later

theorem aborts_call_iff : Aborts (call sym args) m cause ↔ m.CallBreaks sym args cause := by
  rw [call, aborts_after (x := get) rfl]
  cases loaded : m.function? sym with
  | none =>
    refine iff_of_false (reports_throw (e := .notLoaded _) rfl m cause) fun breaks => ?_
    cases breaks with
    | output found => cases loaded.symm.trans found
    | buffer found => cases loaded.symm.trans found
    | run found => cases loaded.symm.trans found
  | some f =>
    have same {f'} (found : m.function? sym = some f') : f = f' :=
      Option.some.inj (loaded.symm.trans found)
    dsimp only
    by_cases bare : (f.ret.isStruct && f.params.isEmpty) = true
    · rw [if_pos bare, aborts_throw_iff]
      rw [Bool.and_eq_true, List.isEmpty_iff] at bare
      constructor
      · rintro ⟨⟩
        exact .output loaded bare.1 bare.2
      · intro breaks
        cases breaks with
        | output => rfl
        | buffer found output => exact absurd (same found ▸ bare.2) output
        | run found output => exact absurd (same found ▸ bare.2) (output (same found ▸ bare.1))
    · rw [if_neg bare]
      rw [Bool.and_eq_true, List.isEmpty_iff] at bare
      change Aborts (if f.visible.length ≠ args.length then _ else _) m cause ↔ _
      by_cases count : f.visible.length = args.length
      · rw [if_neg (not_not_intro count)]
        refine aborts_start_iff.trans ?_
        constructor
        · rintro (⟨rfl, struct, short⟩ | ⟨out, cpu, prepared, n, below, m', c', steps, breaks⟩)
          · exact .buffer loaded (fun none => bare ⟨struct, none⟩) count struct short
          · exact .run loaded (fun struct none => bare ⟨struct, none⟩) count prepared below steps breaks
        · intro breaks
          cases breaks with
          | output found struct none => exact absurd (same found ▸ ⟨struct, none⟩) bare
          | buffer found _ _ struct short =>
            obtain rfl := same found
            exact .inl ⟨rfl, struct, short⟩
          | run found _ _ prepared below steps breaks =>
            obtain rfl := same found
            exact .inr ⟨_, _, prepared, _, below, _, _, steps, breaks⟩
      · rw [if_pos count, aborts_throw_iff]
        refine iff_of_false (by simp) fun breaks => ?_
        cases breaks with
        | output found struct none => exact absurd (same found ▸ ⟨struct, none⟩) bare
        | buffer found _ right => exact count (same found ▸ right)
        | run found _ right => exact count (same found ▸ right)

/-- The machine gives up on a call exactly if the function lacks the parameter for its struct result,
if the buffer for that is larger than the memory, or if the run comes to an instruction that breaks:
one that enters a frame or pushes a block for which the stack is too short, or an unfit quotient. In
all other cases the call returns or reports an error. -/
theorem call_answers_iff (m : Machine W) (sym : Symbol) (args : List Value) :
    (∀ cause, (∃ m', call sym args m = .error (.aborted cause) m') ↔ m.CallBreaks sym args cause) ∧
    (((∃ v m', call sym args m = .ok v m') ∨
        ∃ e m', call sym args m = .error e m' ∧ e.isAbort = false) ↔
      ¬ ∃ cause, m.CallBreaks sym args cause) := by
  refine ⟨fun cause => aborts_call_iff, ?_⟩
  have gives_up : (∃ cause, m.CallBreaks sym args cause) ↔
      ∃ cause m', call sym args m = .error (.aborted cause) m' :=
    exists_congr fun cause => aborts_call_iff.symm
  rw [gives_up]
  cases call sym args m with
  | ok v m' => simp
  | error e m' => cases e <;> simp [MachineError.isAbort]

end RunM

/-- A function with a local that is larger than the memory. -/
def FunctionDef.roomy : FunctionDef where
  name := ⟨0⟩
  ret := .int
  params := []
  output := none
  body := .block [⟨⟨1⟩, none, false⟩] [.ret (some (.const ⟨0, .int⟩ ⟨2⟩))]

def SymbolTable.roomy : SymbolTable where
  entries := #[⟨"f", .function, .int, none⟩, ⟨"s", .local, .struct 70000, none⟩,
    ⟨"0", .intConst 0, .int, none⟩]

/-- Entering its frame is not reported as a bad address. -/
theorem FunctionDef.roomy_unreported : ∃ c m', FunctionDef.roomy.compiled? {} .roomy = some c ∧
    RunM.call c.name [] ((Machine.init .roomy ()).load c) = .error (.aborted .stackUnderrun) m' := by
  have fails : ((FunctionDef.roomy.compiled? {} .roomy).map fun c =>
      match RunM.call c.name [] ((Machine.init .roomy ()).load c) with
      | .ok .. => none
      | .error e _ => some e) = some (some (.aborted .stackUnderrun)) := by decide +kernel
  obtain ⟨c, compiled, failed⟩ := Option.map_eq_some_iff.mp fails
  refine ⟨c, ?_⟩
  cases run : RunM.call c.name [] ((Machine.init .roomy ()).load c) with
  | ok v m' =>
    rw [run] at failed
    cases failed
  | error e m' =>
    rw [run] at failed
    cases failed
    exact ⟨m', compiled, rfl⟩

end CBackend
