import CBackend.Proofs.Machine.Widths

/-!
Integer instructions. Their operands are registers, pairs of registers and memory, and constants as
sources; whatever the bits of a register above the class are, what is read is the word of its bits
at the class, and what is written is read back with the bits of the class alone. So an instruction
leaves in its destination what the operation gives on as many bits as its class has.
-/

namespace CBackend

namespace Exec

variable {l : Layout} {c c' : Cpu} {ty : ValueClass} {a : Address} {op : Operand} {n : Nat}

/-- What an integer instruction can leave a result in. Values of 64 bits take a pair. -/
inductive Destination (l : Layout) (c : Cpu) (ty : ValueClass) : Operand → Prop
  | register {r : Reg} (known : r.number < 8) (narrow : ty.isWide = false) :
      Destination l c ty (.reg r none)
  | pair {lo hi : Reg} (low : lo.number < 8) (high : hi.number < 8) (apart : lo.number ≠ hi.number) :
      Destination l c ty (.reg lo (some hi))
  | memory {a : Address} {n : Nat} (resolves : resolve l a c = .ok n c)
      (inside : n + ty.width ≤ Memory.size) : Destination l c ty (.ind a)

/-- What an integer instruction can take a value from. -/
inductive Source (l : Layout) (c : Cpu) (ty : ValueClass) : Operand → Prop
  | register {lo : Reg} {hi : Option Reg} (low : lo.number < 8) (high : ∀ r ∈ hi, r.number < 8) :
      Source l c ty (.reg lo hi)
  | memory {a : Address} {n : Nat} (resolves : resolve l a c = .ok n c)
      (inside : n + ty.width ≤ Memory.size) : Source l c ty (.ind a)
  | immediate {sym : Symbol} {w : Word} (reads : readConstant l sym ty c = .ok (.int w) c) :
      Source l c ty (.imm sym)

theorem Destination.source (target : Destination l c ty op) : Source l c ty op := by
  cases target with
  | register known => exact .register known (by simp)
  | pair low high => exact .register low (by simpa using high)
  | memory resolves inside => exact .memory resolves inside

theorem not_isFloat (integer : ty.isInteger = true) : ¬ ty.isFloat = true := by
  cases ty <;> first | decide | cases integer

theorem read_register (integer : ty.isInteger = true) {lo : Reg} {hi : Option Reg}
    (low : lo.number < 8) (high : ∀ r ∈ hi, r.number < 8) :
    read l (.reg lo hi) ty c =
      .ok (.int ((registerWord (c.general lo) (hi.map c.general) ty).extend ty)) c := by
  simp only [read]
  rw [if_neg (not_isFloat integer), bind_run (readGeneral_run low)]
  cases hi with
  | none => rfl
  | some r =>
    have reads : (some <$> readGeneral r) c = .ok (some (c.general r)) c :=
      map_eq_ok.mpr ⟨_, readGeneral_run (high r rfl), rfl⟩
    exact bind_run reads

theorem read_memory (integer : ty.isInteger = true) (resolves : resolve l a c = .ok n c)
    (inside : n + ty.width ≤ Memory.size) :
    read l (.ind a) ty c = .ok (decode (c.memory.read n ty.width) ty) c := by
  simp only [read]
  rw [bind_run resolves, readMemory_run (width_ne_zero integer) inside]

theorem fits_immediate (integer : ty.isInteger = true) {sym : Symbol} {w : Word}
    (reads : readConstant l sym ty c = .ok (.int w) c) :
    ty.Fits w ∨ ∀ n, l.symbols.kind sym ≠ .intConst n := by
  apply Classical.or_iff_not_imp_right.mpr
  intro constant
  obtain ⟨n, kind⟩ := Classical.not_forall_not.mp constant
  rw [readConstant, kind] at reads
  simp only [if_neg (not_isFloat integer)] at reads
  cases reads
  rw [ValueClass.extend_eq_word integer]
  exact ValueClass.fits_word _

theorem Source.read (integer : ty.isInteger = true) (source : Source l c ty op) :
    ∃ w, read l op ty c = .ok (.int w) c ∧
      (ty.Fits w ∨ ∃ sym, op = .imm sym ∧ ∀ n, l.symbols.kind sym ≠ .intConst n) := by
  cases source with
  | register low high =>
    refine ⟨_, read_register integer low high, .inl ?_⟩
    rw [ValueClass.extend_eq_word integer]
    exact ValueClass.fits_word _
  | memory resolves inside =>
    have reads := read_memory integer resolves inside
    rw [decode_integer integer] at reads
    exact ⟨_, reads, .inl (ValueClass.fits_word _)⟩
  | immediate reads =>
    exact ⟨_, reads, (fits_immediate integer reads).imp_right fun other => ⟨_, rfl, other⟩⟩

theorem Destination.read (integer : ty.isInteger = true) (target : Destination l c ty op) :
    ∃ b : BitVec ty.bits, read l op ty c = .ok (.int (ty.word b)) c := by
  obtain ⟨w, reads, fits | ⟨sym, rfl, -⟩⟩ := target.source.read integer
  · exact ⟨w.setWidth ty.bits, by rw [reads, fits]⟩
  · cases target

theorem known_of_readGeneral {r : Reg} {w : BitVec 32} (reads : readGeneral r c = .ok w c') :
    r.number < 8 := by
  apply Classical.byContradiction
  intro unknown
  have none : c.gp[r.number]? = none := Vector.getElem?_eq_none (Nat.le_of_not_lt unknown)
  rw [readGeneral, bind_run (x := get) rfl, none] at reads
  cases reads

theorem resolve_base {r : Reg} (known : r.number < 8) (sym : Option Symbol) (disp : Int) :
    resolve l ⟨some r, sym, disp⟩ c = resolve l ⟨none, sym, disp + (c.general r).toNat⟩ c := by
  have reads : ((fun w => (w.toNat : Int)) <$> readGeneral r) c = .ok ((c.general r).toNat : Int) c :=
    map_eq_ok.mpr ⟨_, readGeneral_run known, rfl⟩
  apply (bind_run reads).trans
  simp only [resolve]
  rw [bind_run (x := pure 0) rfl]
  simp only [Int.add_zero]

theorem resolve_static {sym : Option Symbol} {disp : Int}
    (resolves : resolve l ⟨none, sym, disp⟩ c = .ok n c) (d : Cpu) :
    resolve l ⟨none, sym, disp⟩ d = .ok n d := by
  cases sym with
  | none =>
    cases resolves
    rfl
  | some s =>
    unfold resolve at resolves ⊢
    cases found : l.symbolAddress s with
    | ok n =>
      simp only [found] at resolves ⊢
      cases resolves
      rfl
    | error e =>
      simp only [found] at resolves
      cases resolves

theorem resolve_withMemory (resolves : resolve l a c = .ok n c) (m : Memory) :
    resolve l a { c with memory := m } = .ok n { c with memory := m } := by
  obtain ⟨_ | r, sym, disp⟩ := a
  · exact resolve_static resolves _
  · have known : r.number < 8 := by
      obtain ⟨_, _, reads, -⟩ := bind_eq_ok.mp resolves
      obtain ⟨_, reads, -⟩ := map_eq_ok.mp reads
      exact known_of_readGeneral reads
    rw [resolve_base known] at resolves ⊢
    exact resolve_static resolves _

theorem registerWord_halves (w : Word) :
    registerWord (w.setWidth 32) (some ((w >>> 32).setWidth 32)) ty = w := by
  simp only [registerWord]
  apply BitVec.eq_of_getLsbD_eq
  intro i bound
  simp only [BitVec.getLsbD_append, BitVec.getLsbD_setWidth, BitVec.getLsbD_ushiftRight]
  by_cases low : i < 32
  · simp [low]
  · have inside : i - 32 < 32 := by omega
    simp [low, inside, Nat.add_sub_cancel' (Nat.le_of_not_lt low)]

theorem extend_registerWord (integer : ty.isInteger = true) (narrow : ty.isWide = false) (w : Word) :
    (registerWord (w.setWidth 32) none ty).extend ty = w.extend ty := by
  have le := ValueClass.bits_le_of_narrow integer narrow
  have other : ty ≠ .i64 := by
    rintro rfl
    cases narrow
  rw [ValueClass.extend_eq_word integer, ValueClass.extend_eq_word integer, registerWord,
    if_neg other, BitVec.setWidth_setWidth_of_le _ ty.bits_le, BitVec.setWidth_setWidth_of_le _ le]

theorem Destination.write (integer : ty.isInteger = true) (target : Destination l c ty op)
    (w : Word) :
    ∃ c', write l op ty (.int w) c = .ok () c' ∧
      Exec.read l op ty c' = .ok (.int (ty.word (w.setWidth ty.bits))) c' := by
  cases target with
  | @register r known narrow =>
    refine ⟨c.setGeneral r (w.setWidth 32), ?_, ?_⟩
    · simp only [Exec.write]
      rw [if_neg (not_isFloat integer), bind_run (readGeneral_run known)]
      rfl
    · rw [read_register integer known (by simp), Option.map_none, Cpu.general_setGeneral known,
        extend_registerWord integer narrow, ValueClass.extend_eq_word integer]
  | @pair lo hi low high apart =>
    refine ⟨(c.setGeneral lo (w.setWidth 32)).setGeneral hi ((w >>> 32).setWidth 32), ?_, ?_⟩
    · simp only [Exec.write]
      rw [if_neg (not_isFloat integer), bind_run (readGeneral_run low)]
      apply (bind_run (setGeneral_run _ _)).trans
      exact bind_run (readGeneral_run high)
    · rw [read_register integer low (by simpa using high), Option.map_some,
        Cpu.general_setGeneral high, Cpu.general_setGeneral_of_ne apart, Cpu.general_setGeneral low,
        registerWord_halves, ValueClass.extend_eq_word integer]
  | @memory a n resolves inside =>
    have size := length_encode integer (.int w)
    refine ⟨{ c with memory := c.memory.write n (encode (.int w) ty) }, ?_, ?_⟩
    · simp only [Exec.write]
      rw [bind_run resolves]
      exact writeMemory_run (width_ne_zero integer) (by rw [size]; exact inside)
    · rw [read_memory integer (resolve_withMemory resolves _) inside, decode_written integer inside]

end Exec

def IntOp.opcode : IntOp → Opcode
  | add => .add
  | sub => .sub
  | mul => .mul
  | div => .div
  | udiv => .udiv
  | mod => .mod
  | umod => .umod
  | and => .and
  | or => .or
  | xor => .xor
  | shl => .shl
  | shr => .shr
  | sar => .sar

namespace Exec

variable {l : Layout} {c : Cpu} {i : Instr} {dst src : Operand} {a : BitVec i.ty.bits}

/-- How an instruction ends: with bits of its class in the destination, or with an error and
nothing done. -/
def Gives (l : Layout) (i : Instr) (dst : Operand) (c : Cpu) :
    Except MachineError (BitVec i.ty.bits) → Prop
  | .ok r => ∃ c', execute l i c = .ok () c' ∧ read l dst i.ty c' = .ok (.int (i.ty.word r)) c'
  | .error e => execute l i c = .error e c

theorem operand_run {op : Option Operand} {o : Operand} (named : op = some o) :
    operand op c = .ok o c := by
  rw [named]
  rfl

theorem execute_opcode {op : IntOp} (same : i.op = op.opcode) :
    execute l i = intBinary l i op := by
  unfold execute
  rw [same]
  cases op <;> rfl

theorem gives_unary (integer : i.ty.isInteger = true) (named : i.dst = some dst)
    (target : Destination l c i.ty dst) (reads : read l dst i.ty c = .ok (.int (i.ty.word a)) c)
    {f : Word → Word} (runs : execute l i = intUnary l i f) {r : BitVec i.ty.bits}
    (result : (f (i.ty.word a)).setWidth i.ty.bits = r) : Gives l i dst c (.ok r) := by
  obtain ⟨c', writes, back⟩ := target.write integer (f (i.ty.word a))
  refine ⟨c', ?_, by rw [back, result]⟩
  rw [runs, intUnary, bind_run (operand_run named), bind_run reads]
  exact writes

theorem gives_binary (integer : i.ty.isInteger = true) (named : i.dst = some dst)
    (target : Destination l c i.ty dst) (reads : read l dst i.ty c = .ok (.int (i.ty.word a)) c)
    (given : i.src = some src) {w : Word} (value : read l src i.ty c = .ok (.int w) c) {op : IntOp}
    (same : i.op = op.opcode) (suits : op.Suits i.ty w) :
    Gives l i dst c (op.exact i.ty a (w.setWidth i.ty.bits)) := by
  have source : readOperand l i.src i.ty c = .ok (.int w) c :=
    (bind_run (operand_run given)).trans value
  have runs : execute l i c =
      (ofExcept (op.apply i.ty (i.ty.word a) w) >>= fun r => write l dst i.ty (.int r)) c := by
    rw [execute_opcode same, intBinary, bind_run (operand_run named), bind_run reads,
      bind_run source]
    rfl
  have result := IntOp.map_apply (a := a) op integer suits
  cases applied : op.apply i.ty (i.ty.word a) w with
  | ok r =>
    rw [applied] at runs result
    obtain ⟨c', writes, back⟩ := target.write integer r
    rw [← result]
    exact ⟨c', runs.trans writes, back⟩
  | error e =>
    rw [applied] at runs result
    rw [← result]
    exact runs

theorem execute_cmp (integer : i.ty.isInteger = true) (named : i.dst = some dst)
    (reads : read l dst i.ty c = .ok (.int (i.ty.word a)) c) (given : i.src = some src) {w : Word}
    (value : read l src i.ty c = .ok (.int w) c) (same : i.op = .cmp) (fits : i.ty.Fits w) :
    execute l i c =
      .ok () { c with flags := some (i.ty.compareBits a (w.setWidth i.ty.bits)) } := by
  have first : readOperand l i.dst i.ty c = .ok (.int (i.ty.word a)) c :=
    (bind_run (operand_run named)).trans reads
  have second : readOperand l i.src i.ty c = .ok (.int w) c :=
    (bind_run (operand_run given)).trans value
  have order : compareWords i.ty (i.ty.word a) w = i.ty.compareBits a (w.setWidth i.ty.bits) := by
    rw [← ValueClass.compareWords_word integer, fits]
  rw [← order]
  unfold execute
  rw [same]
  apply (bind_run first).trans
  apply (bind_run second).trans
  rfl

/-- Integer instructions are arithmetic at the width of their class, whatever else the machine
holds. An operation ends as it does on the bits of its operands; it fails only on a divisor of zero,
with nothing done. A comparison orders the bits as the class says and touches the flags alone. Every
source has a value of the class, except for immediates other than integer constants. -/
theorem integer_instruction_exact (l : Layout) (c : Cpu) (i : Instr)
    (integer : i.ty.isInteger = true) {dst : Operand} (named : i.dst = some dst)
    (target : Destination l c i.ty dst) :
    ∃ a : BitVec i.ty.bits, read l dst i.ty c = .ok (.int (i.ty.word a)) c ∧
      (i.op = .neg → Gives l i dst c (.ok (-a))) ∧
      (i.op = .not → Gives l i dst c (.ok (~~~a))) ∧
      ∀ src, i.src = some src → Source l c i.ty src →
        ∃ w, read l src i.ty c = .ok (.int w) c ∧
          (i.ty.Fits w ∨ ∃ sym, src = .imm sym ∧ ∀ n, l.symbols.kind sym ≠ .intConst n) ∧
          (∀ op : IntOp, i.op = op.opcode → op.Suits i.ty w →
            Gives l i dst c (op.exact i.ty a (w.setWidth i.ty.bits))) ∧
          (i.op = .cmp → i.ty.Fits w →
            execute l i c =
              .ok () { c with flags := some (i.ty.compareBits a (w.setWidth i.ty.bits)) }) := by
  have le := i.ty.bits_le
  obtain ⟨a, reads⟩ := target.read integer
  have back := ValueClass.setWidth_word a
  refine ⟨a, reads, fun same => ?_, fun same => ?_, fun src given source => ?_⟩
  · apply gives_unary integer named target reads (f := (- ·))
    · unfold execute
      rw [same]
    · rw [BitVec.setWidth_neg_of_le le, back]
  · apply gives_unary integer named target reads (f := (~~~ ·))
    · unfold execute
      rw [same]
    · rw [BitVec.setWidth_not le, back]
  · obtain ⟨w, value, fits⟩ := source.read integer
    exact ⟨w, value, fits,
      fun _ same suits => gives_binary integer named target reads given value same suits,
      fun same fits => execute_cmp integer named reads given value same fits⟩

/-- An operation on the first register and a constant, of which there are 1, -1 and 256.0. -/
def onEax (op : Opcode) (ty : ValueClass) (constant : Nat) : Instr :=
  { op, ty, dst := some (.reg .eax none), src := some (.imm ⟨constant⟩) }

def constants : Layout where
  symbols := { entries := #[
    ⟨"1", .intConst 1, .int, none⟩,
    ⟨"-1", .intConst (-1), .int, none⟩,
    ⟨"256.0", .floatConst ⟨0x4070000000000000⟩, .double, none⟩] }
  globals := []

def withEax (w : BitVec 32) : Cpu := Cpu.init.setGeneral .eax w

/-- The least quotient wraps around, and what stands above it in the register does not matter. -/
theorem least_quotient_wraps :
    Gives constants (onEax .div .i8 1) (.reg .eax none) (withEax 0x5680) (.ok 0x80#8) := by
  have known : Destination constants (withEax 0x5680) .i8 (.reg .eax none) :=
    .register (by decide) rfl
  obtain ⟨a, reads, -, -, sources⟩ :=
    integer_instruction_exact constants (withEax 0x5680) (onEax .div .i8 1) rfl rfl known
  obtain ⟨w, value, -, results, -⟩ :=
    sources (.imm ⟨1⟩) rfl (.immediate (w := -1) rfl)
  have low : a = 0x80#8 :=
    ValueClass.word_inj (Value.int.inj (EStateM.Result.ok.inj reads).1).symm
  have divisor : w = -1 := (Value.int.inj (EStateM.Result.ok.inj value).1).symm
  subst low divisor
  exact results .div rfl ⟨rfl, by decide⟩

/-- Below 64 bits a logical shift of a signed value keeps the sign and an arithmetic shift of an
unsigned one does not; and a floating immediate is not brought into the class, so that a divisor
whose bits are all zero can be let through. -/
theorem narrow_shift_by_class :
    Gives constants (onEax .shr .i8 0) (.reg .eax none) (withEax 0xFF) (.ok 0xFF#8) ∧
      0xFF#8 >>> 1 = 0x7F#8 ∧
    Gives constants (onEax .sar .u8 0) (.reg .eax none) (withEax 0xFF) (.ok 0x7F#8) ∧
      BitVec.sshiftRight 0xFF#8 1 = 0xFF#8 ∧
    Gives constants (onEax .div .i8 2) (.reg .eax none) (withEax 100) (.ok 0#8) ∧
      ∃ w, read constants (.imm ⟨2⟩) .i8 (withEax 100) = .ok (.int w) (withEax 100) ∧
        w.setWidth 8 = 0#8 :=
  ⟨⟨_, rfl, rfl⟩, rfl, ⟨_, rfl, rfl⟩, rfl, ⟨_, rfl, rfl⟩, 256, rfl, rfl⟩

end Exec

end CBackend
