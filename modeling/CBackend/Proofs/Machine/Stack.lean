import CBackend.Machine.Run
import CBackend.Proofs.StateError

/-!
The stack of the reference machine. What has been pushed lies above the stack pointer as one run of
bytes, the latest first; a push puts its bytes in front of it and leaves the rest alone. An integer
that was pushed in one class can be read in any class that is no wider.
-/

namespace CBackend

namespace Memory

variable {m m' : Memory} {a c n : Nat} {bytes : List Byte}

theorem get_write_outside (inside : a + bytes.length ≤ size) (bound : c < size)
    (outside : c < a ∨ a + bytes.length ≤ c) : (m.write a bytes).get c = m.get c := by
  induction bytes generalizing m a with
  | nil => rfl
  | cons b rest ih =>
    rw [List.length_cons] at inside outside
    rw [write, ih (by omega) (by omega)]
    exact get_set_other m b (by omega) bound (by omega)

theorem read_congr (same : ∀ i < n, m'.get (a + i) = m.get (a + i)) : m'.read a n = m.read a n := by
  induction n generalizing a with
  | zero => rfl
  | succ n ih =>
    have first := same 0 (by omega)
    have later (i : Nat) (bound : i < n) : m'.get (a + 1 + i) = m.get (a + 1 + i) := by
      have there := same (i + 1) (by omega)
      rwa [Nat.add_comm i 1, ← Nat.add_assoc] at there
    rw [read, read, ih later, ← Nat.add_zero a, first]

theorem read_append (k : Nat) : m.read a (n + k) = m.read a n ++ m.read (a + n) k := by
  induction n generalizing a with
  | zero => simp [read]
  | succ n ih =>
    rw [Nat.succ_add, read, read, ih, List.cons_append, Nat.add_assoc, Nat.add_comm 1 n]

theorem read_write (inside : a + bytes.length ≤ size) :
    (m.write a bytes).read a bytes.length = bytes := by
  induction bytes generalizing m a with
  | nil => rfl
  | cons b rest ih =>
    rw [List.length_cons] at inside
    have kept : ((m.set a b).write (a + 1) rest).get a = (m.set a b).get a :=
      get_write_outside (by omega) (by omega) (.inl (by omega))
    rw [List.length_cons, read, write, ih (by omega), kept, get_set_self]

theorem read_within (holds : m.read a bytes.length = bytes) {i : Nat} (bound : i + n ≤ bytes.length) :
    m.read (a + i) n = (bytes.drop i).take n := by
  obtain ⟨rest, sum⟩ := Nat.exists_eq_add_of_le bound
  rw [sum, read_append, read_append] at holds
  rw [← holds, List.append_assoc, List.drop_left' (length_read ..),
    List.take_left' (length_read ..)]

end Memory

theorem take_toBytes {width k : Nat} (fits : k ≤ width) (n : Nat) :
    (toBytes width n).take k = toBytes k n := by
  induction k generalizing width n with
  | zero => rfl
  | succ k ih =>
    obtain ⟨rest, rfl⟩ := Nat.exists_eq_add_of_le' (Nat.lt_of_lt_of_le (Nat.succ_pos k) fits)
    simp only [toBytes, List.take_succ_cons]
    rw [ih (by omega)]

def ValueClass.isInteger (ty : ValueClass) : Bool := !ty.isFloat && decide (ty.width ≠ 0)

theorem CType.isInteger_valueClass {ty : CType} (integer : ty.isInteger = true) :
    ty.valueClass.isInteger = true := by
  cases ty <;> first | rfl | cases integer

namespace Exec

theorem extend_mod {ty : ValueClass} (integer : ty.isInteger = true) (w : Word) :
    Word.extend (.ofNat 64 (w.toNat % Nat.pow 256 ty.width)) ty = w.extend ty := by
  have narrow {n : Nat} (small : n ≤ 64) :
      BitVec.setWidth n (BitVec.ofNat 64 (w.toNat % 2 ^ n)) = w.setWidth n := by
    apply BitVec.eq_of_toNat_eq
    have divides : 2 ^ n ∣ 2 ^ 64 := Nat.pow_dvd_pow 2 small
    rw [BitVec.toNat_setWidth, BitVec.toNat_setWidth, BitVec.toNat_ofNat,
      Nat.mod_mod_of_dvd _ divides, Nat.mod_mod]
  cases ty with
  | i8 => exact congrArg (BitVec.signExtend 64) (narrow (n := 8) (by decide))
  | u8 => exact congrArg (BitVec.setWidth 64) (narrow (n := 8) (by decide))
  | i16 => exact congrArg (BitVec.signExtend 64) (narrow (n := 16) (by decide))
  | u16 => exact congrArg (BitVec.setWidth 64) (narrow (n := 16) (by decide))
  | i32 => exact congrArg (BitVec.signExtend 64) (narrow (n := 32) (by decide))
  | u32 => exact congrArg (BitVec.setWidth 64) (narrow (n := 32) (by decide))
  | i64 | u64 =>
    change BitVec.ofNat 64 (w.toNat % 2 ^ 64) = w
    rw [Nat.mod_eq_of_lt w.isLt, BitVec.ofNat_toNat, BitVec.setWidth_eq]
  | f32 | f64 | blk | void => cases integer

theorem decode_encode (wide narrow : ValueClass) (pushed : wide.isInteger = true)
    (integer : narrow.isInteger = true) (fits : narrow.width ≤ wide.width) (v : Value) :
    decode ((encode v wide).take narrow.width) narrow = .int (v.toWord.extend narrow) := by
  have bytes : encode v wide = toBytes wide.width v.toWord.toNat := by
    cases wide <;> first | rfl | cases pushed
  have value (bytes : List Byte) :
      decode bytes narrow = .int (Word.extend (.ofNat 64 (ofBytes bytes)) narrow) := by
    cases narrow <;> first | rfl | cases integer
  rw [value, bytes, take_toBytes fits, ofBytes_toBytes, extend_mod integer]

end Exec

namespace Cpu

variable {c c' : Cpu}

def general (c : Cpu) (r : Reg) : BitVec 32 := c.gp[r.number]?.getD 0

def setGeneral (c : Cpu) (r : Reg) (w : BitVec 32) : Cpu :=
  { c with gp := c.gp.setIfInBounds r.number w }

def stackPointer (c : Cpu) : Nat := (c.general .esp).toNat

def framePointer (c : Cpu) : Nat := (c.general .ebp).toNat

theorem general_setGeneral {r : Reg} (known : r.number < 8) (w : BitVec 32) :
    (c.setGeneral r w).general r = w := by
  simp [general, setGeneral, known]

theorem general_setGeneral_of_ne {r r' : Reg} (other : r'.number ≠ r.number) (w : BitVec 32) :
    (c.setGeneral r w).general r' = c.general r' := by
  simp only [general, setGeneral, Vector.getElem?_setIfInBounds]
  rw [if_neg (Ne.symm other)]

def push (c : Cpu) (bytes : List Byte) : Cpu :=
  { c.setGeneral .esp (.ofNat 32 (c.stackPointer - bytes.length)) with
    memory := c.memory.write (c.stackPointer - bytes.length) bytes }

theorem stackPointer_push (bytes : List Byte) :
    (c.push bytes).stackPointer = c.stackPointer - bytes.length := by
  have bound := (c.general .esp).isLt
  change ((c.setGeneral .esp _).general .esp).toNat = _
  rw [general_setGeneral (by decide), BitVec.toNat_ofNat]
  apply Nat.mod_eq_of_lt
  unfold stackPointer
  omega

theorem general_push {r : Reg} (other : r.number ≠ Reg.esp.number) (bytes : List Byte) :
    (c.push bytes).general r = c.general r :=
  general_setGeneral_of_ne other _

/-- From the stack pointer up to an address lies a run of bytes. -/
structure Stacked (c : Cpu) (top : Nat) (bytes : List Byte) : Prop where
  pointer : c.stackPointer + bytes.length = top
  inside : top ≤ Memory.size
  holds : c.memory.read c.stackPointer bytes.length = bytes

theorem stacked_nil (inside : c.stackPointer ≤ Memory.size) : c.Stacked c.stackPointer [] :=
  ⟨rfl, inside, rfl⟩

theorem Stacked.congr {top : Nat} {bytes : List Byte} (stacked : c.Stacked top bytes)
    (pointer : c'.stackPointer = c.stackPointer)
    (kept : ∀ a, c.stackPointer ≤ a → a < top → c'.memory.get a = c.memory.get a) :
    c'.Stacked top bytes where
  pointer := by rw [pointer, stacked.pointer]
  inside := stacked.inside
  holds := by
    have := stacked.pointer
    rw [pointer, Memory.read_congr fun i bound => kept _ (by omega) (by omega), stacked.holds]

theorem Stacked.push {top : Nat} {bytes : List Byte} (stacked : c.Stacked top bytes)
    (new : List Byte) (room : new.length ≤ c.stackPointer) :
    (c.push new).Stacked top (new ++ bytes) := by
  have pointer := stacked.pointer
  have inside := stacked.inside
  have lowered := stackPointer_push (c := c) new
  refine ⟨by rw [List.length_append, lowered]; omega, inside, ?_⟩
  have front : (c.push new).memory.read (c.stackPointer - new.length) new.length = new :=
    Memory.read_write (by omega)
  have back : (c.push new).memory.read c.stackPointer bytes.length =
      c.memory.read c.stackPointer bytes.length := by
    apply Memory.read_congr
    intro i bound
    exact Memory.get_write_outside (by omega) (by omega) (.inr (by omega))
  rw [lowered, List.length_append, Memory.read_append, front, Nat.sub_add_cancel room, back,
    stacked.holds]

end Cpu

namespace Exec

variable {c : Cpu} {ty : ValueClass}

theorem readGeneral_run {r : Reg} (known : r.number < 8) :
    readGeneral r c = .ok (c.general r) c := by
  rw [readGeneral, bind_run (x := get) rfl]
  simp only [Cpu.general, Vector.getElem?_eq_getElem known, Option.getD_some]
  rfl

theorem setGeneral_run (r : Reg) (w : BitVec 32) : setGeneral r w c = .ok () (c.setGeneral r w) :=
  rfl

theorem readMemory_run {a : Nat} (proper : ty.width ≠ 0) (inside : a + ty.width ≤ Memory.size) :
    readMemory a ty c = .ok (decode (c.memory.read a ty.width) ty) c := by
  have range : checkRange a ty.width c = .ok () c := by
    rw [checkRange, Memory.inside, decide_eq_true inside]
    rfl
  have bytes : readBytes a ty.width c = .ok (c.memory.read a ty.width) c := by
    rw [readBytes, bind_run range]
    rfl
  rw [readMemory, if_neg proper]
  exact bind_run bytes

theorem writeMemory_run {a : Nat} (proper : ty.width ≠ 0) {v : Value}
    (inside : a + (encode v ty).length ≤ Memory.size) :
    writeMemory a ty v c = .ok () { c with memory := c.memory.write a (encode v ty) } := by
  have range : checkRange a (encode v ty).length c = .ok () c := by
    rw [checkRange, Memory.inside, decide_eq_true inside]
    rfl
  rw [writeMemory, if_neg proper]
  exact bind_run range

theorem length_encode (integer : ty.isInteger = true) (v : Value) :
    (encode v ty).length = ty.width := by
  cases ty with
  | f32 | f64 | blk | void => cases integer
  | _ => exact length_toBytes _ _

theorem isInteger_pushed (integer : ty.isInteger = true) : ty.pushed.isInteger = true := by
  cases ty <;> first | rfl | cases integer

theorem width_ne_zero (integer : ty.isInteger = true) : ty.width ≠ 0 := by
  cases ty <;> first | decide | cases integer

theorem pushValue_run (ty : ValueClass) (integer : ty.isInteger = true) (v : Value)
    (room : ty.pushed.width ≤ c.stackPointer) (inside : c.stackPointer ≤ Memory.size) :
    pushValue v ty ty.pushed.width c = .ok () (c.push (encode v ty.pushed)) := by
  have pushed := isInteger_pushed integer
  have size := length_encode pushed v
  have enough : ¬ (c.general .esp).toNat < ty.pushed.width := Nat.not_lt.mpr room
  rw [pushValue, bind_run (readGeneral_run (by decide)), if_neg enough]
  apply (bind_run (setGeneral_run _ _)).trans
  change writeMemory (c.stackPointer - ty.pushed.width) ty.pushed v _ = _
  rw [writeMemory_run (width_ne_zero pushed) (by omega), Cpu.push, size]
  rfl

theorem le_stackPointer_of_pushValue {v : Value} {bytes : Nat} {c' : Cpu}
    (ok : pushValue v ty bytes c = .ok () c') : bytes ≤ c.stackPointer := by
  apply Nat.le_of_not_lt
  intro short
  unfold Cpu.stackPointer at short
  rw [pushValue, bind_run (readGeneral_run (by decide)), if_pos short] at ok
  cases ok

def wordBytes (w : BitVec 32) : List Byte := encode (.ofNat w.toNat) .u32

theorem length_wordBytes (w : BitVec 32) : (wordBytes w).length = 4 := rfl

theorem pushWord_run (w : BitVec 32) (room : 4 ≤ c.stackPointer)
    (inside : c.stackPointer ≤ Memory.size) : pushWord w c = .ok () (c.push (wordBytes w)) :=
  pushValue_run .u32 rfl _ room inside

theorem lowerStack_run (bytes : Nat) (room : bytes ≤ c.stackPointer) :
    lowerStack bytes c = .ok (c.stackPointer - bytes)
      (c.setGeneral .esp (.ofNat 32 (c.stackPointer - bytes))) := by
  have enough : ¬ (c.general .esp).toNat < bytes := Nat.not_lt.mpr room
  rw [lowerStack, bind_run (readGeneral_run (by decide)), if_neg enough]
  exact bind_run (setGeneral_run _ _)

theorem decode_wordBytes (w : BitVec 32) : decode (wordBytes w) .u32 = .ofNat w.toNat := by
  have same := decode_encode .u32 .u32 rfl rfl (by decide) (.ofNat w.toNat)
  rw [List.take_of_length_le (Nat.le_of_eq (length_encode rfl _))] at same
  rw [wordBytes, same]
  have bound := w.isLt
  change Value.int (((BitVec.ofNat 64 w.toNat).setWidth 32).setWidth 64) = .int (.ofNat 64 w.toNat)
  congr 1
  apply BitVec.eq_of_toNat_eq
  simp only [BitVec.toNat_setWidth, BitVec.toNat_ofNat]
  omega

theorem enterFrame_run (bytes : Nat) (room : bytes + 4 ≤ c.stackPointer)
    (inside : c.stackPointer ≤ Memory.size) :
    ∃ c', enterFrame bytes c = .ok () c' ∧ c'.framePointer = c.stackPointer - 4 ∧
      c'.memory = (c.push (wordBytes (c.general .ebp))).memory := by
  have lowered : (c.push (wordBytes (c.general .ebp))).stackPointer = c.stackPointer - 4 :=
    Cpu.stackPointer_push _
  generalize saved : c.push (wordBytes (c.general .ebp)) = c₁ at lowered ⊢
  have pushes : pushWord (c.general .ebp) c = .ok () c₁ := by
    rw [pushWord_run _ (by omega) inside, saved]
  have kept : (c₁.setGeneral .ebp (c₁.general .esp)).stackPointer = c₁.stackPointer := by
    unfold Cpu.stackPointer
    rw [Cpu.general_setGeneral_of_ne (by decide)]
  have points : (c₁.setGeneral .ebp (c₁.general .esp)).framePointer = c₁.stackPointer := by
    rw [Cpu.framePointer, Cpu.general_setGeneral (by decide), Cpu.stackPointer]
  have same : (c₁.setGeneral .ebp (c₁.general .esp)).memory = c₁.memory := rfl
  have sets := setGeneral_run (c := c₁) .ebp (c₁.general .esp)
  generalize c₁.setGeneral .ebp (c₁.general .esp) = c₂ at kept points same sets
  refine ⟨c₂.setGeneral .esp (.ofNat 32 (c₂.stackPointer - bytes)), ?_, ?_, same⟩
  · rw [enterFrame, bind_run (readGeneral_run (by decide)), bind_run pushes,
      bind_run (readGeneral_run (by decide)), bind_run sets]
    exact bind_run (lowerStack_run bytes (by omega))
  · rw [Cpu.framePointer, Cpu.general_setGeneral_of_ne (by decide), ← lowered, ← points]
    rfl

end Exec

theorem RunM.onCpu_run {W α : Type} {m : Machine W} {x : Exec α} {a : α} {c : Cpu}
    (run : x m.cpu = .ok a c) : onCpu x m = .ok a { m with cpu := c } := by
  simp only [onCpu, run]

end CBackend
