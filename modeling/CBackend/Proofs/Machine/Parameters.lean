import Mathlib.Algebra.Ring.Nat
import CBackend.Proofs.Machine.Stack
import CBackend.Proofs.Offsets
import CBackend.Proofs.Selection.Emission

/-!
Where a function finds its parameters. A caller pushes the arguments with the last one first, then
the return token; the callee saves the frame pointer. So the bytes above the new frame pointer are
the saved one, the token and the arguments in order, and the offsets that parameters are bound to
count through the same bytes. It does not matter whether the caller is outside the program or
compiled, nor how wide the arguments are, as long as they are integers.
-/

namespace CBackend

variable {args : List (CType × Value)} {params : List Symbol} {c : Cpu} {ty : CType}
  {t : SymbolTable} {l : Layout}

namespace SymbolTable

variable {p : Symbol}

def argBytes (t : SymbolTable) (params : List Symbol) : Nat :=
  (params.map fun p => roundToSlot (t.ty p).size).sum

theorem argBytes_cons (t : SymbolTable) (p : Symbol) (params : List Symbol) :
    t.argBytes (p :: params) = roundToSlot (t.ty p).size + t.argBytes params := by
  simp only [argBytes, List.map_cons, List.sum_cons]

theorem argBytes_take_succ (t : SymbolTable) {k : Nat} (found : params[k]? = some p) :
    t.argBytes (params.take (k + 1)) = t.argBytes (params.take k) + roundToSlot (t.ty p).size := by
  rw [List.take_add_one, found]
  simp [argBytes]

theorem argBytes_take_le (t : SymbolTable) (params : List Symbol) {i j : Nat} (le : i ≤ j) :
    t.argBytes (params.take i) ≤ t.argBytes (params.take j) := by
  obtain ⟨d, rfl⟩ := Nat.exists_eq_add_of_le le
  simp [argBytes, List.take_add]

def placeOf (t : SymbolTable) (frame : Nat) (p : Symbol) : Nat × Nat :=
  let start := (frame + (t.offset p).getD 0).toNat
  (start, start + (t.ty p).size)

end SymbolTable

namespace Gen

open SymbolTable

variable {g g' : Generator}

theorem bindParam_eq_ok {p : Symbol} (bound : bindParam p g = .ok () g') :
    g'.symbols = g.symbols.setOffset p g.frame.nextParam ∧
      g'.frame.nextParam =
        wrapOffset (g.frame.nextParam + roundToSlot (g.symbols.ty p).size) := by
  rw [← modify_eq_ok.mp bound]
  exact ⟨rfl, rfl⟩

theorem bindParams_cons {p : Symbol} (bound : (p :: params).forM bindParam g = .ok () g') :
    ∃ g₁, bindParam p g = .ok () g₁ ∧ params.forM bindParam g₁ = .ok () g' := by
  obtain ⟨_, g₁, first, later⟩ := bind_eq_ok.mp bound
  exact ⟨g₁, first, later⟩

theorem bindParams_other (bound : params.forM bindParam g = .ok () g') :
    (∀ p, g'.symbols.ty p = g.symbols.ty p) ∧
      ∀ p, p ∉ params → g'.symbols.offset p = g.symbols.offset p := by
  induction params generalizing g with
  | nil =>
    obtain ⟨-, rfl⟩ := pure_eq_ok.mp bound
    exact ⟨fun _ => rfl, fun _ _ => rfl⟩
  | cons q rest ih =>
    obtain ⟨g₁, first, later⟩ := bindParams_cons bound
    obtain ⟨types, others⟩ := ih later
    obtain ⟨symbols, -⟩ := bindParam_eq_ok first
    constructor
    · intro p
      rw [types p, symbols, ty_setOffset]
    · intro p outside
      rw [List.mem_cons, not_or] at outside
      rw [others p outside.2, symbols, offset_setOffset_of_ne outside.1]

theorem bindParams_offset {start : Nat} (next : g.frame.nextParam = start)
    (fits : start + g.symbols.argBytes params < 0x80000000) (distinct : params.Nodup)
    (known : ∀ p ∈ params, p.index < g.symbols.size)
    (bound : params.forM bindParam g = .ok () g') {k : Nat} {p : Symbol}
    (found : params[k]? = some p) :
    g'.symbols.offset p = some ((start + g.symbols.argBytes (params.take k) : Nat) : Int) := by
  induction params generalizing g start k with
  | nil => cases found
  | cons q rest ih =>
    obtain ⟨g₁, first, later⟩ := bindParams_cons bound
    obtain ⟨symbols, frame⟩ := bindParam_eq_ok first
    obtain ⟨fresh, distinct⟩ := List.nodup_cons.mp distinct
    have bytes (ps : List Symbol) : g₁.symbols.argBytes ps = g.symbols.argBytes ps := by
      simp only [argBytes, symbols, ty_setOffset]
    rw [argBytes_cons] at fits
    cases k with
    | zero =>
      obtain rfl : q = p := Option.some.inj found
      rw [(bindParams_other later).2 q fresh, symbols,
        offset_setOffset (known q List.mem_cons_self), next]
      rfl
    | succ k =>
      have next₁ : g₁.frame.nextParam =
          ((start + roundToSlot (g.symbols.ty q).size : Nat) : Int) := by
        rw [frame, next, wrapOffset_of_fits (by omega) (by omega)]
        omega
      have known₁ : ∀ p ∈ rest, p.index < g₁.symbols.size := by
        intro p inside
        rw [symbols, size_setOffset]
        exact known p (List.mem_cons_of_mem _ inside)
      rw [ih next₁ (by rw [bytes]; omega) distinct known₁ later found, bytes, List.take_succ_cons,
        argBytes_cons, Nat.add_assoc]

end Gen

def argumentBytes (args : List (CType × Value)) : List Byte :=
  args.flatMap fun a => Exec.encode a.2 a.1.valueClass.pushed

theorem CType.width_pushed (integer : ty.isInteger = true) :
    ty.valueClass.pushed.width = roundToSlot ty.size := by
  cases ty <;> first | rfl | cases integer

theorem CType.width_le_slot (integer : ty.isInteger = true) :
    ty.valueClass.width ≤ roundToSlot ty.size := by
  cases ty <;> first | decide | cases integer

theorem CType.length_argument (integer : ty.isInteger = true) (v : Value) :
    (Exec.encode v ty.valueClass.pushed).length = roundToSlot ty.size := by
  rw [Exec.length_encode (Exec.isInteger_pushed (isInteger_valueClass integer)),
    width_pushed integer]

theorem length_argumentBytes (integers : ∀ a ∈ args, a.1.isInteger = true) :
    (argumentBytes args).length = (args.map fun a => roundToSlot a.1.size).sum := by
  induction args with
  | nil => rfl
  | cons a rest ih =>
    rw [argumentBytes, List.flatMap_cons, List.length_append,
      CType.length_argument (integers a List.mem_cons_self), List.map_cons, List.sum_cons]
    congr 1
    exact ih fun a later => integers a (List.mem_cons_of_mem _ later)

theorem Exec.pushArgument_run (ty : CType) (integer : ty.isInteger = true) (v : Value)
    (room : roundToSlot ty.size ≤ c.stackPointer) (inside : c.stackPointer ≤ Memory.size) :
    pushValue v ty.valueClass (roundToSlot ty.size) c =
      .ok () (c.push (encode v ty.valueClass.pushed)) := by
  rw [← CType.width_pushed integer] at room ⊢
  exact pushValue_run _ (CType.isInteger_valueClass integer) v room inside

/-- Arguments whose types take the slots of the parameters. -/
structure SymbolTable.Matches (t : SymbolTable) (params : List Symbol)
    (args : List (CType × Value)) : Prop where
  integer : ∀ p ∈ params, (t.ty p).isInteger = true
  integral : ∀ a ∈ args, a.1.isInteger = true
  slots : (args.map fun a => roundToSlot a.1.size) = params.map fun p => roundToSlot (t.ty p).size

theorem SymbolTable.Matches.length (same : t.Matches params args) :
    (argumentBytes args).length = t.argBytes params := by
  rw [length_argumentBytes same.integral, same.slots, argBytes]

theorem SymbolTable.Matches.take (same : t.Matches params args) (k : Nat) :
    t.Matches (params.take k) (args.take k) where
  integer p inside := same.integer p (List.mem_of_mem_take inside)
  integral a inside := same.integral a (List.mem_of_mem_take inside)
  slots := by rw [List.map_take, List.map_take, same.slots]

theorem SymbolTable.Matches.congr {t' : SymbolTable} (same : t.Matches params args)
    (types : ∀ p ∈ params, t'.ty p = t.ty p) : t'.Matches params args where
  integer p inside := by rw [types p inside, same.integer p inside]
  integral := same.integral
  slots := by
    rw [same.slots]
    apply List.map_congr_left
    intro p inside
    rw [types p inside]

/-- What lies above the frame pointer of a function that has just been entered. -/
structure Cpu.Entered (c : Cpu) (saved : BitVec 32) (args : List Byte) : Prop where
  inside : c.framePointer + (8 + args.length) ≤ Memory.size
  holds : c.memory.read c.framePointer (8 + args.length) =
    Exec.wordBytes saved ++ (Exec.wordBytes Machine.returnToken ++ args)

theorem Cpu.Entered.read {saved : BitVec 32} {args : List Byte} (entered : c.Entered saved args)
    {i n : Nat} (bound : i + n ≤ 8 + args.length) :
    c.memory.read (c.framePointer + i) n =
      ((Exec.wordBytes saved ++ (Exec.wordBytes Machine.returnToken ++ args)).drop i).take n := by
  have length : (Exec.wordBytes saved ++ (Exec.wordBytes Machine.returnToken ++ args)).length =
      8 + args.length := by
    simp only [List.length_append, Exec.length_wordBytes]
    omega
  apply Memory.read_within
  · rw [length, entered.holds]
  · rw [length]
    exact bound

theorem Cpu.Stacked.enter {top : Nat} {args : List Byte} (stacked : c.Stacked top args)
    {bytes : Nat} (room : bytes + 8 ≤ c.stackPointer) :
    ∃ c₁ c₂, Exec.pushWord Machine.returnToken c = .ok () c₁ ∧
      Exec.enterFrame bytes c₁ = .ok () c₂ ∧ c₂.Entered (c.general .ebp) args := by
  have inside : c.stackPointer ≤ Memory.size := by
    have := stacked.pointer
    have := stacked.inside
    omega
  have token := stacked.push (Exec.wordBytes Machine.returnToken)
    (by rw [Exec.length_wordBytes]; omega)
  have pushes := Exec.pushWord_run Machine.returnToken (by omega) inside
  have lowered := c.stackPointer_push (Exec.wordBytes Machine.returnToken)
  have base : (c.push (Exec.wordBytes Machine.returnToken)).general .ebp = c.general .ebp :=
    c.general_push (by decide) _
  rw [Exec.length_wordBytes] at lowered
  generalize c.push (Exec.wordBytes Machine.returnToken) = c₁ at token pushes lowered base
  obtain ⟨c₂, enters, points, memory⟩ := Exec.enterFrame_run (c := c₁) bytes (by omega) (by omega)
  have saved := token.push (Exec.wordBytes (c₁.general .ebp))
    (by rw [Exec.length_wordBytes]; omega)
  have lowered₂ := c₁.stackPointer_push (Exec.wordBytes (c₁.general .ebp))
  rw [Exec.length_wordBytes] at lowered₂
  have whole : (Exec.wordBytes (c₁.general .ebp) ++
      (Exec.wordBytes Machine.returnToken ++ args)).length = 8 + args.length := by
    simp only [List.length_append, Exec.length_wordBytes]
    omega
  refine ⟨c₁, c₂, pushes, enters, ?_, ?_⟩
  · have := saved.pointer
    have := saved.inside
    omega
  · have holds := saved.holds
    rw [whole, lowered₂, ← points, base] at holds
    rw [memory, base]
    exact holds

/-- What a function that has been entered finds: each parameter, read where it is bound, is the
argument in its type, and nothing overlaps. -/
structure SymbolTable.Received (t : SymbolTable) (c : Cpu) (params : List Symbol)
    (args : List Value) (saved : BitVec 32) : Prop where
  values : ∀ (l : Layout) (k : Nat) (p : Symbol) (v : Value), params[k]? = some p →
    args[k]? = some v → ∃ offset, t.offset p = some offset ∧
      Exec.read l (.ind (.based .ebp offset)) (t.ty p).valueClass c =
        .ok (.int (v.toWord.extend (t.ty p).valueClass)) c
  token : Exec.readMemory (c.framePointer + 4) .u32 c = .ok (.ofNat Machine.returnToken.toNat) c
  saved : Exec.readMemory c.framePointer .u32 c = .ok (.ofNat saved.toNat) c
  apart : ((c.framePointer, c.framePointer + 4) :: (c.framePointer + 4, c.framePointer + 8) ::
    params.map (t.placeOf c.framePointer)).Pairwise fun a b => a.2 ≤ b.1

theorem Exec.resolve_frame {offset : Nat} (bound : c.framePointer + offset < 0x100000000) :
    resolve l (.based .ebp offset) c = .ok (c.framePointer + offset) c := by
  have base : ((fun w : BitVec 32 => (w.toNat : Int)) <$> readGeneral .ebp : Exec Int) c =
      .ok (c.framePointer : Int) c :=
    map_eq_ok.mpr ⟨_, readGeneral_run (by decide), rfl⟩
  apply (bind_run base).trans
  apply (bind_run (x := (pure 0 : Exec Int)) rfl).trans
  have sum : (BitVec.ofInt 32 ((offset : Int) + c.framePointer + 0)).toNat =
      c.framePointer + offset := by
    rw [BitVec.toNat_ofInt]
    omega
  change EStateM.Result.ok (BitVec.ofInt 32 ((offset : Int) + c.framePointer + 0)).toNat c = _
  rw [sum]

theorem Cpu.Entered.received {saved : BitVec 32} (entered : c.Entered saved (argumentBytes args))
    (same : t.Matches params args)
    (offsets : ∀ (k : Nat) (p : Symbol), params[k]? = some p → t.offset p = some ((8 + t.argBytes
      (params.take k) : Nat) : Int)) : t.Received c params (args.map Prod.snd) saved where
  values l k p v hasParam hasValue := by
    rw [List.getElem?_map, Option.map_eq_some_iff] at hasValue
    obtain ⟨⟨ty, v⟩, hasArg, rfl⟩ := hasValue
    have integer := same.integer p (List.mem_of_getElem? hasParam)
    have integral : ty.isInteger = true := same.integral _ (List.mem_of_getElem? hasArg)
    have slot : roundToSlot ty.size = roundToSlot (t.ty p).size := by
      have slots := congrArg (·[k]?) same.slots
      simp only [List.getElem?_map, hasArg, hasParam, Option.map_some] at slots
      exact Option.some.inj slots
    have split : argumentBytes args = argumentBytes (args.take k) ++
        (Exec.encode v ty.valueClass.pushed ++ argumentBytes (args.drop (k + 1))) := by
      obtain ⟨bound, here⟩ := List.getElem?_eq_some_iff.mp hasArg
      have parts : args = args.take k ++ (ty, v) :: args.drop (k + 1) := by
        rw [← here, ← List.drop_eq_getElem_cons bound, List.take_append_drop]
      conv => lhs; rw [parts]
      rw [argumentBytes, List.flatMap_append, List.flatMap_cons]
      rfl
    have width := CType.width_le_slot integer
    have length := CType.length_argument integral v
    have before := (same.take k).length
    have total := congrArg List.length split
    rw [List.length_append, List.length_append] at total
    refine ⟨_, offsets k p hasParam, ?_⟩
    have bytes : c.memory.read (c.framePointer + (8 + t.argBytes (params.take k)))
        (t.ty p).valueClass.width =
          (Exec.encode v ty.valueClass.pushed).take (t.ty p).valueClass.width := by
      rw [entered.read (by omega), ← before, ← List.append_assoc, split, ← List.append_assoc,
        List.drop_left' (by simp only [List.length_append, Exec.length_wordBytes]),
        List.take_append_of_le_length (by omega)]
    have inside := entered.inside
    have small : Memory.size = 65536 := rfl
    have narrow := CType.isInteger_valueClass integer
    have wide := Exec.isInteger_pushed (CType.isInteger_valueClass integral)
    rw [Exec.read, bind_run (Exec.resolve_frame (by omega)),
      Exec.readMemory_run (Exec.width_ne_zero narrow) (by omega), bytes,
      Exec.decode_encode _ _ wide narrow (by rw [CType.width_pushed integral]; omega)]
  token := by
    have inside := entered.inside
    have bytes := entered.read (i := 4) (n := 4) (by omega)
    rw [Exec.readMemory_run (by decide) (by change _ + 4 ≤ _; omega)]
    change EStateM.Result.ok (Exec.decode (c.memory.read (c.framePointer + 4) 4) .u32) c = _
    rw [bytes]
    exact congrArg (EStateM.Result.ok · c) (Exec.decode_wordBytes Machine.returnToken)
  saved := by
    have inside := entered.inside
    have bytes := entered.read (i := 0) (n := 4) (by omega)
    rw [Exec.readMemory_run (by decide) (by change _ + 4 ≤ _; omega)]
    change EStateM.Result.ok (Exec.decode (c.memory.read (c.framePointer + 0) 4) .u32) c = _
    rw [bytes]
    exact congrArg (EStateM.Result.ok · c) (Exec.decode_wordBytes saved)
  apart := by
    have place (k : Nat) (p : Symbol) (found : params[k]? = some p) : t.placeOf c.framePointer p =
        (c.framePointer + (8 + t.argBytes (params.take k)),
          c.framePointer + (8 + t.argBytes (params.take k)) + (t.ty p).size) := by
      rw [SymbolTable.placeOf, offsets k p found]
      rfl
    have above (b : Nat × Nat) (inside : b ∈ params.map (t.placeOf c.framePointer)) :
        c.framePointer + 8 ≤ b.1 := by
      obtain ⟨p, member, rfl⟩ := List.mem_map.mp inside
      obtain ⟨k, found⟩ := List.mem_iff_getElem?.mp member
      rw [place k p found]
      omega
    refine .cons ?_ (.cons above ?_)
    · intro b inside
      rcases List.mem_cons.mp inside with rfl | later
      · exact Nat.le_refl _
      · have := above b later
        omega
    · rw [List.pairwise_map, List.pairwise_iff_getElem]
      intro i j hasFirst hasSecond before
      have former := List.getElem?_eq_getElem hasFirst
      have latter := List.getElem?_eq_getElem hasSecond
      rw [place i _ former, place j _ latter]
      have size := le_roundToSlot (t.ty params[i]).size
      have grows := t.argBytes_take_succ former
      have ascends := t.argBytes_take_le params (i := i + 1) before
      omega

namespace RunM

variable {W : Type} {m : Machine W} {args : List (Symbol × Value)}

theorem step_enter {sym : Symbol} {f : LoadedFunction} {i : Instr} {callers : List (Symbol × Nat)}
    (loaded : m.function? sym = some f) (first : f.code[0]? = some i) (enters : i.op = .enter)
    (run : Exec.enterFrame i.bytes m.cpu = .ok () c) :
    step ⟨sym, 0, callers⟩ m = .ok (some ⟨sym, 1, callers⟩) { m with cpu := c } := by
  have fetches : fetch ⟨sym, 0, callers⟩ m = .ok i m := by
    rw [fetch, bind_run (x := get) rfl, loaded, Option.bind_some, first]
    rfl
  have executes : Exec.execute m.layout i m.cpu = .ok () c := by
    rw [Exec.execute, enters]
    exact run
  rw [step, bind_run fetches]
  simp only [enters]
  rw [bind_run (x := get) rfl, bind_run (onCpu_run executes)]
  rfl

/-- Arguments with the types of the parameters they are for. -/
def typed (t : SymbolTable) (args : List (Symbol × Value)) : List (CType × Value) :=
  args.map fun a => (t.ty a.1, a.2)

theorem isInteger_typed (integers : ∀ a ∈ args, (t.ty a.1).isInteger = true) :
    ∀ a ∈ typed t args, a.1.isInteger = true := by
  intro b inside
  obtain ⟨a, member, rfl⟩ := List.mem_map.mp inside
  exact integers a member

theorem snd_typed_zip (t : SymbolTable) {args : List Value} (count : args.length = params.length) :
    (typed t (params.zip args)).map Prod.snd = args := by
  rw [typed, List.map_map]
  exact List.map_snd_zip (Nat.le_of_eq count)

theorem matches_typed_zip {args : List Value} (count : args.length = params.length)
    (integers : ∀ p ∈ params, (t.ty p).isInteger = true) :
    t.Matches params (typed t (params.zip args)) where
  integer := integers
  integral := isInteger_typed fun _ inside => integers _ (List.of_mem_zip inside).1
  slots := by
    have names : (params.zip args).map Prod.fst = params :=
      List.map_fst_zip (Nat.le_of_eq count.symm)
    conv => rhs; rw [← names]
    rw [typed, List.map_map, List.map_map]
    rfl

theorem length_typed (integers : ∀ a ∈ args, (t.ty a.1).isInteger = true) :
    (argumentBytes (typed t args)).length = t.argBytes (args.map Prod.fst) := by
  rw [length_argumentBytes (isInteger_typed integers), SymbolTable.argBytes, typed, List.map_map,
    List.map_map]
  rfl

theorem pushArgs_run (integers : ∀ a ∈ args, (t.ty a.1).isInteger = true) {top : Nat}
    {bytes : List Byte} (stacked : c.Stacked top bytes)
    (room : t.argBytes (args.map Prod.fst) ≤ c.stackPointer) :
    ∃ c', pushArgs t args c = .ok () c' ∧ c'.general .ebp = c.general .ebp ∧
      c'.stackPointer + t.argBytes (args.map Prod.fst) = c.stackPointer ∧
      c'.Stacked top (argumentBytes (typed t args) ++ bytes) := by
  induction args with
  | nil => exact ⟨c, rfl, rfl, rfl, stacked⟩
  | cons a rest ih =>
    have integer := integers a List.mem_cons_self
    rw [List.map_cons, SymbolTable.argBytes_cons] at room ⊢
    obtain ⟨c₁, pushes, base, lowered, stacked₁⟩ := ih
      (fun a later => integers a (List.mem_cons_of_mem _ later)) (by omega)
    have left : roundToSlot (t.ty a.1).size ≤ c₁.stackPointer := by omega
    have inside : c₁.stackPointer ≤ Memory.size := by
      have := stacked₁.pointer
      have := stacked₁.inside
      omega
    refine ⟨c₁.push (Exec.encode a.2 (t.ty a.1).valueClass.pushed), ?_, ?_, ?_, ?_⟩
    · exact (bind_run pushes).trans (Exec.pushArgument_run _ integer a.2 left inside)
    · rw [Cpu.general_push (by decide), base]
    · rw [Cpu.stackPointer_push, CType.length_argument integer]
      omega
    · rw [typed, List.map_cons, argumentBytes, List.flatMap_cons, List.append_assoc]
      exact stacked₁.push _ (by rw [CType.length_argument integer]; exact left)

/-- The bytes that a call from outside reserves for a struct result. -/
def outBytes (ret : CType) : Nat := if ret.isStruct then roundToSlot ret.size else 0

/-- The arguments that the parameters of a function stand for: those of the call, behind the
address for a struct result. -/
def received (ret : CType) (out : Nat) (args : List (CType × Value)) : List (CType × Value) :=
  if ret.isStruct then (.pointer, .ofNat out) :: args else args

theorem length_le_received (ret : CType) (out : Nat) (args : List (CType × Value)) :
    (argumentBytes args).length ≤ (argumentBytes (received ret out args)).length := by
  unfold received
  split
  · rw [argumentBytes, argumentBytes, List.flatMap_cons, List.length_append]
    omega
  · exact Nat.le_refl _

theorem prepareCall_run (ret : CType) (integers : ∀ a ∈ args, (t.ty a.1).isInteger = true) (c : Cpu)
    (room : outBytes ret + t.argBytes (args.map Prod.fst) + 8 ≤ Memory.size) :
    ∃ out c₁, prepareCall t ret args c =
        (Exec.pushWord Machine.returnToken >>= fun _ => pure out) c₁ ∧
      c₁.general .ebp = 0 ∧
      c₁.Stacked (Memory.size - outBytes ret)
        (argumentBytes (received ret out (typed t args))) := by
  have pointer : (Cpu.setGeneral { c with gp := Vector.replicate 8 0 } .esp
      (.ofNat 32 Memory.size)).stackPointer = Memory.size := by
    rw [Cpu.stackPointer, Cpu.general_setGeneral (by decide)]
    rfl
  have base : (Cpu.setGeneral { c with gp := Vector.replicate 8 0 } .esp
      (.ofNat 32 Memory.size)).general .ebp = 0 := by
    rw [Cpu.general_setGeneral_of_ne (by decide)]
    rfl
  rw [prepareCall, bind_run (x := modify _) rfl, bind_run (Exec.setGeneral_run _ _)]
  generalize Cpu.setGeneral { c with gp := Vector.replicate 8 0 } .esp (.ofNat 32 Memory.size) = c₀
    at pointer base ⊢
  unfold outBytes at room ⊢
  unfold received
  split at room
  case isFalse scalar =>
    have stacked := Cpu.stacked_nil (c := c₀) (by omega)
    obtain ⟨c₁, pushes, base₁, -, stacked₁⟩ := pushArgs_run integers stacked (by omega)
    rw [List.append_nil, pointer] at stacked₁
    simp only [if_neg scalar]
    exact ⟨0, c₁, bind_run pushes, base₁.trans base, stacked₁⟩
  case isTrue struct =>
    have lowers := Exec.lowerStack_run (c := c₀) (roundToSlot ret.size) (by omega)
    obtain ⟨c₁, set⟩ :
        ∃ c₁, c₁ = c₀.setGeneral .esp (.ofNat 32 (c₀.stackPointer - roundToSlot ret.size)) :=
      ⟨_, rfl⟩
    have pointer₁ : c₁.stackPointer = c₀.stackPointer - roundToSlot ret.size := by
      have size : Memory.size = 65536 := rfl
      rw [set, Cpu.stackPointer, Cpu.general_setGeneral (by decide), BitVec.toNat_ofNat]
      omega
    have base₁ : c₁.general .ebp = c₀.general .ebp := by
      rw [set, Cpu.general_setGeneral_of_ne (by decide)]
    rw [← set] at lowers
    have stacked := Cpu.stacked_nil (c := c₁) (by omega)
    obtain ⟨c₂, pushes, base₂, lowered, stacked₂⟩ := pushArgs_run integers stacked (by omega)
    rw [List.append_nil, pointer₁, pointer] at stacked₂
    have left : 4 ≤ c₂.stackPointer := by omega
    have address := Exec.pushArgument_run .pointer rfl
      (.ofNat (c₀.stackPointer - roundToSlot ret.size)) left (by omega)
    simp only [if_pos struct]
    refine ⟨c₀.stackPointer - roundToSlot ret.size, _, ?_, ?_, stacked₂.push _ left⟩
    · rw [bind_run lowers, bind_run pushes]
      exact bind_run address
    · rw [Cpu.general_push (by decide), base₂, base₁, base]

end RunM

theorem SelectionTable.push_entries : ∀ e ∈ push.entries, e.2 = .push := by decide +kernel

/-- An instruction that the selection of an argument of a type ends with. -/
def CType.Pushes (ty : CType) (i : Instr) : Prop :=
  ∃ (g g' : Generator) (id : NodeId) (before : List Instr), (g.pool.node id).ty = ty ∧
    g.code.Holds before ∧ Gen.pushArg Gen.select id g = .ok () g' ∧
    g'.code.toList.getLast? = some i

theorem CType.Pushes.shape {i : Instr} (pushes : ty.Pushes i) :
    i.op = .push ∧ i.ty = ty.valueClass ∧ i.bytes = roundToSlot ty.size := by
  obtain ⟨g, g', id, before, rfl, holds, run, last⟩ := pushes
  obtain ⟨n, g₁, reads, run⟩ := bind_eq_ok.mp run
  obtain ⟨rfl, rfl⟩ := Gen.node_eq_ok.mp reads
  obtain ⟨v, g₁, selects, run⟩ := bind_eq_ok.mp run
  obtain ⟨⟨new, -, emits⟩, -⟩ := ((Gen.quiet_select id _).ends g (.refl g)).ok selects
  obtain ⟨op, g₂, looks, run⟩ := bind_eq_ok.mp run
  have entries := @Gen.handles_entry (fun _ => True) true SelectionTable.push
  obtain ⟨quiet, entry⟩ := ((entries _).quiet.ends g₁ (.refl g₁)).ok looks
  obtain rfl : g₁ = g₂ := by
    cases found : SelectionTable.push.lookup (SelectionKey.pack .none v.format
        (g.pool.node id).ty.valueClass) with
    | ok op' =>
      rw [found] at looks
      exact (pure_eq_ok.mp looks).2
    | error e =>
      rw [found] at looks
      exact absurd looks throw_ne_ok
  have written := ((Gen.emit'_ends _ g₁).ok run).code (emits.code holds)
  rw [written.toList, List.getLast?_concat] at last
  obtain rfl := Option.some.inj last
  exact ⟨SelectionTable.push_entries _ entry, rfl, rfl⟩

/-- Compiled code that pushes the arguments of a call, the last one first, from a state on. What it
does between the pushes leaves the stack pointer and the arguments already pushed alone. -/
inductive Layout.PushesArgs (l : Layout) (c : Cpu) : List (CType × Value) → Cpu → Prop
  | start : PushesArgs l c [] c
  | goOn {args : List (CType × Value)} {c₁ c₂ : Cpu} (pushed : PushesArgs l c args c₁)
      (pointer : c₂.stackPointer = c₁.stackPointer)
      (kept : ∀ a, c₁.stackPointer ≤ a → a < c.stackPointer → c₂.memory.get a = c₁.memory.get a) :
      PushesArgs l c args c₂
  | push {args : List (CType × Value)} {c₁ c₂ : Cpu} {ty : CType} {i : Instr} {v : Value}
      (pushed : PushesArgs l c args c₁) (pushes : ty.Pushes i)
      (value : Exec.readOperand l i.src i.ty c₁ = .ok v c₁)
      (executes : Exec.execute l i c₁ = .ok () c₂) : PushesArgs l c ((ty, v) :: args) c₂

theorem CType.Pushes.execute {i : Instr} (pushes : ty.Pushes i) (integer : ty.isInteger = true)
    {v : Value} (value : Exec.readOperand l i.src i.ty c = .ok v c) :
    Exec.execute l i c = Exec.pushValue v ty.valueClass (roundToSlot ty.size) c := by
  obtain ⟨op, class_, bytes⟩ := pushes.shape
  obtain ⟨src, c₁, present, value⟩ := bind_eq_ok.mp value
  obtain rfl : c = c₁ := by
    cases source : i.src with
    | none =>
      rw [source] at present
      exact absurd present throw_ne_ok
    | some _ =>
      rw [source] at present
      exact (pure_eq_ok.mp present).2
  have scalar : i.ty ≠ .blk := by
    rw [class_]
    cases ty <;> first | decide | cases integer
  rw [Exec.execute, op]
  change Exec.push l i c = _
  rw [Exec.push, bind_run present, if_neg scalar, bind_run value, class_, bytes]

theorem Layout.PushesArgs.stacked {c' : Cpu} (pushed : l.PushesArgs c args c')
    (integers : ∀ a ∈ args, a.1.isInteger = true) (inside : c.stackPointer ≤ Memory.size) :
    c'.Stacked c.stackPointer (argumentBytes args) := by
  induction pushed with
  | start => exact Cpu.stacked_nil inside
  | goOn _ pointer kept ih => exact (ih integers).congr pointer kept
  | @push args c₁ c₂ ty i v _ pushes value executes ih =>
    have stacked := ih fun a later => integers a (List.mem_cons_of_mem _ later)
    have integer : ty.isInteger = true := integers _ List.mem_cons_self
    rw [pushes.execute integer value] at executes
    have room := Exec.le_stackPointer_of_pushValue executes
    have below : c₁.stackPointer ≤ Memory.size := by
      have := stacked.pointer
      omega
    rw [Exec.pushArgument_run _ integer v room below] at executes
    cases executes
    rw [argumentBytes, List.flatMap_cons]
    exact stacked.push _ (by rw [CType.length_argument integer]; exact room)

theorem RunM.callThrough_run {W : Type} {m : Machine W} {sym : Symbol} {control : Control}
    {j : Instr} {v : Value} (target : Exec.readOperand m.layout j.src .u32 m.cpu = .ok v m.cpu)
    (callee : m.callee? (v.toWord.setWidth 32).toNat = some sym) (compiled : m.host? sym = none)
    (pushes : Exec.pushWord Machine.returnToken m.cpu = .ok () c) :
    RunM.callThrough control j m =
      .ok ⟨sym, 0, (control.function, control.pc) :: control.callers⟩ { m with cpu := c } := by
  rw [callThrough, bind_run (x := get) rfl, bind_run (onCpu_run target)]
  simp only [callee, compiled]
  exact bind_run (onCpu_run pushes)

namespace LoadedFunction

def visible (f : LoadedFunction) : List Symbol :=
  if f.ret.isStruct then f.params.tail else f.params

/-- A function whose parameters are integers and have been bound, and whose code begins by entering
its frame. One that returns a struct takes the address for it first. -/
structure Bound (f : LoadedFunction) (entry : Instr) (g g' : Generator) : Prop where
  start : g.frame.nextParam = firstParamOffset
  bound : f.params.forM Gen.bindParam g = .ok () g'
  distinct : f.params.Nodup
  known : ∀ p ∈ f.params, p.index < g.symbols.size
  integers : ∀ p ∈ f.params, (g.symbols.ty p).isInteger = true
  hidden : f.ret.isStruct = true → f.params.head?.map g.symbols.ty = some .pointer
  first : f.code[0]? = some entry
  enters : entry.op = .enter

variable {f : LoadedFunction} {entry : Instr} {g g' : Generator} {W : Type} {m : Machine W}
  {sym : Symbol}

theorem Bound.enter (bound : f.Bound entry g g') (same : g.symbols.Matches f.params args)
    {top : Nat} (stacked : c.Stacked top (argumentBytes args))
    (room : entry.bytes + 8 ≤ c.stackPointer) :
    ∃ c₁ c₂, Exec.pushWord Machine.returnToken c = .ok () c₁ ∧
      Exec.enterFrame entry.bytes c₁ = .ok () c₂ ∧
      g'.symbols.Received c₂ f.params (args.map Prod.snd) (c.general .ebp) := by
  obtain ⟨c₁, c₂, pushes, enters, entered⟩ := stacked.enter room
  have types := (Gen.bindParams_other bound.bound).1
  have bytes (ps : List Symbol) : g'.symbols.argBytes ps = g.symbols.argBytes ps := by
    simp only [SymbolTable.argBytes, types]
  have fits : 8 + g.symbols.argBytes f.params < 0x80000000 := by
    have length := same.length
    have pointer := stacked.pointer
    have inside := stacked.inside
    have size : Memory.size = 65536 := rfl
    omega
  have same' := same.congr fun p _ => types p
  refine ⟨c₁, c₂, pushes, enters, entered.received same' fun k p found => ?_⟩
  rw [bytes]
  exact Gen.bindParams_offset bound.start fits bound.distinct bound.known bound.bound found

theorem mem_params {p : Symbol} (inside : p ∈ f.visible) : p ∈ f.params := by
  unfold visible at inside
  split at inside
  · exact List.mem_of_mem_tail inside
  · exact inside

theorem Bound.matches_outside (bound : f.Bound entry g g')
    (types : ∀ p ∈ f.params, t.ty p = g.symbols.ty p) {args : List Value}
    (count : args.length = f.visible.length) (out : Nat) :
    t.Matches f.params (RunM.received f.ret out (RunM.typed t (f.visible.zip args))) := by
  have integers (p : Symbol) (inside : p ∈ f.params) : (t.ty p).isInteger = true := by
    rw [types p inside]
    exact bound.integers p inside
  have hidden := bound.hidden
  have matched := RunM.matches_typed_zip count fun p inside => integers p (mem_params inside)
  unfold visible at matched ⊢
  unfold RunM.received
  split at matched
  case isFalse scalar =>
    simp only [if_neg scalar]
    exact matched
  case isTrue struct =>
    simp only [if_pos struct]
    obtain ⟨p, first, pointer⟩ := Option.map_eq_some_iff.mp (hidden struct)
    obtain ⟨rest, split⟩ := List.head?_eq_some_iff.mp first
    rw [← types p (by rw [split]; exact List.mem_cons_self)] at pointer
    rw [split] at integers ⊢
    rw [split, List.tail_cons] at matched
    refine ⟨integers, ?_, ?_⟩
    · exact List.forall_mem_cons.mpr ⟨rfl, matched.integral⟩
    · rw [List.tail_cons, List.map_cons, List.map_cons, matched.slots, pointer]

theorem snd_received {args : List Value} (count : args.length = f.visible.length) (out : Nat) :
    (RunM.received f.ret out (RunM.typed t (f.visible.zip args))).map Prod.snd =
      if f.ret.isStruct then .ofNat out :: args else args := by
  unfold RunM.received
  split
  · rw [List.map_cons, RunM.snd_typed_zip t count]
  · exact RunM.snd_typed_zip t count

/-- Parameters are received as they were sent, by a caller outside the program and by a compiled
one. -/
theorem Bound.parameters_received (bound : f.Bound entry g g') (loaded : m.function? sym = some f)
    (types : ∀ p ∈ f.params, m.layout.symbols.ty p = g.symbols.ty p) :
    (∀ args : List Value, args.length = f.visible.length →
      RunM.outBytes f.ret + g.symbols.argBytes f.params + 8 + entry.bytes ≤ Memory.size →
      ∃ out m₁ m₂, RunM.onCpu (RunM.prepareCall m.layout.symbols f.ret (f.visible.zip args)) m =
          .ok out m₁ ∧
        RunM.step ⟨sym, 0, []⟩ m₁ = .ok (some ⟨sym, 1, []⟩) m₂ ∧
        g'.symbols.Received m₂.cpu f.params
          (if f.ret.isStruct then .ofNat out :: args else args) 0) ∧
    ∀ (c : Cpu) (args : List (CType × Value)), c.stackPointer ≤ Memory.size →
      m.layout.PushesArgs c args m.cpu → g.symbols.Matches f.params args →
      (∀ (ty : CType) (j : Instr) (v : Value), ty.Pushes j → ty.isInteger = true →
        Exec.readOperand m.layout j.src j.ty m.cpu = .ok v m.cpu → j.bytes ≤ m.cpu.stackPointer →
        ∃ c', Exec.execute m.layout j m.cpu = .ok () c') ∧
      ∀ (control : Control) (j : Instr) (v : Value),
        Exec.readOperand m.layout j.src .u32 m.cpu = .ok v m.cpu →
        m.callee? (v.toWord.setWidth 32).toNat = some sym → m.host? sym = none →
        entry.bytes + 8 ≤ m.cpu.stackPointer →
        let callers := (control.function, control.pc) :: control.callers
        ∃ m₁ m₂, RunM.callThrough control j m = .ok ⟨sym, 0, callers⟩ m₁ ∧
          RunM.step ⟨sym, 0, callers⟩ m₁ = .ok (some ⟨sym, 1, callers⟩) m₂ ∧
          g'.symbols.Received m₂.cpu f.params (args.map Prod.snd) (m.cpu.general .ebp) := by
  constructor
  · intro args count room
    have bytes : m.layout.symbols.argBytes f.params = g.symbols.argBytes f.params := by
      rw [SymbolTable.argBytes, SymbolTable.argBytes, List.map_congr_left fun p inside => by
        rw [types p inside]]
    have integers (a : Symbol × Value) (inside : a ∈ f.visible.zip args) :
        (m.layout.symbols.ty a.1).isInteger = true := by
      have member := mem_params (List.of_mem_zip inside).1
      rw [types _ member]
      exact bound.integers _ member
    have fewer : m.layout.symbols.argBytes ((f.visible.zip args).map Prod.fst) ≤
        m.layout.symbols.argBytes f.params := by
      rw [← RunM.length_typed integers, ← (bound.matches_outside types count 0).length]
      exact RunM.length_le_received f.ret 0 _
    obtain ⟨out, c, prepares, base, stacked⟩ :=
      RunM.prepareCall_run f.ret integers m.cpu (by omega)
    have same := bound.matches_outside types count out
    have pointer := stacked.pointer
    rw [same.length] at pointer
    obtain ⟨c₁, c₂, pushes, enters, received⟩ := bound.enter
      (same.congr fun p inside => (types p inside).symm) stacked (by omega)
    rw [snd_received count, base] at received
    refine ⟨out, { m with cpu := c₁ }, { m with cpu := c₂ }, ?_, ?_, received⟩
    · exact RunM.onCpu_run (prepares.trans (bind_run pushes))
    · exact RunM.step_enter (m := { m with cpu := c₁ }) loaded bound.first bound.enters enters
  · intro c args inside pushed same
    have stacked := pushed.stacked same.integral inside
    constructor
    · intro ty j v pushes integer value room
      have below : m.cpu.stackPointer ≤ Memory.size := by
        have := stacked.pointer
        omega
      rw [pushes.shape.2.2] at room
      exact ⟨_, (pushes.execute integer value).trans (Exec.pushArgument_run _ integer v room below)⟩
    · intro control j v target callee compiled room
      obtain ⟨c₁, c₂, pushes, enters, received⟩ := bound.enter same stacked room
      refine ⟨{ m with cpu := c₁ }, { m with cpu := c₂ }, ?_, ?_, received⟩
      · exact RunM.callThrough_run target callee compiled pushes
      · exact RunM.step_enter (m := { m with cpu := c₁ }) loaded bound.first bound.enters enters

end LoadedFunction

/-- A function that returns a struct and takes a narrow and a wide argument, and constants. -/
def SymbolTable.mixed : SymbolTable where
  entries := #[⟨"f", .function, .struct 12, none⟩, ⟨"out", .param, .pointer, none⟩,
    ⟨"a", .param, .char, none⟩, ⟨"b", .param, .llong, none⟩, ⟨"64", .intConst 64, .pointer, none⟩,
    ⟨"200", .intConst 200, .uchar, none⟩, ⟨"-5", .intConst (-5), .llong, none⟩]

def LoadedFunction.mixed : LoadedFunction where
  code := #[{ op := .enter, ty := .void, bytes := 16 }]
  labels := []
  ret := .struct 12
  params := [⟨1⟩, ⟨2⟩, ⟨3⟩]

def SymbolTable.pushOf (t : SymbolTable) (k : Symbol) : Instr :=
  { op := .push, ty := (t.ty k).valueClass, src := some (.imm k),
    bytes := roundToSlot (t.ty k).size }

/-- A machine whose stack holds the arguments for the function. -/
def Machine.mixed : Machine Unit :=
  let c := (((Cpu.init.setGeneral .esp 0x1000).push (Exec.encode (.ofInt (-5)) .i64)).push
    (Exec.encode (.ofInt 200) .u32)).push (Exec.encode (.ofInt 64) .u32)
  { Machine.init SymbolTable.mixed () with cpu := c, functions := [(⟨0⟩, .mixed)] }

def Generator.beforeConst (k : Symbol) : Generator :=
  let g := Generator.init {} .mixed
  { g with pool := (g.pool.push ⟨.const, g.symbols.ty k, some k, none, none⟩ 0).2 }

theorem SymbolTable.pushes_mixed {k : Symbol} (constant : k ∈ [(⟨4⟩ : Symbol), ⟨5⟩, ⟨6⟩]) :
    (mixed.ty k).Pushes (mixed.pushOf k) := by
  have pushes : ∀ k ∈ [(⟨4⟩ : Symbol), ⟨5⟩, ⟨6⟩],
      (Gen.pushArg Gen.select ⟨0⟩ >>= fun _ => (·.code.toList) <$> get).run' (.beforeConst k) =
        some [mixed.pushOf k] := by
    decide +kernel
  obtain ⟨g', run⟩ := exists_of_run' (pushes k constant)
  obtain ⟨_, g₁, run, lists⟩ := bind_eq_ok.mp run
  obtain ⟨g₂, reads, lists⟩ := map_eq_ok.mp lists
  obtain ⟨rfl, -⟩ := get_eq_ok.mp reads
  refine ⟨.beforeConst k, g₁, ⟨0⟩, [], rfl, InstrList.holds_empty, run, ?_⟩
  rw [lists]
  rfl

theorem Machine.mixed_pushed : Machine.mixed.layout.PushesArgs (Cpu.init.setGeneral .esp 0x1000)
    [(.pointer, .ofInt 64), (.uchar, .ofInt 200), (.llong, .ofInt (-5))] Machine.mixed.cpu := by
  have wide : CType.llong.Pushes _ := SymbolTable.pushes_mixed (k := ⟨6⟩) (by decide)
  have narrow : CType.uchar.Pushes _ := SymbolTable.pushes_mixed (k := ⟨5⟩) (by decide)
  have address : CType.pointer.Pushes _ := SymbolTable.pushes_mixed (k := ⟨4⟩) (by decide)
  exact .push (.push (.push .start wide rfl rfl) narrow rfl rfl) address rfl rfl

theorem LoadedFunction.mixed_bound : ∃ g', LoadedFunction.mixed.Bound
    { op := .enter, ty := .void, bytes := 16 } (.init {} .mixed) g' :=
  ⟨_, rfl, rfl, by decide, by decide, by decide, fun _ => rfl, rfl, rfl⟩

theorem LoadedFunction.mixed_received : ∃ g', LoadedFunction.mixed.Bound
      { op := .enter, ty := .void, bytes := 16 } (.init {} .mixed) g' ∧
    (∃ out m₁ m₂, RunM.onCpu (RunM.prepareCall SymbolTable.mixed (.struct 12)
          [(⟨2⟩, .ofInt (-3)), (⟨3⟩, .ofInt 7)]) Machine.mixed = .ok out m₁ ∧
        RunM.step ⟨⟨0⟩, 0, []⟩ m₁ = .ok (some ⟨⟨0⟩, 1, []⟩) m₂ ∧
        g'.symbols.Received m₂.cpu LoadedFunction.mixed.params
          [.ofNat out, .ofInt (-3), .ofInt 7] 0) ∧
    ∃ m₁ m₂, RunM.callThrough ⟨⟨9⟩, 5, []⟩
          { op := .call, ty := .u32, src := some (.mem (.symbol ⟨0⟩)) } Machine.mixed =
        .ok ⟨⟨0⟩, 0, [(⟨9⟩, 5)]⟩ m₁ ∧
      RunM.step ⟨⟨0⟩, 0, [(⟨9⟩, 5)]⟩ m₁ = .ok (some ⟨⟨0⟩, 1, [(⟨9⟩, 5)]⟩) m₂ ∧
      g'.symbols.Received m₂.cpu LoadedFunction.mixed.params
        [.ofInt 64, .ofInt 200, .ofInt (-5)] 0 := by
  obtain ⟨g', bound⟩ := mixed_bound
  have loaded : Machine.mixed.function? ⟨0⟩ = some .mixed := rfl
  have ⟨outside, compiled⟩ := bound.parameters_received loaded fun _ _ => rfl
  refine ⟨g', bound, outside [.ofInt (-3), .ofInt 7] rfl (by decide), ?_⟩
  have ⟨_, calls⟩ := compiled _ _ (by decide) Machine.mixed_pushed
    ⟨by decide, by decide, by decide⟩
  exact calls ⟨⟨9⟩, 5, []⟩ { op := .call, ty := .u32, src := some (.mem (.symbol ⟨0⟩)) }
    (.ofNat Layout.functionBase) rfl (by decide) rfl (by decide)

end CBackend
