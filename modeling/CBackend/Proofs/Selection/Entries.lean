import CBackend.Selection.Table

/-!
What the tables have entries for. The formats a table accepts are read off its entries, so an
operand that is accepted always has an opcode, and what can be computed at all can be computed from
registers.
-/

namespace CBackend

namespace Format

theorem singles_subset (a : Format) : a.singles ⊆ any.singles := by
  intro f inside
  have all : ∀ f ∈ [reg, imm, mem, ind], any.contains f = true := by decide
  obtain ⟨known, -⟩ := List.mem_filter.mp inside
  exact List.mem_filter.mpr ⟨known, all f known⟩

theorem contains_eq_getLsbD {f : Format} (single : f ∈ any.singles) :
    ∃ i, ∀ a : Format, a.contains f = a.bits.getLsbD i := by
  have each : ∀ f ∈ any.singles, ∃ i < 4, ∀ a : BitVec 4, contains ⟨a⟩ f = a.getLsbD i := by decide
  obtain ⟨i, -, bit⟩ := each f single
  exact ⟨i, fun a => bit a.bits⟩

theorem contains_union {a b f : Format} (single : f ∈ any.singles) :
    (a.union b).contains f = (a.contains f || b.contains f) := by
  obtain ⟨i, bit⟩ := contains_eq_getLsbD single
  rw [bit, bit, bit]
  exact BitVec.getLsbD_or

theorem contains_inter {a b f : Format} (single : f ∈ any.singles) :
    (a.inter b).contains f = (a.contains f && b.contains f) := by
  obtain ⟨i, bit⟩ := contains_eq_getLsbD single
  rw [bit, bit, bit]
  exact BitVec.getLsbD_and

theorem isEmpty_eq_false {a f : Format} (inside : a.contains f = true) : a.isEmpty = false := by
  cases empty : a.isEmpty with
  | false => rfl
  | true =>
    have zero : a.bits = 0 := eq_of_beq empty
    simp only [contains, zero, Bool.and_eq_true, bne_iff_ne, beq_iff_eq] at inside
    exact absurd (inside.2.symm.trans BitVec.zero_and) inside.1

theorem code_injective {a b : Format} (same : a.code = b.code) : a = b :=
  congrArg mk (BitVec.eq_of_toNat_eq same)

theorem ofNat_code (a : Format) : ofNat a.code = a := by
  simp [ofNat, code]

theorem contains_single {s f : Format} (simple : s = none ∨ s ∈ any.singles)
    (single : f ∈ any.singles) : s.contains f = decide (s = f) := by
  have pairs : ∀ s ∈ none :: any.singles, ∀ f ∈ any.singles, s.contains f = decide (s = f) := by
    decide
  exact pairs s (List.mem_cons.mpr simple) f single

end Format

theorem Operand.format_mem_singles (op : Operand) : op.format ∈ Format.any.singles := by
  have reg : Format.reg ∈ Format.any.singles := by decide
  have imm : Format.imm ∈ Format.any.singles := by decide
  have mem : Format.mem ∈ Format.any.singles := by decide
  have ind : Format.ind ∈ Format.any.singles := by decide
  cases op <;> assumption

theorem Operand.format_eq {op : Operand} {f : Format} (single : f ∈ Format.any.singles)
    (fits : f.contains op.format = true) : op.format = f := by
  rw [Format.contains_single (.inr single) op.format_mem_singles] at fits
  exact (of_decide_eq_true fits).symm

namespace SelectionKey

variable {d d' s s' : Format} {c c' k k' : ValueClass}

theorem pack_inj : pack d s c = pack d' s' c' ↔ d = d' ∧ s = s' ∧ c = c' := by
  constructor
  · intro same
    have dst := congrArg dst same
    have src := congrArg src same
    have ty := congrArg ty same
    rw [dst_pack, dst_pack] at dst
    rw [src_pack, src_pack] at src
    rw [ty_pack, ty_pack] at ty
    exact ⟨Format.code_injective dst, Format.code_injective src, ValueClass.code_injective ty⟩
  · rintro ⟨rfl, rfl, rfl⟩
    rfl

theorem fields_packConversion : dst (packConversion d c s k) = d.code ∧
    src (packConversion d c s k) = s.code ∧ ty (packConversion d c s k) = c.code ∧
    srcTy (packConversion d c s k) = k.code := by
  have := code_lt_sixteen d
  have := code_lt_sixteen s
  have := c.code_lt
  have := k.code_lt
  simp only [packConversion, pack, dst, src, ty, srcTy]
  omega

theorem packConversion_inj :
    packConversion d c s k = packConversion d' c' s' k' ↔ d = d' ∧ s = s' ∧ c = c' ∧ k = k' := by
  constructor
  · intro same
    obtain ⟨dst, src, ty, srcTy⟩ := @fields_packConversion d s c k
    rw [same] at dst src ty srcTy
    obtain ⟨dst', src', ty', srcTy'⟩ := @fields_packConversion d' s' c' k'
    exact ⟨Format.code_injective (dst.symm.trans dst'), Format.code_injective (src.symm.trans src'),
      ValueClass.code_injective (ty.symm.trans ty'),
      ValueClass.code_injective (srcTy.symm.trans srcTy')⟩
  · rintro ⟨rfl, rfl, rfl, rfl⟩
    rfl

end SelectionKey

namespace SelectionTable

variable {t : SelectionTable} {dst src f : Format} {c k : ValueClass}

def Ruled (t : SelectionTable) : Prop := ∃ name rules, t = ofRules name rules

theorem simple_of_mem_formats {r : Format} (inside : f ∈ formats r) :
    f = .none ∨ f ∈ Format.any.singles := by
  unfold formats at inside
  split at inside
  · exact .inl (List.mem_singleton.mp inside)
  · exact .inr (r.singles_subset inside)

theorem contains_foldl {field : Nat → Nat} (entries : List (Nat × Opcode)) (start : Format)
    (single : f ∈ Format.any.singles) :
    (entries.foldl (fun acc e => acc.union (.ofNat (field e.1))) start).contains f =
      (start.contains f || entries.any fun e => (Format.ofNat (field e.1)).contains f) := by
  induction entries generalizing start with
  | nil => simp
  | cons e entries ih =>
    rw [List.foldl_cons, ih, Format.contains_union single, List.any_cons, Bool.or_assoc]

theorem contains_collect {test : Nat → Bool} {field : Nat → Nat} {key : Nat}
    (single : f ∈ Format.any.singles)
    (agree : ∀ e ∈ t.entries, (test e.1 && (Format.ofNat (field e.1)).contains f) = (key == e.1)) :
    (t.collect test field).contains f = (t.find? key).isSome := by
  have empty : ∀ f ∈ Format.any.singles, Format.none.contains f = false := by decide
  rw [collect, contains_foldl _ _ single, List.any_filter, empty f single, Bool.false_or, find?]
  generalize t.entries = entries at agree ⊢
  induction entries with
  | nil => rfl
  | cons e entries ih =>
    rw [List.any_cons, agree e List.mem_cons_self,
      ih fun e later => agree e (List.mem_cons_of_mem _ later), List.lookup_cons]
    cases key == e.1 with
    | true => rfl
    | false => rfl

theorem Ruled.entry (ruled : t.Ruled) {e : Nat × Opcode} (inside : e ∈ t.entries) :
    ∃ dst src c, (dst = .none ∨ dst ∈ Format.any.singles) ∧
      (src = .none ∨ src ∈ Format.any.singles) ∧ e.1 = SelectionKey.pack dst src c := by
  obtain ⟨name, rules, rfl⟩ := ruled
  obtain ⟨r, -, inside⟩ := List.mem_flatMap.mp inside
  obtain ⟨c, -, inside⟩ := List.mem_flatMap.mp inside
  obtain ⟨dst, first, inside⟩ := List.mem_flatMap.mp inside
  obtain ⟨src, second, rfl⟩ := List.mem_map.mp inside
  exact ⟨dst, src, c, simple_of_mem_formats first, simple_of_mem_formats second, rfl⟩

theorem Ruled.contains_srcFormats (ruled : t.Ruled) (single : f ∈ Format.any.singles) :
    (t.srcFormats dst c).contains f = (t.find? (SelectionKey.pack dst f c)).isSome := by
  apply contains_collect single
  intro e inside
  obtain ⟨dst', src', c', -, simple, key⟩ := ruled.entry inside
  rw [key, SelectionKey.dst_pack, SelectionKey.src_pack, SelectionKey.ty_pack, Format.ofNat_code,
    Format.contains_single simple single, Bool.eq_iff_iff]
  simp only [Bool.and_eq_true, beq_iff_eq, decide_eq_true_eq, SelectionKey.pack_inj]
  constructor
  · rintro ⟨⟨same, class'⟩, rfl⟩
    exact ⟨(Format.code_injective same).symm, rfl, (ValueClass.code_injective class').symm⟩
  · rintro ⟨rfl, rfl, rfl⟩
    exact ⟨⟨rfl, rfl⟩, rfl⟩

theorem Ruled.contains_dstFormats (ruled : t.Ruled) (single : f ∈ Format.any.singles) :
    (t.dstFormats src c).contains f = (t.find? (SelectionKey.pack f src c)).isSome := by
  apply contains_collect single
  intro e inside
  obtain ⟨dst', src', c', simple, -, key⟩ := ruled.entry inside
  rw [key, SelectionKey.dst_pack, SelectionKey.src_pack, SelectionKey.ty_pack, Format.ofNat_code,
    Format.contains_single simple single, Bool.eq_iff_iff]
  simp only [Bool.and_eq_true, beq_iff_eq, decide_eq_true_eq, SelectionKey.pack_inj]
  constructor
  · rintro ⟨⟨same, class'⟩, rfl⟩
    exact ⟨rfl, (Format.code_injective same).symm, (ValueClass.code_injective class').symm⟩
  · rintro ⟨rfl, rfl, rfl⟩
    exact ⟨⟨rfl, rfl⟩, rfl⟩

theorem contains_conversionFormats (single : f ∈ Format.any.singles) :
    (convert.conversionFormats c k).contains f =
      (convert.find? (SelectionKey.packConversion .reg c f k)).isSome := by
  apply contains_collect single
  intro e inside
  obtain ⟨r, -, inside⟩ := List.mem_flatMap.mp inside
  obtain ⟨c', -, inside⟩ := List.mem_flatMap.mp inside
  obtain ⟨k', -, inside⟩ := List.mem_flatMap.mp inside
  obtain ⟨src, simple, rfl⟩ := List.mem_map.mp inside
  obtain ⟨dst', src', ty', srcTy'⟩ := @SelectionKey.fields_packConversion .reg src c' k'
  rw [dst', src', ty', srcTy', Format.ofNat_code,
    Format.contains_single (.inr (r.src.singles_subset simple)) single, Bool.eq_iff_iff]
  simp only [Bool.and_eq_true, beq_iff_eq, decide_eq_true_eq, SelectionKey.packConversion_inj,
    true_and]
  constructor
  · rintro ⟨⟨class', from'⟩, rfl⟩
    exact ⟨rfl, (ValueClass.code_injective class').symm, (ValueClass.code_injective from').symm⟩
  · rintro ⟨rfl, rfl, rfl⟩
    exact ⟨⟨rfl, rfl⟩, rfl⟩

theorem ruled_move : move.Ruled := ⟨_, _, rfl⟩

theorem ruled_cmp : cmp.Ruled := ⟨_, _, rfl⟩

theorem ruled_push : push.Ruled := ⟨_, _, rfl⟩

end SelectionTable

namespace ValueClass

def isScalar : ValueClass → Bool
  | blk | void => false
  | _ => true

/-- Integers that have an instruction for becoming floating, and for coming from floating. -/
def meetsFloat : ValueClass → Bool
  | i32 | i64 | u64 => true
  | _ => false

def convertsFrom (c k : ValueClass) : Bool :=
  if c.isFloat then if k.isFloat then decide (c ≠ k) else k.meetsFloat
  else if k.isFloat then c.meetsFloat else c.isScalar && k.isScalar && decide (k.width < c.width)

variable {c k : ValueClass}

theorem convertsFrom_float (float : c.isFloat = true) (float' : k.isFloat = true)
    (differs : c ≠ k) : c.convertsFrom k = true := by
  simp [convertsFrom, float, float', differs]

theorem isFloat_of_meetsFloat (meets : c.meetsFloat = true) : c.isFloat = false := by
  cases c <;> first | rfl | cases meets

theorem convertsFrom_integer (float : c.isFloat = true) (meets : k.meetsFloat = true) :
    c.convertsFrom k = true := by
  simp [convertsFrom, float, isFloat_of_meetsFloat meets, meets]

theorem integer_convertsFrom (float : k.isFloat = true) (meets : c.meetsFloat = true) :
    c.convertsFrom k = true := by
  simp [convertsFrom, float, isFloat_of_meetsFloat meets, meets]

end ValueClass

def Op.computesIn (op : Op) (c : ValueClass) : Bool :=
  match op with
  | .add | .sub | .mul | .div | .neg => c.isScalar
  | _ => c.isScalar && !c.isFloat

theorem Op.isScalar_of_computesIn {op : Op} {c : ValueClass} (computes : op.computesIn c = true) :
    c.isScalar = true := by
  unfold computesIn at computes
  split at computes
  all_goals first | exact computes | exact (Bool.and_eq_true_iff.mp computes).1

namespace SelectionTable

open SelectionKey

variable {c k : ValueClass} {f : Format} {op : Op}

theorem scalar_entries : ∀ c ∈ ValueClass.all, c.isScalar = true →
    (∀ f ∈ Format.any.singles, (f = .mem → c = .u32) →
      (move.find? (pack .reg f c)).isSome = true) ∧
    (move.find? (pack .ind .reg c)).isSome = true ∧
    (push.find? (pack .none .reg c)).isSome = true ∧
    (∀ f ∈ Format.any.singles, (f = .reg ∨ f = .ind ∨ ((cmp.find? (pack .reg f c)).isSome ||
      (cmp.find? (pack .ind f c)).isSome) = true) → (cmp.find? (pack .reg f c)).isSome = true) ∧
    (∀ t ∈ [add, sub, mul, div], (t.find? (pack .reg .reg c)).isSome = true) ∧
    (neg.find? (pack .reg .none c)).isSome = true ∧
    (c.isFloat = false → (compl.find? (pack .reg .none c)).isSome = true ∧
      ∀ t ∈ [mod, and, or, xor, shl, shr], (t.find? (pack .reg .reg c)).isSome = true) := by
  decide +kernel

theorem find?_move (scalar : c.isScalar = true) (single : f ∈ Format.any.singles)
    (address : f = .mem → c = .u32) : (move.find? (pack .reg f c)).isSome = true := by
  obtain ⟨moved, -⟩ := scalar_entries c c.mem_all scalar
  exact moved f single address

theorem find?_store (scalar : c.isScalar = true) :
    (move.find? (pack .ind .reg c)).isSome = true := by
  obtain ⟨-, stored, -⟩ := scalar_entries c c.mem_all scalar
  exact stored

theorem find?_push (scalar : c.isScalar = true) :
    (push.find? (pack .none .reg c)).isSome = true := by
  obtain ⟨-, -, pushed, -⟩ := scalar_entries c c.mem_all scalar
  exact pushed

theorem find?_call (single : f ∈ Format.any.singles) :
    (call.find? (pack .none f .u32)).isSome = true := by
  have all : ∀ f ∈ Format.any.singles, (call.find? (pack .none f .u32)).isSome = true := by decide
  exact all f single

theorem find?_cmp (scalar : c.isScalar = true) (single : f ∈ Format.any.singles)
    (known : f = .reg ∨ f = .ind ∨ ((cmp.find? (pack .reg f c)).isSome ||
      (cmp.find? (pack .ind f c)).isSome) = true) : (cmp.find? (pack .reg f c)).isSome = true := by
  obtain ⟨-, -, -, compared, -⟩ := scalar_entries c c.mem_all scalar
  exact compared f single known

theorem forOp_binary (binary : op.isBinary = true) (computes : op.computesIn c = true) :
    ∃ t, forOp op = .ok t ∧ t.Ruled ∧ (t.find? (pack .reg .reg c)).isSome = true := by
  obtain ⟨-, -, -, -, scalars, -, integers⟩ :=
    scalar_entries c c.mem_all (op.isScalar_of_computesIn computes)
  have integer (plain : (c.isScalar && !c.isFloat) = true) : c.isFloat = false := by
    simpa using (Bool.and_eq_true_iff.mp plain).2
  cases op with
  | add => exact ⟨_, rfl, ⟨_, _, rfl⟩, scalars add (by simp)⟩
  | sub => exact ⟨_, rfl, ⟨_, _, rfl⟩, scalars sub (by simp)⟩
  | mul => exact ⟨_, rfl, ⟨_, _, rfl⟩, scalars mul (by simp)⟩
  | div => exact ⟨_, rfl, ⟨_, _, rfl⟩, scalars div (by simp)⟩
  | mod => exact ⟨_, rfl, ⟨_, _, rfl⟩, (integers (integer computes)).2 mod (by simp)⟩
  | and => exact ⟨_, rfl, ⟨_, _, rfl⟩, (integers (integer computes)).2 and (by simp)⟩
  | or => exact ⟨_, rfl, ⟨_, _, rfl⟩, (integers (integer computes)).2 or (by simp)⟩
  | xor => exact ⟨_, rfl, ⟨_, _, rfl⟩, (integers (integer computes)).2 xor (by simp)⟩
  | shl => exact ⟨_, rfl, ⟨_, _, rfl⟩, (integers (integer computes)).2 shl (by simp)⟩
  | shr => exact ⟨_, rfl, ⟨_, _, rfl⟩, (integers (integer computes)).2 shr (by simp)⟩
  | _ => cases binary

theorem forOp_unary (unary : op = .neg ∨ op = .compl) (computes : op.computesIn c = true) :
    ∃ t, forOp op = .ok t ∧ (t.find? (pack .reg .none c)).isSome = true := by
  obtain ⟨-, -, -, -, -, negated, integers⟩ :=
    scalar_entries c c.mem_all (op.isScalar_of_computesIn computes)
  rcases unary with rfl | rfl
  · exact ⟨_, rfl, negated⟩
  · have integer : c.isFloat = false := by
      simpa using (Bool.and_eq_true_iff.mp computes).2
    exact ⟨_, rfl, (integers integer).1⟩

theorem find?_convert (converts : c.convertsFrom k = true) :
    (convert.find? (packConversion .reg c .reg k)).isSome = true ∨
      (convert.find? (packConversion .reg c .ind k)).isSome = true := by
  have all : ∀ c ∈ ValueClass.all, ∀ k ∈ ValueClass.all, c.convertsFrom k = true →
      (convert.find? (packConversion .reg c .reg k)).isSome = true ∨
        (convert.find? (packConversion .reg c .ind k)).isSome = true := by decide +kernel
  exact all c c.mem_all k k.mem_all converts

end SelectionTable

end CBackend
