import CBackend.Proofs.Selection.Stock

/-!
Selection finds an entry for everything it looks up. Operands are asked for in the formats that a
table accepts, and a table that accepts anything for a class accepts registers, so an operand of a
type with registers can always be brought into one of the formats.
-/

namespace CBackend

/-- A consumer that takes the formats can be given a value of the type. -/
structure Format.Meets (mask : Format) (ty : CType) (address : Bool) : Prop where
  scalar : ty.valueClass.isScalar = true
  takes : mask.contains .reg = true ∨ mask.contains .ind = true
  address : address = true → mask.contains .mem = true ∨ ty.valueClass = .u32

theorem CType.Loads.meets {ty : CType} {b : Bool} (loads : ty.Loads b) {mask : Format}
    (takes : mask.contains .reg = true ∨ mask.contains .ind = true) : mask.Meets ty b :=
  ⟨loads.1, takes, fun address => .inr (loads.2 address)⟩

namespace Gen

open Generator SelectionTable

variable {α β : Type} {keys : List ValueKey} {numbers : Array (Option NodeId)}
  {waiting : List (NodeId × Operand)} {g : Generator} {id : NodeId} {key : ValueKey} {op : Operand}
  {mask : Format} {ty : CType} {b : Bool}

theorem covers_coerce (found : keys[id.index]? = some key) (meets : mask.Meets key.ty b)
    (address : op.format = .mem → b = true) :
    Covers keys numbers waiting (coerce id op mask) fun op' =>
      mask.contains op'.format = true ∧ (op'.format = .mem → b = true) := by
  unfold coerce
  split
  · rename_i fits
    exact .pure ⟨fits, address⟩
  rename_i refused
  have pointer (unloaded : op.format = .mem) : key.ty.valueClass = .u32 := by
    rcases meets.address (address unloaded) with taken | pointer
    · exact absurd (unloaded ▸ taken) refused
    · exact pointer
  split
  · rename_i register
    refine (covers_loadRegisters found meets.scalar pointer).imp fun op' reg => ?_
    rw [reg]
    exact ⟨register, fun same => absurd same (by decide)⟩
  rename_i noRegister
  split
  · rename_i memory
    refine (covers_toMemory found meets.scalar pointer).imp fun op' ind => ?_
    rw [ind]
    exact ⟨memory, fun same => absurd same (by decide)⟩
  · rename_i noMemory
    exact absurd meets.takes (not_or.mpr ⟨noRegister, noMemory⟩)

theorem holdValue_stocked (start : g.Stocked keys numbers waiting)
    (found : keys[id.index]? = some key) (scalar : key.ty.valueClass.isScalar = true) :
    Ends (holdValue id op) g (fun _ g' => g'.Stocked keys numbers (waiting ++ [(id, op)]))
      fun e _ => e.isMiss = false := by
  unfold holdValue
  refine ((covers_hold op).ends g start).bind ?_
  rintro _ g' ⟨start, -⟩
  refine ⟨start.known, start.numbers, start.placed, ?_, fun w inside => ?_⟩
  · exact List.rel_append start.held (.cons (.inl rfl) .nil)
  · rcases List.mem_append.mp inside with old | new
    · exact start.scalar w old
    · cases List.mem_singleton.mp new
      exact ⟨key, found, scalar⟩

theorem takeHeld_stocked (start : g.Stocked keys numbers (waiting ++ [(id, op)]))
    (takes : op.format = .reg → mask.contains .reg = true ∨ mask.contains .ind = true) :
    Ends (takeHeld mask) g (fun op' g' => g'.Stocked keys numbers waiting ∧
        (op' = op ∨ op.format = .reg ∧ mask.contains op'.format = true))
      fun e _ => e.isMiss = false := by
  have reversed := List.forall₂_reverse_iff.mpr start.held
  rw [List.reverse_append, List.reverse_singleton, List.singleton_append,
    List.forall₂_cons_left_iff] at reversed
  obtain ⟨h, rest, continues, others, held⟩ := reversed
  rw [List.reverse_eq_iff, List.reverse_cons] at held
  have popped : Stocked keys numbers waiting { g with held := g.held.dropLast } := by
    refine ⟨start.known, start.numbers, start.placed, ?_, fun w inside => ?_⟩
    · change List.Forall₂ _ waiting g.held.dropLast
      rw [held, List.dropLast_concat, ← List.forall₂_reverse_iff, List.reverse_reverse]
      exact others
    · exact start.scalar w (List.mem_append_left _ inside)
  unfold takeHeld
  refine .after_ok (x := get) rfl ?_
  rw [held, List.getLast?_concat]
  refine .after_ok (x := modify fun g : Generator => { g with held := g.held.dropLast }) rfl ?_
  rcases continues with rfl | ⟨reg, a, rfl⟩
  · exact ⟨popped, .inl rfl⟩
  · obtain ⟨key, found, scalar⟩ := start.scalar (id, op) (List.mem_append_right _ (.head _))
    have meets : mask.Meets key.ty false := ⟨scalar, takes reg, fun no => absurd no (by decide)⟩
    have back : Covers keys numbers waiting (do
        let op ← coerce id (.ind a) mask
        hold op
        return op) fun op' => mask.contains op'.format = true := by
      have loaded : (Operand.ind a).format ≠ .mem := show Format.ind ≠ .mem by decide
      refine (covers_coerce found meets fun same => absurd same loaded).bind ?_
      rintro op' ⟨fits, -⟩
      exact (covers_hold op').bind fun _ _ => .pure fits
    exact (back.ends _ popped).imp fun op' g' ⟨start, fits⟩ => ⟨start, .inr ⟨reg, fits⟩⟩

theorem covers_firstKid {k : NodeId} (found : keys[id.index]? = some key)
    (left : key.left = some k) : Covers keys numbers waiting (firstKid id) fun k' => k' = k := by
  unfold firstKid
  refine (covers_known found).bind ?_
  rintro v ⟨same, -⟩
  rw [same, left]
  exact .pure rfl

theorem covers_bothKids {l r : NodeId} (found : keys[id.index]? = some key)
    (left : key.left = some l) (right : key.right = some r) :
    Covers keys numbers waiting (bothKids id) fun kids => kids = (l, r) := by
  unfold bothKids
  refine (covers_known found).bind ?_
  rintro v ⟨same, -⟩
  dsimp only
  rw [same, left, right]
  exact .pure rfl

theorem covers_leafSymbol (id : NodeId) :
    Covers keys numbers waiting (leafSymbol id) fun _ => True := by
  unfold leafSymbol
  refine (covers_node id).bind fun v _ => ?_
  split
  · exact .pure trivial
  · exact Covers.throw rfl

theorem covers_addressOf (sym : Symbol) :
    Covers keys numbers waiting (addressOf sym) fun _ => True := by
  unfold addressOf
  refine Keeps.get.bind fun g _ => ?_
  dsimp only
  split
  · split
    · exact .pure trivial
    · exact Covers.throw rfl
  · exact .pure trivial

theorem covers_derefAddress (op : Operand) :
    Covers keys numbers waiting (derefAddress op) fun _ => True := by
  unfold derefAddress
  split
  · exact .pure trivial
  · exact .pure trivial
  · exact Covers.throw rfl

theorem covers_moveTo {c : ValueClass} {dst src : Operand}
    (known : (move.find? (SelectionKey.pack dst.format src.format c)).isSome = true) :
    Covers keys numbers waiting (moveTo c dst src) fun _ => True :=
  (covers_moveOpcode known).bind fun _ _ => covers_emit' _

theorem covers_saveAcrossCall (id : NodeId) :
    Covers keys numbers waiting (saveAcrossCall id) fun _ => True := by
  unfold saveAcrossCall
  refine (covers_isLive id).bind fun live _ => ?_
  refine (covers_node id).bind fun v _ => ?_
  split
  · exact covers_spill id
  · exact .pure trivial

theorem meets_pointer (scalar : ty.valueClass.isScalar = true) : pointerFormats.Meets ty b :=
  ⟨scalar, .inl (by decide), fun _ => .inl (by decide)⟩

theorem meets_any (scalar : ty.valueClass.isScalar = true) : Format.any.Meets ty b :=
  ⟨scalar, .inl (by decide), fun _ => .inl (by decide)⟩

/-- A way of selecting values that gives every value of a type in a format it can be given in. -/
def Selector.Supplies (select : Selector) : Prop :=
  ∀ {keys : List ValueKey} {numbers : Array (Option NodeId)} {waiting : List (NodeId × Operand)}
    {id : NodeId} {ty : CType} {b : Bool} {mask : Format}, HasType keys id ty b → mask.Meets ty b →
    Covers keys numbers waiting (select id mask) fun op =>
      mask.contains op.format = true ∧ (op.format = .mem → b = true)

theorem integerStage?_eq_some {srcTy via : CType} (staged : integerStage? srcTy = some via) :
    via.isInteger = true ∧ srcTy.size < via.size ∧ via.valueClass.meetsFloat = true := by
  cases srcTy <;> cases staged <;> decide

theorem integerStage?_eq_none {srcTy : CType} (direct : integerStage? srcTy = none)
    (integer : srcTy.isInteger = true) : srcTy.valueClass.meetsFloat = true := by
  cases srcTy <;> cases integer <;> first | rfl | cases direct

theorem floatingStage?_eq_some {via : CType} (staged : floatingStage? ty = some via) :
    via.isInteger = true := by
  cases ty <;> cases staged <;> decide

theorem floatingStage?_eq_none (direct : floatingStage? ty = none) :
    ty.valueClass.meetsFloat = true := by
  cases ty <;> first | rfl | cases direct

theorem format_lowPart (ty : CType) (op : Operand) : (lowPart ty op).format = op.format := by
  unfold lowPart
  split
  · split <;> rfl
  · rfl

theorem stage_stocked (start : g.Stocked keys numbers waiting) (k : NodeId) (via : CType) :
    Ends (stage k via) g (fun id g' => ∃ keys', keys <+: keys' ∧ g'.Stocked keys' numbers waiting ∧
        keys'[id.index]? = some (.unary .cvt via k)) fun e _ => e.isMiss = false := by
  have grown : keys <+: g.pool.keys ++ [.unary .cvt via k] :=
    start.known.trans (List.prefix_append _ _)
  have entered : Stocked (g.pool.keys ++ [.unary .cvt via k]) numbers waiting
      { g with pool := (g.pool.fresh (.unary .cvt via k) 0).2 } := by
    refine ⟨?_, start.numbers, fun id op here => ?_, start.held, fun w inside => ?_⟩
    · have pushed := ValuePool.keys_push g.pool (.unary .cvt via k) 0
      exact ⟨[], (List.append_nil _).trans pushed.symm⟩
    · change ((g.pool.fresh (.unary .cvt via k) 0).2.node id).loc = some op at here
      change op.Suits ((g.pool.fresh (.unary .cvt via k) 0).2.node id).ty
      rw [ValuePool.node_fresh] at here ⊢
      split
      · rename_i new
        rw [if_pos new] at here
        cases here
      · rename_i old
        rw [if_neg old] at here
        exact start.placed id op here
    · obtain ⟨key, found, scalar⟩ := start.scalar w inside
      exact ⟨key, getElem?_of_grown grown found, scalar⟩
  refine ⟨_, grown, entered.modify _ (fun _ => rfl) (entered.placed _), ?_⟩
  change (g.pool.keys ++ [.unary .cvt via k])[(g.pool.push (.unary .cvt via k) 0).1.index]? = _
  rw [ValuePool.fst_push, List.getElem?_concat_length]

theorem covers_staged {k : NodeId} {via : CType} {f : NodeId → Gen α} {result : α → Prop}
    (operand : HasType keys k ty b) (loads : ty.Loads b) (integer : via.isInteger = true)
    (wider : ty.isInteger = true → ty.size < via.size)
    (rest : ∀ keys' id, keys <+: keys' → HasType keys' id via false → Covers keys' numbers waiting
      (f id) result) : Covers keys numbers waiting (do f (← stage k via)) result := by
  refine ⟨fun g start => ?_⟩
  refine (stage_stocked start k via).bind ?_
  rintro id g' ⟨keys', grown, staged, found⟩
  have differs : ty.valueClass ≠ via.valueClass := by
    intro same
    have source : ty.isInteger = true := by rwa [CType.isInteger_eq, same, ← CType.isInteger_eq]
    have less := wider source
    rw [CType.size_eq_width source, CType.size_eq_width integer, same] at less
    exact Nat.lt_irrefl _ less
  have typed : HasType keys' id via false :=
    .convert found rfl rfl (operand.mono grown) loads (CType.isScalar_of_isInteger integer) differs
      fun source _ => wider source
  refine ((rest keys' id grown typed).ends g' staged).imp ?_
  rintro a g'' ⟨now, here⟩
  exact ⟨now.within start grown, here⟩

section Operators

variable {select : Selector} (supplies : select.Supplies) {k l r : NodeId}
include supplies

theorem covers_selectBinary {ty' : CType} {b' : Bool} (found : keys[id.index]? = some key)
    (arith : key.op.isBinary = true) (computes : key.op.computesIn key.ty.valueClass = true)
    (left : key.left = some l) (right : key.right = some r) (first : HasType keys l ty b)
    (loads : ty.Loads b) (second : HasType keys r ty' b') (loads' : ty'.Loads b') :
    Covers keys numbers waiting (selectBinary select id) fun op => op.format = .reg := by
  obtain ⟨table, known, ruled, entry⟩ := forOp_binary arith computes
  have scalar := Op.isScalar_of_computesIn computes
  have takes : (table.srcFormats .reg key.ty.valueClass).contains .reg = true := by
    rw [ruled.contains_srcFormats (by decide)]
    exact entry
  obtain ⟨key', found', rfl⟩ := second.found
  refine ⟨fun g start => ?_⟩
  unfold selectBinary
  refine ((covers_known found).ends g start).bind ?_
  rintro n g ⟨start, same, -⟩
  refine ((covers_bothKids found left right).ends g start).bind ?_
  rintro _ g ⟨start, rfl⟩
  rw [ValueNode.op, ValueNode.ty, same, known]
  refine .after_ok (x := ofExcept (.ok table)) rfl ?_
  refine ((supplies second (loads'.meets (.inl takes))).ends g start).bind ?_
  rintro rhs g ⟨start, fits, -⟩
  refine (holdValue_stocked start found' loads'.1).bind fun _ g start => ?_
  refine ((supplies first (loads.meets (.inl (by decide)))).ends g start).bind ?_
  rintro lhs g ⟨start, reg, -⟩
  refine ((covers_hold lhs).ends g start).bind ?_
  rintro _ g ⟨start, -⟩
  refine ((covers_claim (Operand.format_eq (by decide) reg) scalar).ends g start).bind ?_
  rintro dst g ⟨start, reg⟩
  refine ((covers_hold dst).ends g start).bind ?_
  rintro _ g ⟨start, -⟩
  refine (takeHeld_stocked start fun _ => .inl takes).bind ?_
  rintro rhs' g ⟨start, back⟩
  have accepted : (table.srcFormats .reg key.ty.valueClass).contains rhs'.format = true := by
    rcases back with rfl | ⟨-, accepted⟩
    · exact fits
    · exact accepted
  rw [ruled.contains_srcFormats rhs'.format_mem_singles] at accepted
  have last : Covers keys numbers waiting (do
      release dst
      let opcode ← ofExcept (table.lookup
        (SelectionKey.pack .reg rhs'.format key.ty.valueClass))
      emit' { op := opcode, ty := key.ty.valueClass, dst := some dst, src := some rhs' }
      release lhs
      release rhs'
      locate id dst
      return dst) fun op => op.format = .reg := by
    refine (covers_release dst).bind fun _ _ => ?_
    refine (covers_lookup accepted).bind fun opcode _ => ?_
    refine (covers_emit' _).bind fun _ _ => ?_
    refine (covers_release lhs).bind fun _ _ => ?_
    refine (covers_release rhs').bind fun _ _ => ?_
    exact (covers_locate found (Operand.suits_of_reg reg scalar)).bind fun _ _ => .pure reg
  exact last.ends g start

theorem covers_selectUnary (found : keys[id.index]? = some key)
    (arith : key.op = .neg ∨ key.op = .compl)
    (computes : key.op.computesIn key.ty.valueClass = true) (left : key.left = some k)
    (operand : HasType keys k ty b) (loads : ty.Loads b) :
    Covers keys numbers waiting (selectUnary select id) fun op => op.format = .reg := by
  obtain ⟨table, known, entry⟩ := forOp_unary arith computes
  have scalar := Op.isScalar_of_computesIn computes
  unfold selectUnary
  refine (covers_known found).bind ?_
  rintro n ⟨same, -⟩
  dsimp only
  rw [ValueNode.op, ValueNode.ty, same, known]
  refine Keeps.bind (.pure rfl) fun _ here => ?_
  subst here
  refine (covers_lookup entry).bind fun opcode _ => ?_
  refine (covers_firstKid found left).bind fun k here => ?_
  subst here
  refine (supplies operand (loads.meets (.inl (by decide)))).bind ?_
  rintro v ⟨reg, -⟩
  refine (covers_hold v).bind fun _ _ => ?_
  refine (covers_claim (Operand.format_eq (by decide) reg) scalar).bind fun dst reg => ?_
  refine (covers_release v).bind fun _ _ => ?_
  refine (covers_emit' _).bind fun _ _ => ?_
  exact (covers_locate found (Operand.suits_of_reg reg scalar)).bind fun _ _ => .pure reg

theorem compareLeft_stocked (c : ValueClass) (rhs : Operand) (dst : Format)
    (start : g.Stocked keys numbers waiting) (found : keys[r.index]? = some key)
    (scalar : key.ty.valueClass.isScalar = true) (first : HasType keys l ty b) (loads : ty.Loads b)
    (takes : dst.contains .reg = true)
    (goes : ∀ f ∈ Format.any.singles, dst.contains f = true → (cmp.find? (SelectionKey.pack f
      rhs.format c)).isSome = true ∧ (rhs.format = .reg → (cmp.find? (SelectionKey.pack f .ind
      c)).isSome = true)) :
    Ends (do
      holdValue r rhs
      let lhs ← select l dst
      hold lhs
      let rhs ← takeHeld (cmp.srcFormats lhs.format c)
      let op ← ofExcept (cmp.lookup (SelectionKey.pack lhs.format rhs.format c))
      emit' { op, ty := c, dst := some lhs, src := some rhs }
      release lhs
      release rhs) g (fun _ g' => g'.Stocked keys numbers waiting ∧ True)
        fun e _ => e.isMiss = false := by
  refine (holdValue_stocked start found scalar).bind fun _ g start => ?_
  refine ((supplies first (loads.meets (.inl takes))).ends g start).bind ?_
  rintro lhs g ⟨start, chosen, -⟩
  refine ((covers_hold lhs).ends g start).bind ?_
  rintro _ g ⟨start, -⟩
  obtain ⟨beside, stored⟩ := goes _ lhs.format_mem_singles chosen
  have back (reg : rhs.format = .reg) : (cmp.srcFormats lhs.format c).contains .ind = true := by
    rw [ruled_cmp.contains_srcFormats (by decide)]
    exact stored reg
  refine (takeHeld_stocked start fun reg => .inr (back reg)).bind ?_
  rintro rhs' g ⟨start, same⟩
  have entry : (cmp.find? (SelectionKey.pack lhs.format rhs'.format c)).isSome = true := by
    rcases same with rfl | ⟨-, accepted⟩
    · exact beside
    · rwa [ruled_cmp.contains_srcFormats rhs'.format_mem_singles] at accepted
  have last : Covers keys numbers waiting (do
      let op ← ofExcept (cmp.lookup (SelectionKey.pack lhs.format rhs'.format c))
      emit' { op, ty := c, dst := some lhs, src := some rhs' }
      release lhs
      release rhs') fun _ => True := by
    refine (covers_lookup entry).bind fun opcode _ => ?_
    refine (covers_emit' _).bind fun _ _ => ?_
    exact (covers_release lhs).bind fun _ _ => covers_release rhs'
  exact last.ends g start

theorem covers_compareKids {ty' : CType} {b' : Bool} (found : keys[id.index]? = some key)
    (left : key.left = some l) (right : key.right = some r) (first : HasType keys l ty b)
    (loads : ty.Loads b) (second : HasType keys r ty' b') (loads' : ty'.Loads b') :
    Covers keys numbers waiting (compareKids select id) fun _ => True := by
  obtain ⟨key₁, found₁, rfl⟩ := first.found
  obtain ⟨key₂, found₂, rfl⟩ := second.found
  have scalar := loads.1
  refine ⟨fun g start => ?_⟩
  unfold compareKids
  refine ((covers_bothKids found left right).ends g start).bind ?_
  rintro _ g ⟨start, rfl⟩
  refine ((covers_known found₁).ends g start).bind ?_
  rintro n g ⟨start, same, -⟩
  dsimp only
  rw [ValueNode.ty, same]
  generalize key₁.ty.valueClass = c at scalar
  have withReg := find?_cmp (f := .reg) scalar (by decide) (.inl rfl)
  have withInd := find?_cmp (f := .ind) scalar (by decide) (.inr (.inl rfl))
  have accepted {f : Format} (single : f ∈ Format.any.singles) :
      ((cmp.srcFormats .reg c).union (cmp.srcFormats .ind c)).contains f =
        ((cmp.find? (SelectionKey.pack .reg f c)).isSome ||
          (cmp.find? (SelectionKey.pack .ind f c)).isSome) := by
    rw [Format.contains_union single, ruled_cmp.contains_srcFormats single,
      ruled_cmp.contains_srcFormats single]
  have takes : ((cmp.srcFormats .reg c).union (cmp.srcFormats .ind c)).contains .reg = true := by
    rw [accepted (by decide), withReg, Bool.true_or]
  refine ((supplies second (loads'.meets (.inl takes))).ends g start).bind ?_
  rintro rhs g ⟨start, fits, -⟩
  have single := rhs.format_mem_singles
  rw [accepted single] at fits
  have rest (dst : Format) :=
    compareLeft_stocked supplies c rhs dst start found₂ loads'.1 first loads
  have taken : (cmp.dstFormats rhs.format c).contains .reg = true := by
    rw [ruled_cmp.contains_dstFormats (by decide)]
    exact find?_cmp scalar single (.inr (.inr fits))
  have asIs (other : rhs.format ≠ .reg) := rest (cmp.dstFormats rhs.format c) taken
    fun f single inside =>
      ⟨by rwa [ruled_cmp.contains_dstFormats single] at inside, fun reg => absurd reg other⟩
  cases rhs with
  | reg lo hi =>
    refine rest _ ?_ fun f single inside => ?_
    · rw [Format.contains_inter (by decide), ruled_cmp.contains_dstFormats (by decide),
        ruled_cmp.contains_dstFormats (by decide), withReg, withInd]
      rfl
    · rw [Format.contains_inter single, ruled_cmp.contains_dstFormats single,
        ruled_cmp.contains_dstFormats single, Bool.and_eq_true] at inside
      exact ⟨inside.1, fun _ => inside.2⟩
  | imm sym => exact asIs (show Format.imm ≠ .reg by decide)
  | mem a => exact asIs (show Format.mem ≠ .reg by decide)
  | ind a => exact asIs (show Format.ind ≠ .reg by decide)

theorem covers_selectComparison {ty' : CType} {b' : Bool} (found : keys[id.index]? = some key)
    (scalar : key.ty.valueClass.isScalar = true) (left : key.left = some l)
    (right : key.right = some r) (first : HasType keys l ty b) (loads : ty.Loads b)
    (second : HasType keys r ty' b') (loads' : ty'.Loads b') (cond : Cond) :
    Covers keys numbers waiting (selectComparison select id cond) fun op => op.format = .reg := by
  unfold selectComparison
  refine (covers_compareKids supplies found left right first loads second loads').bind fun _ _ => ?_
  refine (covers_alloc .general).bind fun r _ => ?_
  refine (covers_emit' _).bind fun _ _ => ?_
  exact (covers_locate found (Operand.suits_of_reg rfl scalar)).bind fun _ _ => .pure rfl

theorem covers_convert {srcTy : CType} (found : keys[id.index]? = some key) (same : key.ty = ty)
    (scalar : ty.valueClass.isScalar = true) (operand : HasType keys k srcTy b)
    (loads : srcTy.Loads b) (converts : ty.valueClass.convertsFrom srcTy.valueClass = true) :
    Covers keys numbers waiting (convert select id k ty srcTy) fun op => op.format = .reg := by
  have takes := find?_convert converts
  rw [← contains_conversionFormats (by decide), ← contains_conversionFormats (by decide)] at takes
  have accepts : (SelectionTable.convert.conversionFormats ty.valueClass srcTy.valueClass).isEmpty =
      false := takes.elim Format.isEmpty_eq_false Format.isEmpty_eq_false
  unfold Gen.convert
  dsimp only
  rw [accepts, if_neg Bool.false_ne_true]
  refine (supplies operand (loads.meets takes)).bind ?_
  rintro v ⟨fits, -⟩
  rw [contains_conversionFormats v.format_mem_singles] at fits
  refine (covers_hold v).bind fun _ _ => ?_
  refine (covers_allocValue ty).bind fun dst reg => ?_
  refine (covers_release v).bind fun _ _ => ?_
  refine (covers_lookup fits).bind fun opcode _ => ?_
  refine (covers_emit' _).bind fun _ _ => ?_
  exact (covers_locate found (Operand.suits_of_reg reg (same ▸ scalar))).bind fun _ _ => .pure reg

theorem covers_selectNarrow (found : keys[id.index]? = some key) (left : key.left = some k)
    (operand : HasType keys k ty b) (source : ty.isInteger = true)
    (target : key.ty.isInteger = true) (narrower : key.ty.size ≤ ty.size) :
    Covers keys numbers waiting (selectConversion select id) fun op =>
      op.format = .mem → b = true := by
  obtain ⟨key', found', rfl⟩ := operand.found
  unfold selectConversion
  refine (covers_known found).bind ?_
  rintro n ⟨same, -⟩
  refine (covers_firstKid found left).bind fun k here => ?_
  subst here
  refine (covers_known found').bind ?_
  rintro n' ⟨same', -⟩
  dsimp only
  rw [ValueNode.ty, ValueNode.ty, same, same', source, target, Bool.and_self, if_pos rfl,
    if_pos narrower]
  refine (supplies operand (meets_any (CType.isScalar_of_isInteger source))).bind ?_
  rintro v ⟨-, address⟩
  refine .pure ?_
  rwa [format_lowPart]

theorem covers_toFloat (found : keys[id.index]? = some key) (operand : HasType keys k ty b)
    (loads : ty.Loads b) (scalar : key.ty.valueClass.isScalar = true)
    (float : key.ty.isFloat = true) (source : ty.isInteger = true) :
    Covers keys numbers waiting (match integerStage? ty with
      | some via => do convert select id (← stage k via) key.ty via
      | none => convert select id k key.ty ty) fun op => op.format = .reg := by
  rw [CType.isFloat_eq] at float
  split
  · rename_i via staged
    obtain ⟨integer, wider, meets⟩ := integerStage?_eq_some staged
    refine covers_staged operand loads integer (fun _ => wider) fun keys' id' grown typed => ?_
    exact covers_convert supplies (getElem?_of_grown grown found) rfl scalar typed
      ⟨CType.isScalar_of_isInteger integer, fun no => absurd no (by decide)⟩
      (ValueClass.convertsFrom_integer float meets)
  · rename_i direct
    exact covers_convert supplies found rfl scalar operand loads
      (ValueClass.convertsFrom_integer float (integerStage?_eq_none direct source))

theorem covers_toInteger (found : keys[id.index]? = some key) (operand : HasType keys k ty b)
    (loads : ty.Loads b) (scalar : key.ty.valueClass.isScalar = true) (float : ty.isFloat = true)
    (source : ty.isInteger = false) :
    Covers keys numbers waiting (match floatingStage? key.ty with
      | none => convert select id k key.ty ty
      | some via => do
        let dst := lowPart key.ty (← select (← stage k via) .reg)
        locate id dst
        return dst) fun op => op.format = .reg := by
  rw [CType.isFloat_eq] at float
  split
  · rename_i direct
    exact covers_convert supplies found rfl scalar operand loads
      (ValueClass.integer_convertsFrom float (floatingStage?_eq_none direct))
  · rename_i via staged
    have integer := floatingStage?_eq_some staged
    have wider (whole : ty.isInteger = true) : ty.size < via.size := by
      rw [source] at whole
      cases whole
    refine covers_staged operand loads integer wider fun keys' id' grown typed => ?_
    have meets : Format.reg.Meets via false :=
      ⟨CType.isScalar_of_isInteger integer, .inl (by decide), fun no => absurd no (by decide)⟩
    refine (supplies typed meets).bind ?_
    rintro v ⟨fits, -⟩
    have reg : (lowPart key.ty v).format = .reg := by
      rw [format_lowPart]
      exact Operand.format_eq (by decide) fits
    refine (covers_locate (getElem?_of_grown grown found)
      (Operand.suits_of_reg reg scalar)).bind fun _ _ => ?_
    exact .pure reg

theorem covers_selectConvert (found : keys[id.index]? = some key) (left : key.left = some k)
    (operand : HasType keys k ty b) (loads : ty.Loads b)
    (scalar : key.ty.valueClass.isScalar = true) (differs : ty.valueClass ≠ key.ty.valueClass)
    (wider : ty.isInteger = true → key.ty.isInteger = true → ty.size < key.ty.size) :
    Covers keys numbers waiting (selectConversion select id) fun op => op.format = .reg := by
  obtain ⟨key', found', rfl⟩ := operand.found
  unfold selectConversion
  refine (covers_known found).bind ?_
  rintro n ⟨same, -⟩
  refine (covers_firstKid found left).bind fun k here => ?_
  subst here
  refine (covers_known found').bind ?_
  rintro n' ⟨same', -⟩
  dsimp only
  rw [ValueNode.ty, ValueNode.ty, same, same']
  have float := CType.isFloat_eq_not_isInteger scalar
  have float' := CType.isFloat_eq_not_isInteger loads.1
  cases target : key.ty.isInteger with
  | true =>
    cases source : key'.ty.isInteger with
    | true =>
      have less := wider source target
      simp only [Bool.and_self, if_true, if_neg (Nat.not_le_of_lt less)]
      exact covers_convert supplies found rfl scalar operand loads
        (CType.convertsFrom_of_wider target source less)
    | false =>
      rw [target] at float
      rw [source] at float'
      simp only [float, float', Bool.not_true, Bool.not_false, Bool.false_and, Bool.and_self,
        Bool.false_eq_true, if_false, if_true]
      exact covers_toInteger supplies found operand loads scalar float' source
  | false =>
    rw [target] at float
    cases source : key'.ty.isInteger with
    | true =>
      simp only [float, Bool.not_false, Bool.and_false, Bool.and_self, Bool.false_eq_true, if_false,
        if_true]
      exact covers_toFloat supplies found operand loads scalar float source
    | false =>
      rw [source] at float'
      simp only [float, float', Bool.not_false, Bool.and_false, Bool.false_and, Bool.and_self,
        Bool.false_eq_true, if_false, if_true]
      rw [CType.isFloat_eq] at float float'
      exact covers_convert supplies found rfl scalar operand loads
        (ValueClass.convertsFrom_float float float' differs.symm)

theorem covers_compute (typed : HasType keys id ty b) :
    Covers keys numbers waiting (compute select id) fun op => op.format = .mem → b = true := by
  have computed {x : Gen Operand}
      (covers : Covers keys numbers waiting x fun op => op.format = .reg) :
      Covers keys numbers waiting x fun op => op.format = .mem → b = true :=
    covers.imp fun _ reg unloaded => absurd (reg.symm.trans unloaded) (by decide)
  unfold compute
  cases typed with
  | const found op =>
    refine (covers_known found).bind ?_
    rintro n ⟨same, -⟩
    rw [ValueNode.op, same, op]
    refine (covers_leafSymbol id).bind fun sym _ => .pure fun unloaded => ?_
    exact absurd unloaded (show Format.imm ≠ .mem by decide)
  | addr found op =>
    refine (covers_known found).bind ?_
    rintro n ⟨same, -⟩
    rw [ValueNode.op, same, op]
    refine (covers_leafSymbol id).bind fun sym _ => ?_
    exact (covers_addressOf sym).bind fun _ _ => .pure fun _ => rfl
  | load found op left pointer scalar =>
    refine (covers_known found).bind ?_
    rintro n ⟨same, -⟩
    rw [ValueNode.op, same, op]
    refine (covers_firstKid found left).bind fun a here => ?_
    subst here
    refine (supplies pointer (meets_pointer scalar)).bind fun v _ => ?_
    refine (covers_derefAddress v).bind fun a _ => .pure fun unloaded => ?_
    exact absurd unloaded (show Format.ind ≠ .mem by decide)
  | unary found op computes left operand loads =>
    refine (covers_known found).bind ?_
    rintro n ⟨same, -⟩
    have covers : Covers keys numbers waiting (selectUnary select id) fun op => op.format = .reg :=
      covers_selectUnary supplies found op computes left operand loads
    rw [ValueNode.op, same]
    rcases op with op | op
    · rw [op]
      exact computed covers
    · rw [op]
      exact computed covers
  | binary found arith computes left right first loads second loads' =>
    refine (covers_known found).bind ?_
    rintro n ⟨same, -⟩
    have covers : Covers keys numbers waiting (selectBinary select id) fun op => op.format = .reg :=
      covers_selectBinary supplies found arith computes left right first loads second loads'
    rw [ValueNode.op, same]
    generalize ValueKey.op _ = o at arith
    cases o with
    | add | sub | mul | div | mod | and | or | xor | shl | shr => exact computed covers
    | _ => cases arith
  | cmp found op scalar left right first loads second loads' =>
    refine (covers_known found).bind ?_
    rintro n ⟨same, -⟩
    rw [ValueNode.op, same, op]
    exact computed
      (covers_selectComparison supplies found scalar left right first loads second loads' _)
  | narrow found op left operand source target narrower =>
    refine (covers_known found).bind ?_
    rintro n ⟨same, -⟩
    rw [ValueNode.op, same, op]
    exact covers_selectNarrow supplies found left operand source target narrower
  | convert found op left operand loads scalar differs wider =>
    refine (covers_known found).bind ?_
    rintro n ⟨same, -⟩
    rw [ValueNode.op, same, op]
    exact computed (covers_selectConvert supplies found left operand loads scalar differs wider)
  | call found op =>
    refine (covers_known found).bind ?_
    rintro n ⟨same, -⟩
    rw [ValueNode.op, same, op]
    exact Covers.throw rfl

theorem covers_selectBranch (typed : HasType keys id ty b) (target : Symbol) :
    Covers keys numbers waiting (selectBranch select id target) fun _ => True := by
  obtain ⟨key, found, -⟩ := typed.found
  have demands := typed.demands found
  unfold selectBranch
  refine (covers_known found).bind ?_
  rintro n ⟨same, -⟩
  split
  · rename_i cond compares
    rw [ValueNode.op, same] at compares
    rw [HasType.Demands, compares] at demands
    obtain ⟨l, r, tyₗ, tyᵣ, bₗ, bᵣ, left, right, first, loads, second, loads'⟩ := demands
    refine (covers_compareKids supplies found left right first loads second loads').bind ?_
    intro _ _
    exact covers_flushRegisters.bind fun _ _ => covers_emit' _
  · exact Covers.throw rfl

theorem covers_selectAssign (stores : HasType.Stores keys id) :
    Covers keys numbers waiting (selectAssign select id) fun _ => True := by
  obtain ⟨found, -, scalar, left, right, pointer, integer, value, loads⟩ := stores
  rename_i a v key ty _ b _
  obtain ⟨key', found', rfl⟩ := value.found
  have takes : (move.srcFormats .ind key.ty.valueClass).contains .reg = true := by
    rw [ruled_move.contains_srcFormats (by decide)]
    exact find?_store scalar
  refine ⟨fun g start => ?_⟩
  unfold selectAssign
  refine ((covers_known found).ends g start).bind ?_
  rintro n g ⟨start, same, -⟩
  refine ((covers_bothKids found left right).ends g start).bind ?_
  rintro _ g ⟨start, rfl⟩
  dsimp only
  rw [ValueNode.ty, same, CType.isStruct_of_isScalar scalar, if_neg Bool.false_ne_true]
  refine ((supplies value (loads.meets (.inl takes))).ends g start).bind ?_
  rintro src g ⟨start, fits, -⟩
  refine (holdValue_stocked start found' loads.1).bind fun _ g start => ?_
  refine ((supplies pointer (meets_pointer integer)).ends g start).bind ?_
  rintro p g ⟨start, -⟩
  refine ((covers_derefAddress p).ends g start).bind ?_
  rintro place g ⟨start, -⟩
  refine ((covers_hold _).ends g start).bind ?_
  rintro _ g ⟨start, -⟩
  refine (takeHeld_stocked start fun _ => .inl takes).bind ?_
  rintro src' g ⟨start, back⟩
  have accepted : (move.srcFormats .ind key.ty.valueClass).contains src'.format = true := by
    rcases back with rfl | ⟨-, accepted⟩
    · exact fits
    · exact accepted
  rw [ruled_move.contains_srcFormats src'.format_mem_singles] at accepted
  have last : Covers keys numbers waiting (do
      release (.ind place)
      moveTo key.ty.valueClass (.ind place) src'
      release src') fun _ => True := by
    have moves : Covers keys numbers waiting (moveTo key.ty.valueClass (.ind place) src')
        fun _ => True := covers_moveTo accepted
    exact (covers_release _).bind fun _ _ => moves.bind fun _ _ => covers_release src'
  exact last.ends g start

theorem covers_selectCall (found : keys[id.index]? = some key) (left : key.left = some k)
    (callee : HasType keys k ty b) (scalar : ty.valueClass.isScalar = true)
    (result : key.ty = .void ∨ key.ty.valueClass.isScalar = true) :
    Covers keys numbers waiting (selectCall select id) fun _ => True := by
  unfold selectCall
  refine (covers_known found).bind ?_
  rintro n ⟨same, -⟩
  refine (covers_firstKid found left).bind fun k here => ?_
  subst here
  refine (supplies callee (meets_any scalar)).bind fun target _ => ?_
  refine (covers_lookup (find?_call target.format_mem_singles)).bind fun opcode _ => ?_
  refine (covers_hold target).bind fun _ _ => ?_
  refine Keeps.get.bind fun g _ => ?_
  refine Keeps.bind (.forM fun r _ => ?_) fun _ _ => ?_
  · refine Keeps.get.bind fun g _ => ?_
    split
    · exact covers_free r
    · exact .pure trivial
  refine Keeps.get.bind fun g _ => ?_
  refine Keeps.bind (.forM fun r _ => ?_) fun _ _ => ?_
  · exact (covers_usersOf r).bind fun _ _ => .forM fun id _ => covers_saveAcrossCall id
  refine (covers_emit' _).bind fun _ _ => ?_
  refine (covers_release target).bind fun _ _ => ?_
  refine covers_flushRegisters.bind fun _ _ => ?_
  have last : Covers keys numbers waiting (do
      if n.ty = .void then
        let zero ← onSymbols (·.intConst 0 .int)
        locate id (.imm zero)
      else if n.ty.isFloat then locate id (.single .f0)
      else if n.ty.isWide then locate id (.pair .eax .edx)
      else if n.ty.isStruct then throw (.invariant .structInRegisters)
      else locate id (.single .eax)) fun _ => True := by
    rw [ValueNode.ty, same]
    split
    · refine (covers_onSymbols _).bind fun zero _ => covers_locate found ?_
      exact ⟨show Format.imm ≠ .mem by decide,
        fun reg => absurd reg (show Format.imm ≠ .reg by decide)⟩
    rename_i valued
    have placed {lo : Reg} {hi : Option Reg} : (Operand.reg lo hi).Suits key.ty :=
      Operand.suits_of_reg rfl (result.resolve_left valued)
    split
    · exact covers_locate found placed
    split
    · exact covers_locate found placed
    split
    · exact Covers.throw rfl
    · exact covers_locate found placed
  dsimp only
  split
  · exact (covers_onSymbols _).bind fun _ _ => (covers_emit' _).bind fun _ _ => last
  · exact last

theorem covers_selectEffect (typed : HasType.Stores keys id ∨ ∃ ty b, HasType keys id ty b) :
    Covers keys numbers waiting (selectEffect select id) fun _ => True := by
  unfold selectEffect
  rcases typed with stores | ⟨ty, b, typed⟩
  · have assigns : Covers keys numbers waiting (selectAssign select id) fun _ => True :=
      covers_selectAssign supplies stores
    obtain ⟨found, op⟩ := stores
    refine (covers_known found).bind ?_
    rintro n ⟨same, -⟩
    rw [ValueNode.op, same, op]
    exact assigns
  · obtain ⟨key, found, -⟩ := typed.found
    have demands := typed.demands found
    refine (covers_known found).bind ?_
    rintro n ⟨same, -⟩
    split
    · rename_i assigns
      rw [ValueNode.op, same] at assigns
      rw [HasType.Demands, assigns] at demands
      exact demands.elim
    · rename_i calls
      rw [ValueNode.op, same] at calls
      rw [HasType.Demands, calls] at demands
      obtain ⟨k, ty', b', left, callee, scalar, result⟩ := demands
      exact covers_selectCall supplies found left callee scalar result
    · exact Covers.throw rfl

theorem covers_pushArg (typed : HasType keys id ty b) (loads : ty.Loads b) :
    Covers keys numbers waiting (pushArg select id) fun _ => True := by
  obtain ⟨key, found, rfl⟩ := typed.found
  have takes : (push.srcFormats .none key.ty.valueClass).contains .reg = true := by
    rw [ruled_push.contains_srcFormats (by decide)]
    exact find?_push loads.1
  unfold pushArg
  refine (covers_known found).bind ?_
  rintro n ⟨same, -⟩
  dsimp only
  rw [ValueNode.ty, same]
  refine (supplies typed (loads.meets (.inl takes))).bind ?_
  rintro v ⟨fits, -⟩
  rw [ruled_push.contains_srcFormats v.format_mem_singles] at fits
  exact (covers_lookup fits).bind fun opcode _ => covers_emit' _

theorem covers_returnValue (typed : HasType keys id ty b) (loads : ty.Loads b) :
    Covers keys numbers waiting (returnValue select id) fun _ => True := by
  obtain ⟨key, found, rfl⟩ := typed.found
  have entry {f : Format} := find?_move (f := f) loads.1
  have takes : (move.srcFormats .reg key.ty.valueClass).contains .reg = true := by
    rw [ruled_move.contains_srcFormats (by decide)]
    exact entry (by decide) fun no => absurd no (by decide)
  have reg : (returnOperand key.ty).format = .reg := by
    unfold returnOperand
    split
    · rfl
    · split <;> rfl
  unfold returnValue
  refine (covers_known found).bind ?_
  rintro n ⟨same, -⟩
  dsimp only
  rw [ValueNode.ty, same]
  split
  · exact .pure trivial
  refine (supplies typed (loads.meets (.inl takes))).bind ?_
  rintro v ⟨-, address⟩
  split
  · exact .pure trivial
  have last (v : Operand) (pointer : v.format = .mem → key.ty.valueClass = .u32) :
      Covers keys numbers waiting (do
        hold v
        (returnOperand key.ty).regs.forM free
        release v
        moveTo key.ty.valueClass (returnOperand key.ty) v) fun _ => True := by
    refine (covers_hold v).bind fun _ _ => ?_
    refine Keeps.bind (.forM fun r _ => covers_free r) fun _ _ => ?_
    refine (covers_release v).bind fun _ _ => covers_moveTo ?_
    rw [reg]
    exact entry v.format_mem_singles pointer
  have pointer (unloaded : v.format = .mem) := loads.2 (address unloaded)
  split
  · refine (covers_toMemory found loads.1 pointer).bind fun v ind => last v fun unloaded => ?_
    exact absurd (ind.symm.trans unloaded) (by decide)
  · rw [pure_bind]
    exact last v pointer

theorem covers_selectZeroFill (typed : HasType keys id ty b)
    (scalar : ty.valueClass.isScalar = true) (bytes : Nat) :
    Covers keys numbers waiting (selectZeroFill select id bytes) fun _ => True := by
  unfold selectZeroFill
  refine (supplies typed (meets_pointer scalar)).bind fun v _ => ?_
  exact (covers_derefAddress v).bind fun a _ => covers_emit' _

end Operators

theorem supplies_selectWithin (fuel : Nat) : (selectWithin fuel).Supplies := by
  intro keys numbers waiting id ty b mask typed meets
  induction fuel generalizing keys numbers waiting id ty b mask with
  | zero => exact Covers.throw rfl
  | succ fuel ih =>
    obtain ⟨key, found, rfl⟩ := typed.found
    unfold selectWithin
    have used : Covers keys numbers waiting
        (modifyNode id fun n => { n with pending := n.pending - 1 }) fun _ => True :=
      covers_modifyNode id (fun _ => rfl) fun v op placed => placed op
    refine used.bind fun _ _ => ?_
    refine (covers_known found).bind ?_
    rintro v ⟨-, placed⟩
    split
    · rename_i loc here
      dsimp only
      rw [pure_bind]
      exact covers_coerce found meets fun unloaded => absurd unloaded (placed loc here).1
    · refine (covers_compute ih typed).bind fun op address => ?_
      exact covers_coerce found meets address

theorem supplies_select : Selector.Supplies select :=
  fun typed meets => supplies_selectWithin _ typed meets

end Gen

end CBackend
