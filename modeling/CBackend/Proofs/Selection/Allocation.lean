import CBackend.Proofs.Selection.Agreement

/-!
Handing out registers keeps values and registers in agreement. A value can always leave its
registers and be given new ones, and one that has to be stored on the way is still in them.
-/

namespace CBackend.Gen

open Generator

variable {n : Nat} {g : Generator} {id : NodeId} {op : Operand} {regs : RegisterFile}

/-- A value that is in registers, or need not be stored when it leaves them. -/
def Evacuable (g : Generator) (id : NodeId) : Prop :=
  g.InRegisters id ∨ ((g.pool.node id).isLiveAt g.seq && (g.pool.node id).spill.isNone) = false ∨
    (g.pool.node id).op = .const ∨ (g.pool.node id).op = .addr

theorem isRematerializable_run (g : Generator) (id : NodeId) :
    ∃ b, isRematerializable id g = .ok b g ∧
      (b = true ↔ (g.pool.node id).op = .const ∨ (g.pool.node id).op = .addr) := by
  unfold isRematerializable
  rw [bind_run (show node id g = .ok (g.pool.node id) g from rfl)]
  cases (g.pool.node id).op with
  | const | addr => exact ⟨true, rfl, by simp⟩
  | _ => exact ⟨false, rfl, by simp⟩

theorem onRegs_run {step : RegisterFile → Except RegisterError RegisterFile}
    (ok : step g.regs = .ok regs) : onRegs step g = .ok () { g with regs } := by
  unfold onRegs
  rw [bind_run (x := get) rfl, ok]
  rfl

/-- The state after a value has left its registers. -/
def left (g : Generator) (id : NodeId) (regs : RegisterFile) : Generator :=
  { g with
    regs
    pool := g.pool.modify id fun v => { v with loc := v.spill.map slotOperand } }

theorem selecting_left (start : g.Selecting n) (sound : regs.Sound)
    (holds : ∀ r k p, regs.Holds r k p ↔ g.regs.Holds r k p ∧ k ≠ id) :
    (left g id regs).Selecting n where
  agrees := by
    refine ⟨sound, fun r k part => ?_⟩
    have nowhere (slot : Option Int) : (slot.map slotOperand).bind (·.part? part) = none := by
      cases slot <;> rfl
    change regs.Holds r k part ↔ _
    rw [holds, start.agrees.users, register?, register?]
    simp only [left, ValuePool.node_modify]
    by_cases same : k = id
    · subst same
      by_cases issued : k.index < g.pool.size
      · simp [issued, nowhere]
      · have absent : (default : ValueNode).loc = none := rfl
        simp [issued, ValuePool.node_of_size_le _ (Nat.le_of_not_lt issued), absent]
    · simp [same]
  kids k := by
    simp only [left, ValuePool.node_modify]
    split
    · exact start.kids k
    · exact start.kids k
  held h inside := by
    simp only [left, ValuePool.size_modify]
    exact start.held h inside
  numbered k inside := by
    simp only [left, ValuePool.size_modify]
    exact start.numbered k inside
  size := by
    simp only [left, ValuePool.size_modify]
    exact start.size

theorem dropLocation_sheds (users : ∀ r k p, g.regs.Holds r k p ↔ g.register? k p = some r)
    (id : NodeId) : ¬g.InRegisters id ∧ dropLocation id g = .ok () g ∨
      ∃ regs, dropLocation id g = .ok () (left g id regs) ∧
        g.regs.Sheds (fun _ k _ => k = id) regs ∧ (g.regs.Sound → regs.Sound) := by
  have run : dropLocation id g = _ := bind_run (x := node id) rfl
  cases place : (g.pool.node id).loc with
  | none =>
    rw [place] at run
    refine .inr ⟨g.regs, run, .refl _ fun r k p held => ?_, fun sound => sound⟩
    rintro rfl
    simp [users, register?, place] at held
  | some op =>
    rw [place] at run
    cases op with
    | imm | mem | ind => exact .inl ⟨by simp [InRegisters, place], run⟩
    | reg lo hi =>
      have only (r : Reg) (p : Nat) : g.regs.Holds r id p ↔
          (Operand.reg lo hi).part? p = some r := by
        rw [users, register?, place]
        rfl
      obtain ⟨f, ok, sheds, sound⟩ := RegisterFile.dissociate_sheds ((only lo 0).mpr rfl)
      dsimp only at run
      rw [bind_run (onRegs_run ok)] at run
      cases hi with
      | none =>
        refine .inr ⟨f, run, sheds.congr fun r k p held => ⟨fun here => here.2.1, ?_⟩, sound⟩
        rintro rfl
        rcases p with _ | _ | p <;> cases (only r _).mp held
        exact ⟨rfl, rfl, rfl⟩
      | some hi =>
        have high : f.Holds hi id 1 := (sheds.holds _ _ _).mpr ⟨(only hi 1).mpr rfl, by simp⟩
        obtain ⟨f', ok', sheds', sound'⟩ := RegisterFile.dissociate_sheds high
        dsimp only at run
        rw [bind_run (onRegs_run (g := { g with regs := f }) ok')] at run
        refine .inr ⟨f', run, (sheds.trans sheds').congr fun r k p held => ⟨?_, ?_⟩,
          fun known => sound' (sound known)⟩
        · rintro (⟨-, same, -⟩ | ⟨-, same, -⟩) <;> exact same
        · rintro rfl
          rcases p with _ | _ | p <;> cases (only r _).mp held
          · exact .inl ⟨rfl, rfl, rfl⟩
          · exact .inr ⟨rfl, rfl, rfl⟩

theorem dropLocation_run (start : g.Selecting n) (id : NodeId) :
    ¬g.InRegisters id ∧ dropLocation id g = .ok () g ∨
      ∃ regs, dropLocation id g = .ok () (left g id regs) ∧ (left g id regs).Selecting n :=
  (dropLocation_sheds start.agrees.users id).imp_right fun ⟨regs, run, sheds, sound⟩ =>
    ⟨regs, run, selecting_left start (sound start.agrees.regs) sheds.holds⟩

theorem respects_dropLocation (id : NodeId) : Respects n (dropLocation id) fun _ => True := by
  refine ⟨fun g start => ?_⟩
  rcases dropLocation_run start id with ⟨-, run⟩ | ⟨regs, run, kept⟩
  · exact .of_ok run ⟨start, trivial⟩
  · exact .of_ok run ⟨kept, trivial⟩

/-- The state after a value that was in no register has been given a location. -/
def located (g : Generator) (id : NodeId) (op : Operand) (regs : RegisterFile) : Generator :=
  { g with regs, pool := g.pool.modify id fun v => { v with loc := some op } }

theorem selecting_located (start : g.Selecting n) (issued : id.index < g.pool.size)
    (outside : ¬g.InRegisters id) (sound : regs.Sound)
    (holds : ∀ r k p, regs.Holds r k p ↔ g.regs.Holds r k p ∨ k = id ∧ op.part? p = some r) :
    (located g id op regs).Selecting n where
  agrees := by
    refine ⟨sound, fun r k part => ?_⟩
    change regs.Holds r k part ↔ _
    rw [holds, start.agrees.users, register?]
    simp only [located, register?, ValuePool.node_modify]
    by_cases same : k = id
    · subst same
      have nowhere : g.register? k part ≠ some r := fun found =>
        outside (inRegisters_of_register found)
      rw [register?] at nowhere
      simp [issued, nowhere]
    · simp [same]
  kids k := by
    simp only [located, ValuePool.node_modify]
    split
    · exact start.kids k
    · exact start.kids k
  held h inside := by
    simp only [located, ValuePool.size_modify]
    exact start.held h inside
  numbered k inside := by
    simp only [located, ValuePool.size_modify]
    exact start.numbered k inside
  size := by
    simp only [located, ValuePool.size_modify]
    exact start.size

theorem settle_run (start : g.Selecting n) (issued : id.index < g.pool.size)
    (outside : ¬g.InRegisters id) (proper : op.Proper) :
    ∃ regs, settle id op g = .ok () (located g id op regs) ∧ (located g id op regs).Selecting n := by
  have run : settle id op g = _ := bind_run (x := node id) rfl
  cases op with
  | imm | mem | ind =>
    refine ⟨g.regs, run, selecting_located start issued outside start.agrees.regs fun r k p => ?_⟩
    simp [Operand.part?]
  | reg lo hi =>
    obtain ⟨f, ok, sound, holds⟩ := RegisterFile.associate_run start.agrees.regs proper.low id 0
      (g.pool.node id).lastRef
    dsimp only at run
    rw [bind_run (onRegs_run ok)] at run
    cases hi with
    | none =>
      refine ⟨f, run, selecting_located start issued outside sound fun r k p => ?_⟩
      rw [holds]
      refine or_congr_right ⟨?_, ?_⟩
      · rintro ⟨rfl, rfl, rfl⟩
        exact ⟨rfl, rfl⟩
      · rintro ⟨rfl, found⟩
        rcases p with _ | _ | p <;> cases found
        exact ⟨rfl, rfl, rfl⟩
    | some hi =>
      obtain ⟨f', ok', sound', holds'⟩ := RegisterFile.associate_run sound proper.high id 1
        (g.pool.node id).lastRef
      dsimp only at run
      rw [bind_run (onRegs_run (g := { g with regs := f }) ok')] at run
      refine ⟨f', run, selecting_located start issued outside sound' fun r k p => ?_⟩
      rw [holds', holds, or_assoc]
      refine or_congr_right ⟨?_, ?_⟩
      · rintro (⟨rfl, rfl, rfl⟩ | ⟨rfl, rfl, rfl⟩) <;> exact ⟨rfl, rfl⟩
      · rintro ⟨rfl, found⟩
        rcases p with _ | _ | p <;> cases found
        · exact .inl ⟨rfl, rfl, rfl⟩
        · exact .inr ⟨rfl, rfl, rfl⟩

theorem not_inRegisters_left (issued : id.index < g.pool.size) (regs : RegisterFile) :
    ¬(left g id regs).InRegisters id := by
  rintro ⟨lo, hi, place⟩
  simp only [left, ValuePool.node_modify, issued, and_self, if_true] at place
  cases slot : (g.pool.node id).spill <;> simp [slot, slotOperand] at place

theorem respects_locate (issued : id.index < n) (proper : op.Proper) :
    Respects n (locate id op) fun _ => True := by
  refine ⟨fun g start => ?_⟩
  have known : id.index < g.pool.size := Nat.lt_of_lt_of_le issued start.size
  have settles (outside : ¬g.InRegisters id) : RespectsAt n g (settle id op) fun _ => True := by
    obtain ⟨regs, run, kept⟩ := settle_run start known outside proper
    exact .of_ok run ⟨kept, trivial⟩
  unfold locate
  refine .after_ok (x := node id) rfl ?_
  cases place : (g.pool.node id).loc with
  | none => exact settles (by simp [InRegisters, place])
  | some old =>
    cases old with
    | imm | mem | ind => exact settles (by simp [InRegisters, place])
    | reg lo hi =>
      rcases dropLocation_run start id with ⟨outside, -⟩ | ⟨regs, run, kept⟩
      · exact absurd ⟨lo, hi, place⟩ outside
      · have there : id.index < (left g id regs).pool.size := by simpa [left] using known
        obtain ⟨regs', run', kept'⟩ :=
          settle_run kept there (not_inRegisters_left known regs) proper
        exact .after_ok run (.of_ok run' ⟨kept', trivial⟩)

theorem spill_ends (start : g.Selecting n) (inside : g.InRegisters id) :
    Ends (spill id) g
      (fun _ g' => g'.Selecting n ∧ g'.seq = g.seq ∧
        ∃ slot, g'.pool = g.pool.modify id fun v => { v with spill := some slot })
      fun e g' => g'.Selecting n ∧ e.inconsistent = false := by
  obtain ⟨lo, hi, place⟩ := inside
  unfold spill
  refine .after_ok (x := node id) rfl ?_
  rw [place]
  refine ((outputs_allocTemp _ _ _).ends start).bind fun slot g₁ ⟨start₁, beside₁⟩ => ?_
  refine ((outputs_moveOpcode _ _ _).ends start₁).bind fun op g₂ ⟨start₂, beside₂⟩ => ?_
  refine ((outputs_emit' _).ends start₂).bind fun _ g₃ ⟨start₃, beside₃⟩ => ?_
  have stored : ({ g₃ with pool := g₃.pool.modify id fun v => { v with spill := some slot } } :
      Generator).Selecting n := start₃.modify id (fun _ => rfl) fun _ => rfl
  refine ⟨stored.beside ⟨rfl, rfl, rfl, rfl, rfl⟩, ?_, slot, ?_⟩
  · exact (beside₃.seq.trans beside₂.seq).trans beside₁.seq
  · change g₃.pool.modify id _ = _
    rw [beside₃.pool, beside₂.pool, beside₁.pool]

theorem Evacuable.stored {g' : Generator} {k : NodeId} {slot : Int} (start : Evacuable g k)
    (seq : g'.seq = g.seq)
    (pool : g'.pool = g.pool.modify id fun v => { v with spill := some slot }) : Evacuable g' k := by
  unfold Evacuable InRegisters at start ⊢
  rw [seq, pool, ValuePool.node_modify]
  split
  · rcases start with inside | - | constant
    · exact .inl inside
    · exact .inr (.inl (by simp))
    · exact .inr (.inr constant)
  · exact start

theorem Evacuable.left {k : NodeId} (start : Evacuable g k)
    (stored : ((g.pool.node id).isLiveAt g.seq && (g.pool.node id).spill.isNone) = false ∨
      (g.pool.node id).op = .const ∨ (g.pool.node id).op = .addr) (regs : RegisterFile) :
    Evacuable (left g id regs) k := by
  unfold Evacuable InRegisters at start ⊢
  simp only [Gen.left, ValuePool.node_modify]
  split
  · rename_i same
    rw [same.1]
    exact .inr stored
  · exact start

theorem evacuate_ends (start : g.Selecting n) (here : Evacuable g id) :
    Ends (evacuate id) g
      (fun _ g' => g'.Selecting n ∧ ∀ k, Evacuable g k → Evacuable g' k)
      fun e g' => g'.Selecting n ∧ e.inconsistent = false := by
  have drops {g₁ : Generator} (start₁ : g₁.Selecting n) (kept : ∀ k, Evacuable g k → Evacuable g₁ k)
      (stored : ((g₁.pool.node id).isLiveAt g₁.seq && (g₁.pool.node id).spill.isNone) = false ∨
        (g₁.pool.node id).op = .const ∨ (g₁.pool.node id).op = .addr) :
      Ends (dropLocation id) g₁
        (fun _ g' => g'.Selecting n ∧ ∀ k, Evacuable g k → Evacuable g' k)
        fun e g' => g'.Selecting n ∧ e.inconsistent = false := by
    rcases dropLocation_run start₁ id with ⟨-, run⟩ | ⟨regs, run, next⟩
    · exact .of_ok run ⟨start₁, kept⟩
    · exact .of_ok run ⟨next, fun k fit => (kept k fit).left stored regs⟩
  obtain ⟨constant, run, isConstant⟩ := isRematerializable_run g id
  unfold evacuate
  refine .after_ok (x := isLive id) rfl ?_
  refine .after_ok (x := node id) rfl ?_
  refine .after_ok run ?_
  dsimp only
  split
  · rename_i unsaved
    simp only [Bool.and_eq_true, Bool.not_eq_true'] at unsaved
    have inside : g.InRegisters id := by
      rcases here with inside | saved | constant
      · exact inside
      · simp [unsaved] at saved
      · rw [← isConstant, unsaved.2] at constant
        cases constant
    refine (spill_ends start inside).bind fun _ g₁ ⟨start₁, seq, slot, pool⟩ => ?_
    refine drops start₁ (fun k fit => fit.stored seq pool) (.inl ?_)
    rw [pool, ValuePool.node_modify, if_pos ⟨rfl, inside.issued⟩]
    exact Bool.and_false _
  · rename_i saved
    refine drops start (fun _ fit => fit) ?_
    by_cases rematerializable : constant = true
    · exact .inr (isConstant.mp rematerializable)
    · rw [Bool.not_eq_true] at rematerializable
      rw [rematerializable, Bool.not_false, Bool.and_true, Bool.not_eq_true] at saved
      exact .inl saved

theorem mem_users_inRegisters (start : g.Selecting n) {r : Reg}
    (user : id ∈ (g.regs.users r).map RegUser.node) : g.InRegisters id := by
  obtain ⟨u, member, rfl⟩ := List.mem_map.mp user
  exact inRegisters_of_register ((start.agrees.users r u.node u.part).mp ⟨u, member, rfl, rfl⟩)

theorem respects_usersOf (r : Reg) : Respects n (usersOf r) fun _ => True :=
  ⟨fun _ start => ⟨start, trivial⟩⟩

theorem respects_isLive (id : NodeId) : Respects n (isLive id) fun _ => True :=
  ⟨fun _ start => ⟨start, trivial⟩⟩

theorem respects_free (r : Reg) : Respects n (free r) fun _ => True := by
  refine ⟨fun g start => ?_⟩
  unfold free
  refine .after_ok (x := usersOf r) rfl ?_
  -- A value may hold the register with both parts; it is then met again after it has left.
  have loop : Ends (((g.regs.users r).map RegUser.node).forM evacuate) g
      (fun _ g' => g'.Selecting n ∧ ∀ id ∈ (g.regs.users r).map RegUser.node, Evacuable g' id)
      fun e g' => g'.Selecting n ∧ e.inconsistent = false := by
    refine Ends.forM ⟨start, fun id user => .inl (mem_users_inRegisters start user)⟩ ?_
    intro id user g' ⟨kept, fit⟩
    refine (evacuate_ends kept (fit id user)).imp fun _ g'' ⟨kept', keeps⟩ => ?_
    exact ⟨kept', fun k other => keeps k (fit k other)⟩
  exact loop.imp fun _ _ ⟨kept, _⟩ => ⟨kept, trivial⟩

theorem respects_flushRegisters : Respects n flushRegisters fun _ => True :=
  Keeps.get.bind fun _ _ => .forM fun r _ => respects_free r

theorem respects_allDead (users : List NodeId) :
    Respects n (users.allM fun u => return !(← isLive u)) fun _ => True :=
  .allM fun u _ => (respects_isLive u).bind fun _ _ => .pure trivial

theorem respects_reapRegister (r : Reg) : Respects n (reapRegister r) fun _ => True := by
  unfold reapRegister
  refine Keeps.get.bind fun g _ => ?_
  split
  · exact .pure trivial
  refine (respects_usersOf r).bind fun users _ => ?_
  refine (respects_allDead users).bind fun dead _ => ?_
  split
  · exact .forM fun u _ => respects_dropLocation u
  · exact .pure trivial

theorem respects_reap (mask : RegMask) : Respects n (reap mask) fun _ => True :=
  .forM fun r _ => respects_reapRegister r

theorem proper_slotOperand (offset : Int) : (slotOperand offset).Proper := Operand.proper_ind _

theorem respects_registersToMemory (id : NodeId) (src : Operand) :
    Respects n (registersToMemory id src) Operand.Proper := by
  unfold registersToMemory
  refine (respects_node id).bind fun v _ => ?_
  split
  · exact .pure (proper_slotOperand _)
  dsimp only
  split
  · refine (outputs_allocTemp _ _ _).respects.bind fun slot _ => ?_
    refine (outputs_emit' _).respects.bind fun _ _ => ?_
    refine (respects_modifyNode id (fun _ => by rfl) fun _ => by rfl).bind fun _ _ => ?_
    exact .pure (proper_slotOperand slot)
  · exact Respects.throw rfl

/-- To move an operand to memory is to look for one that waits in registers of the mask, to store it,
to let it go and to note where it is. -/
theorem demote_of {mask : RegMask} {after : Bool → Generator → Prop}
    {failed : CompileError → Generator → Prop}
    (none : (∀ h ∈ g.held, HeldValue.occupies h mask = false) → after false g)
    (some : ∀ pos id src, ∀ bound : pos < g.held.length, g.held[pos] = ⟨id, src, false⟩ →
      src.format = .reg → Ends (registersToMemory id src) g (fun mem g₁ => Ends (release src) g₁
        (fun _ g₂ => ∀ stats, after true
          { g₂ with held := g₂.held.set pos ⟨id, mem, true⟩, stats }) failed) failed) :
    Ends (demote mask) g after failed := by
  unfold demote
  refine .after_ok (x := get) rfl ?_
  cases found : g.held.findIdx? (HeldValue.occupies · mask) with
  | none => exact none (List.findIdx?_eq_none_iff.mp found)
  | some pos =>
    refine .after_ok (x := get) rfl ?_
    obtain ⟨bound, occupies, -⟩ := List.findIdx?_eq_some_iff_getElem.mp found
    have here : g.held.getD pos default = g.held[pos] := by simp [bound]
    rw [here]
    generalize first : g.held[pos] = h at occupies ⊢
    obtain ⟨id, src, demoted⟩ := h
    simp only [HeldValue.occupies, Bool.and_eq_true, Bool.not_eq_true', beq_iff_eq] at occupies
    obtain ⟨⟨rfl, format⟩, -⟩ := occupies
    refine .after_ok (x := node id) rfl ?_
    refine (some pos id src bound first format).bind fun mem g₁ stored => ?_
    exact Ends.bind stored fun _ g₂ last => last _

theorem respects_demote (mask : RegMask) : Respects n (demote mask) fun _ => True := by
  refine ⟨fun g start => RespectsAt.weaken (m := g.pool.size) ?_ start.size⟩
  have start := start.at_size
  refine demote_of (fun _ => ⟨start, trivial⟩) fun pos id src bound here _ => ?_
  have known := (start.held _ (List.getElem_mem bound)).1
  rw [here] at known
  refine ((respects_registersToMemory id src).ends g start).imp fun mem g₁ ⟨start, proper⟩ => ?_
  refine ((respects_release src).ends g₁ start).imp fun _ g₂ ⟨start, _⟩ stats => ⟨?_, trivial⟩
  refine start.congr (fun _ => ⟨rfl, rfl⟩) rfl (fun _ => ⟨rfl, rfl⟩) (fun h member => ?_) rfl
  rcases List.mem_or_eq_of_mem_set member with old | rfl
  · exact start.held h old
  · exact ⟨Nat.lt_of_lt_of_le known start.size, proper⟩

theorem respects_chooseRegister (mask : RegMask) (tries : Nat) :
    Respects n (chooseRegister mask tries) fun choice => choice.reg.Allocatable := by
  induction tries with
  | zero => exact Respects.throw rfl
  | succ tries ih =>
    unfold chooseRegister
    refine ⟨fun g start => ?_⟩
    refine .after_ok (x := get) rfl ?_
    refine .after_ok (x := get) rfl ?_
    cases run : g.regs.choose mask g.seq with
    | ok choice =>
      obtain ⟨-, usable, -⟩ := RegisterFile.mem_usable_iff.mp (RegisterFile.choose_mem run)
      refine ⟨start, ?_⟩
      by_contra other
      exact usable ((start.agrees.regs.reserved _).mpr other)
    | error e =>
      have failed : Respects n (do
          if ← demote mask then
            reap mask
            chooseRegister mask tries
          else throw (.invariant (.register e))) fun choice => choice.reg.Allocatable := by
        refine (respects_demote mask).bind fun moved _ => ?_
        split
        · exact (respects_reap mask).bind fun _ _ => ih
        · rw [RegisterFile.choose_error run]
          exact Respects.throw rfl
      exact failed.ends g start

theorem respects_alloc (mask : RegMask) : Respects n (alloc mask) Reg.Allocatable := by
  unfold alloc
  refine (respects_reap mask).bind fun _ _ => ?_
  refine Keeps.get.bind fun g _ => ?_
  refine (respects_chooseRegister mask _).bind fun choice allocatable => ?_
  cases choice with
  | available r => exact (respects_free r).bind fun _ _ => .pure allocatable
  | evict r =>
    refine (outputs_modifyStats _).respects.bind fun _ _ => ?_
    exact (respects_free r).bind fun _ _ => .pure allocatable

theorem respects_allocValue (ty : CType) : Respects n (allocValue ty) Operand.Proper := by
  unfold allocValue
  split
  · exact (respects_alloc _).bind fun r allocatable => .pure (Operand.proper_single allocatable)
  refine (respects_alloc _).bind fun lo low => ?_
  split
  · exact .pure (Operand.proper_single low)
  refine (respects_pin lo).bind fun _ _ => ?_
  refine (Respects.tryFinally (respects_alloc _) (respects_unpin lo)).bind fun hi high => ?_
  exact .pure (Operand.proper_pair low high)

theorem respects_loadRegisters (issued : id.index < n) (src : Operand) :
    Respects n (loadRegisters id src) Operand.Proper := by
  unfold loadRegisters
  refine (respects_node id).bind fun v _ => ?_
  refine (outputs_moveOpcode _ _ _).respects.bind fun op _ => ?_
  refine (respects_hold src).bind fun _ _ => ?_
  refine (respects_allocValue v.ty).bind fun dst proper => ?_
  refine (respects_release src).bind fun _ _ => ?_
  refine (outputs_emit' _).respects.bind fun _ _ => ?_
  have last : Respects n (do locate id dst; return dst) Operand.Proper :=
    (respects_locate issued proper).bind fun _ _ => .pure proper
  split
  · exact (outputs_modifyStats _).respects.bind fun _ _ => last
  · exact last

theorem respects_toMemory (issued : id.index < n) : Respects n (toMemory id op) Operand.Proper := by
  unfold toMemory
  refine (respects_node id).bind fun v _ => ?_
  split
  · exact .pure (proper_slotOperand _)
  have store (src : Operand) : Respects n (do
      let opcode ← moveOpcode .ind src.format v.ty.valueClass
      let slot ← allocTemp id v.ty.size v.lastRef
      emit' { op := opcode, ty := v.ty.valueClass, dst := some (slotOperand slot), src := some src }
      modifyNode id fun n => { n with spill := some slot }
      return slotOperand slot) Operand.Proper := by
    refine (outputs_moveOpcode _ _ _).respects.bind fun opcode _ => ?_
    refine (outputs_allocTemp _ _ _).respects.bind fun slot _ => ?_
    refine (outputs_emit' _).respects.bind fun _ _ => ?_
    refine (respects_modifyNode id (fun _ => by rfl) fun _ => by rfl).bind fun _ _ => ?_
    exact .pure (proper_slotOperand slot)
  dsimp only
  split
  · exact store op
  · exact (respects_loadRegisters issued op).bind fun src _ => store src

theorem respects_coerce (issued : id.index < n) (proper : op.Proper) (mask : Format) :
    Respects n (coerce id op mask) Operand.Proper := by
  unfold coerce
  split
  · exact .pure proper
  split
  · exact respects_loadRegisters issued op
  split
  · exact respects_toMemory issued
  exact (respects_node id).bind fun v _ => Respects.throw rfl

theorem respects_holdValue (issued : id.index < n) (proper : op.Proper) :
    Respects n (holdValue id op) fun _ => True := by
  refine (respects_hold op).bind fun _ _ => ?_
  refine .modify fun g start => ?_
  refine start.congr (fun _ => ⟨rfl, rfl⟩) rfl (fun _ => ⟨rfl, rfl⟩) ?_ rfl
  intro h inside
  rcases List.mem_append.mp inside with old | new
  · exact start.held h old
  · rw [List.mem_singleton.mp new]
    exact ⟨Nat.lt_of_lt_of_le issued start.size, proper⟩

theorem respects_takeHeld (mask : Format) : Respects n (takeHeld mask) Operand.Proper := by
  refine ⟨fun g start => ?_⟩
  unfold takeHeld
  refine .after_ok (x := get) rfl ?_
  cases last : g.held.getLast? with
  | none => exact ⟨start, rfl⟩
  | some h =>
    obtain ⟨known, proper⟩ := start.held h (List.mem_of_getLast? last)
    refine Respects.at_size (.bind (.modify fun g₁ start₁ => ?_) ?_) start
    · refine start₁.congr (fun _ => ⟨rfl, rfl⟩) rfl (fun _ => ⟨rfl, rfl⟩) (fun h member => ?_) rfl
      exact start₁.held h ((List.dropLast_sublist _).subset member)
    · intro _ _
      split
      · exact .pure proper
      refine (respects_coerce known proper mask).bind fun op proper => ?_
      exact (respects_hold op).bind fun _ _ => .pure proper

theorem respects_claim (proper : op.Proper) (ty : CType) :
    Respects n (claim op ty) Operand.Proper := by
  unfold claim
  refine (Keeps.mapM fun r _ => respects_usersOf r).bind fun users _ => ?_
  refine (respects_allDead _).bind fun dead _ => ?_
  split
  · refine Keeps.bind (.forM fun r _ => ?_) fun _ _ => .pure proper
    exact (respects_usersOf r).bind fun users _ => .forM fun u _ => respects_dropLocation u
  · refine (respects_allocValue ty).bind fun dst proper => ?_
    refine (outputs_moveOpcode _ _ _).respects.bind fun opcode _ => ?_
    exact (outputs_emit' _).respects.bind fun _ _ => .pure proper

end CBackend.Gen
