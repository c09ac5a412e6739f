import Mathlib.Data.List.Forall2
import CBackend.Proofs.Selection.Pins
import CBackend.Proofs.Selection.ValueTypes

/-!
Bringing a value into a format never misses a table entry, if the type of the value allows the
format at all. Whatever is in a register has a type whose registers can be stored, and an operand
that waits is what it was or the memory it was stored to.
-/

namespace CBackend

def CompileError.isMiss : CompileError → Bool
  | .selectionMiss .. => true
  | _ => false

def Operand.Suits (op : Operand) (ty : CType) : Prop :=
  op.format ≠ .mem ∧ (op.format = .reg → ty.valueClass.isScalar = true)

theorem Operand.suits_slot (slot : Int) (ty : CType) : (slotOperand slot).Suits ty :=
  ⟨show Format.ind ≠ .mem by decide, fun reg => absurd reg (show Format.ind ≠ .reg by decide)⟩

theorem Operand.suits_of_reg {op : Operand} {ty : CType} (reg : op.format = .reg)
    (scalar : ty.valueClass.isScalar = true) : op.Suits ty :=
  ⟨reg ▸ (by decide), fun _ => scalar⟩

/-- A value that began to wait as an operand is still that operand, or has been moved from registers
to memory. -/
def HeldValue.Continues (began : NodeId × Operand) (h : HeldValue) : Prop :=
  h = ⟨began.1, began.2, false⟩ ∨ began.2.format = .reg ∧ ∃ a, h = ⟨began.1, .ind a, true⟩

theorem forall₂_set {α β : Type} {R : α → β → Prop} {xs : List α} {ys : List β} {i : Nat} {y : β}
    (all : List.Forall₂ R xs ys) (new : ∀ x, xs[i]? = some x → R x y) :
    List.Forall₂ R xs (ys.set i y) := by
  induction all generalizing i with
  | nil => exact .nil
  | cons here rest ih =>
    cases i with
    | zero => exact .cons (new _ rfl) rest
    | succ i => exact .cons here (ih new)

theorem forall₂_getElem? {α β : Type} {R : α → β → Prop} {xs : List α} {ys : List β} {i : Nat}
    {x : α} {y : β} (all : List.Forall₂ R xs ys) (left : xs[i]? = some x)
    (right : ys[i]? = some y) : R x y := by
  induction all generalizing i with
  | nil => cases left
  | cons here _ ih =>
    cases i with
    | zero =>
      cases left
      cases right
      exact here
    | succ i => exact ih left right

namespace Generator

/-- The values with the given keys are numbered, what is in a register can be stored, and certain
operands wait. -/
structure Stocked (keys : List ValueKey) (numbers : Array (Option NodeId))
    (waiting : List (NodeId × Operand)) (g : Generator) : Prop where
  known : keys <+: g.pool.keys
  numbers : g.numbers = numbers
  placed : ∀ id op, (g.pool.node id).loc = some op → op.Suits (g.pool.node id).ty
  held : List.Forall₂ HeldValue.Continues waiting g.held
  scalar : ∀ w ∈ waiting, ∃ key, keys[w.1.index]? = some key ∧ key.ty.valueClass.isScalar = true

variable {keys keys' : List ValueKey} {numbers : Array (Option NodeId)}
  {waiting : List (NodeId × Operand)} {g : Generator} {id : NodeId} {key : ValueKey}

theorem Stocked.key_eq (start : g.Stocked keys numbers waiting)
    (found : keys[id.index]? = some key) : (g.pool.node id).key = key := by
  rw [ValuePool.key_node, List.getD_eq_getElem?_getD, getElem?_of_grown start.known found,
    Option.getD_some]

theorem Stocked.modify (start : g.Stocked keys numbers waiting) (id : NodeId)
    {change : ValueNode → ValueNode} (same : ∀ v, (change v).key = v.key)
    (place : ∀ op, (change (g.pool.node id)).loc = some op → op.Suits (g.pool.node id).ty) :
    Stocked keys numbers waiting { g with pool := g.pool.modify id change } where
  known := by
    change keys <+: (g.pool.modify id change).keys
    rw [ValuePool.keys_modify g.pool id same]
    exact start.known
  numbers := start.numbers
  placed k op here := by
    change ((g.pool.modify id change).node k).loc = some op at here
    change op.Suits ((g.pool.modify id change).node k).ty
    rw [ValuePool.node_modify] at here ⊢
    split
    · rename_i same'
      rw [if_pos same'] at here
      rw [ValueNode.ty, same]
      obtain ⟨rfl, -⟩ := same'
      exact place op here
    · rename_i other
      rw [if_neg other] at here
      exact start.placed k op here
  held := start.held
  scalar := start.scalar

theorem Stocked.within {g' : Generator} (now : g'.Stocked keys' numbers waiting)
    (start : g.Stocked keys numbers waiting) (grown : keys <+: keys') :
    g'.Stocked keys numbers waiting :=
  ⟨grown.trans now.known, now.numbers, now.placed, now.held, start.scalar⟩

end Generator

namespace Gen

open Generator SelectionTable

variable {α β : Type} {keys : List ValueKey} {numbers : Array (Option NodeId)}
  {waiting : List (NodeId × Operand)} {g : Generator} {id : NodeId} {key : ValueKey} {op : Operand}

abbrev Covers (keys : List ValueKey) (numbers : Array (Option NodeId))
    (waiting : List (NodeId × Operand)) (x : Gen α) (result : α → Prop) : Prop :=
  Keeps (Stocked keys numbers waiting) (fun e _ => e.isMiss = false) x result

theorem Covers.throw {e : CompileError} {result : α → Prop} (other : e.isMiss = false) :
    Covers keys numbers waiting (throw e) result :=
  Keeps.throw fun _ _ => other

theorem covers_modifyGet {f : Generator → α × Generator} (pool : ∀ g, (f g).2.pool = g.pool)
    (held : ∀ g, (f g).2.held = g.held) (numbered : ∀ g, (f g).2.numbers = g.numbers) :
    Covers keys numbers waiting (modifyGet f) fun _ => True := by
  refine .modifyGet fun g start => ⟨?_, trivial⟩
  refine ⟨?_, ?_, ?_, ?_, start.scalar⟩
  · rw [pool]
    exact start.known
  · rw [numbered]
    exact start.numbers
  · rw [pool]
    exact start.placed
  · rw [held]
    exact start.held

theorem covers_modify {f : Generator → Generator} (pool : ∀ g, (f g).pool = g.pool)
    (held : ∀ g, (f g).held = g.held) (numbered : ∀ g, (f g).numbers = g.numbers) :
    Covers keys numbers waiting (modify f) fun _ => True :=
  covers_modifyGet (f := fun g => ((), f g)) pool held numbered

theorem covers_node (id : NodeId) : Covers keys numbers waiting (node id)
    fun v => ∀ op, v.loc = some op → op.Suits v.ty :=
  ⟨fun _ start => ⟨start, start.placed id⟩⟩

theorem covers_known (found : keys[id.index]? = some key) : Covers keys numbers waiting (node id)
    fun v => v.key = key ∧ ∀ op, v.loc = some op → op.Suits key.ty := by
  refine ⟨fun g start => ⟨start, start.key_eq found, fun op here => ?_⟩⟩
  rw [← start.key_eq found]
  exact start.placed id op here

theorem covers_modifyNode (id : NodeId) {change : ValueNode → ValueNode}
    (same : ∀ v, (change v).key = v.key)
    (place : ∀ v op, (∀ op, v.loc = some op → op.Suits v.ty) → (change v).loc = some op →
      op.Suits v.ty) :
    Covers keys numbers waiting (modifyNode id change) fun _ => True :=
  .modify fun _ start => start.modify id same fun op => place _ op (start.placed id)

theorem covers_modifyStats (change : FunctionStats → FunctionStats) :
    Covers keys numbers waiting (modifyStats change) fun _ => True :=
  covers_modify (fun _ => rfl) (fun _ => rfl) fun _ => rfl

theorem covers_onSymbols (step : SymbolTable → α × SymbolTable) :
    Covers keys numbers waiting (onSymbols step) fun _ => True :=
  covers_modifyGet (fun _ => rfl) (fun _ => rfl) fun _ => rfl

theorem covers_allocTemp (owner : NodeId) (size lastRef : Nat) :
    Covers keys numbers waiting (allocTemp owner size lastRef) fun _ => True :=
  covers_modifyGet (fun _ => rfl) (fun _ => rfl) fun _ => rfl

theorem covers_emit (i : Instr) : Covers keys numbers waiting (emit i) fun _ => True :=
  covers_modifyGet (fun _ => rfl) (fun _ => rfl) fun _ => rfl

theorem covers_emit' (i : Instr) : Covers keys numbers waiting (emit' i) fun _ => True :=
  (covers_emit i).bind fun _ _ => .pure trivial

theorem covers_onRegs (step : RegisterFile → Except RegisterError RegisterFile) :
    Covers keys numbers waiting (onRegs step) fun _ => True := by
  unfold onRegs
  refine Keeps.get.bind fun g _ => ?_
  split
  · exact covers_modify (fun _ => rfl) (fun _ => rfl) fun _ => rfl
  · exact Covers.throw rfl

theorem covers_lookup {table : SelectionTable} {k : Nat} (known : (table.find? k).isSome = true) :
    Covers keys numbers waiting (ofExcept (table.lookup k)) fun _ => True := by
  obtain ⟨opcode, found⟩ := Option.isSome_iff_exists.mp known
  rw [SelectionTable.lookup, found]
  exact .pure trivial

theorem covers_moveOpcode {dst src : Format} {c : ValueClass}
    (known : (move.find? (SelectionKey.pack dst src c)).isSome = true) :
    Covers keys numbers waiting (moveOpcode dst src c) fun _ => True :=
  covers_lookup known

theorem covers_isLive (id : NodeId) : Covers keys numbers waiting (isLive id) fun _ => True :=
  (covers_node id).bind fun _ _ => Keeps.get.bind fun _ _ => .pure trivial

theorem covers_usersOf (r : Reg) : Covers keys numbers waiting (usersOf r) fun _ => True :=
  Keeps.get.bind fun _ _ => .pure trivial

theorem covers_isRematerializable (id : NodeId) :
    Covers keys numbers waiting (isRematerializable id) fun _ => True := by
  unfold isRematerializable
  refine (covers_node id).bind fun v _ => ?_
  split <;> exact .pure trivial

theorem covers_dropLocation (id : NodeId) :
    Covers keys numbers waiting (dropLocation id) fun _ => True := by
  unfold dropLocation
  have leave : Covers keys numbers waiting
      (modifyNode id fun v => { v with loc := v.spill.map slotOperand }) fun _ => True := by
    refine covers_modifyNode id (fun _ => rfl) fun v op _ place => ?_
    obtain ⟨slot, -, rfl⟩ := Option.map_eq_some_iff.mp place
    exact Operand.suits_slot slot v.ty
  refine (covers_node id).bind fun v _ => ?_
  split
  · refine (covers_onRegs _).bind fun _ _ => ?_
    split
    · exact (covers_onRegs _).bind fun _ _ => leave
    · exact leave
  · exact leave
  · exact .pure trivial

theorem covers_settle (found : keys[id.index]? = some key) (suits : op.Suits key.ty) :
    Covers keys numbers waiting (settle id op) fun _ => True := by
  unfold settle
  have place : Covers keys numbers waiting (modifyNode id fun v => { v with loc := some op })
      fun _ => True := by
    refine .modify fun g start => start.modify id (fun _ => rfl) fun op' here => ?_
    cases here
    rw [ValueNode.ty, start.key_eq found]
    exact suits
  refine (covers_node id).bind fun v _ => ?_
  dsimp only
  split
  · refine (covers_onRegs _).bind fun _ _ => ?_
    split
    · exact (covers_onRegs _).bind fun _ _ => place
    · exact place
  · exact place

theorem covers_locate (found : keys[id.index]? = some key) (suits : op.Suits key.ty) :
    Covers keys numbers waiting (locate id op) fun _ => True := by
  unfold locate
  refine (covers_node id).bind fun v _ => ?_
  split
  · exact (covers_dropLocation id).bind fun _ _ => covers_settle found suits
  · exact covers_settle found suits

theorem covers_hold (op : Operand) : Covers keys numbers waiting (hold op) fun _ => True :=
  .forM fun _ _ => covers_onRegs _

theorem covers_release (op : Operand) : Covers keys numbers waiting (release op) fun _ => True :=
  .forM fun _ _ => covers_onRegs _

theorem covers_spilled (id : NodeId) (slot : Int) :
    Covers keys numbers waiting (modifyNode id fun v => { v with spill := some slot })
      fun _ => True :=
  covers_modifyNode id (fun _ => rfl) fun _ op placed => placed op

theorem covers_spill (id : NodeId) : Covers keys numbers waiting (spill id) fun _ => True := by
  unfold spill
  refine (covers_node id).bind fun v placed => ?_
  split
  · rename_i lo hi here
    refine (covers_allocTemp _ _ _).bind fun slot _ => ?_
    refine (covers_moveOpcode (find?_store ((placed _ here).2 rfl))).bind fun opcode _ => ?_
    refine (covers_emit' _).bind fun _ _ => ?_
    exact (covers_spilled id slot).bind fun _ _ => covers_modifyStats _
  · exact Covers.throw rfl

theorem covers_evacuate (id : NodeId) :
    Covers keys numbers waiting (evacuate id) fun _ => True := by
  unfold evacuate
  refine (covers_isLive id).bind fun live _ => ?_
  refine (covers_node id).bind fun v _ => ?_
  refine (covers_isRematerializable id).bind fun remade _ => ?_
  split
  · exact (covers_spill id).bind fun _ _ => covers_dropLocation id
  · exact covers_dropLocation id

theorem covers_free (r : Reg) : Covers keys numbers waiting (free r) fun _ => True :=
  (covers_usersOf r).bind fun _ _ => .forM fun id _ => covers_evacuate id

theorem covers_flushRegisters : Covers keys numbers waiting flushRegisters fun _ => True :=
  Keeps.get.bind fun _ _ => .forM fun r _ => covers_free r

theorem covers_allDead (ids : List NodeId) : Covers keys numbers waiting
    (ids.allM fun u => do return !(← isLive u)) fun _ => True :=
  .allM fun u _ => (covers_isLive u).bind fun _ _ => .pure trivial

theorem covers_reap (mask : RegMask) : Covers keys numbers waiting (reap mask) fun _ => True := by
  refine .forM fun r _ => ?_
  unfold reapRegister
  refine Keeps.get.bind fun g _ => ?_
  split
  · exact .pure trivial
  refine (covers_usersOf r).bind fun users _ => ?_
  refine (covers_allDead users).bind fun dead _ => ?_
  split
  · exact .forM fun id _ => covers_dropLocation id
  · exact .pure trivial

theorem covers_registersToMemory (src : Operand) (found : keys[id.index]? = some key)
    (scalar : key.ty.valueClass.isScalar = true) :
    Covers keys numbers waiting (registersToMemory id src) fun mem => ∃ a, mem = .ind a := by
  unfold registersToMemory
  refine (covers_known found).bind ?_
  rintro v ⟨same, -⟩
  split
  · exact .pure ⟨_, rfl⟩
  dsimp only
  split
  · refine (covers_allocTemp _ _ _).bind fun slot _ => ?_
    refine (covers_emit' _).bind fun _ _ => ?_
    exact (covers_spilled id slot).bind fun _ _ => .pure ⟨_, rfl⟩
  · rename_i missing
    have stored := find?_store scalar
    rw [← same] at stored
    rw [ValueNode.ty] at missing
    rw [missing] at stored
    cases stored

theorem covers_demote (mask : RegMask) :
    Covers keys numbers waiting (demote mask) fun _ => True := by
  refine ⟨fun g start => demote_of (fun _ => ⟨start, trivial⟩) fun pos id src bound here reg => ?_⟩
  have inside : pos < waiting.length := start.held.length_eq ▸ bound
  have began : waiting[pos]? = some waiting[pos] := List.getElem?_eq_getElem inside
  have continues := forall₂_getElem? start.held began (List.getElem?_eq_getElem bound)
  rw [here] at continues
  generalize waiting[pos] = w at began continues
  obtain rfl : w = (id, src) := by
    rcases continues with same | ⟨-, a, again⟩
    · cases same
      rfl
    · cases again
  obtain ⟨key, found, scalar⟩ := start.scalar _ (List.mem_of_getElem? began)
  refine ((covers_registersToMemory src found scalar).ends g start).imp ?_
  rintro _ g₁ ⟨start, a, rfl⟩
  refine ((covers_release src).ends g₁ start).imp fun _ g₂ ⟨start, _⟩ stats => ⟨?_, trivial⟩
  refine ⟨start.known, start.numbers, start.placed, ?_, start.scalar⟩
  refine forall₂_set start.held fun w there => ?_
  cases began.symm.trans there
  exact .inr ⟨reg, a, rfl⟩

theorem covers_chooseRegister (mask : RegMask) (tries : Nat) :
    Covers keys numbers waiting (chooseRegister mask tries) fun _ => True := by
  induction tries with
  | zero => exact Covers.throw rfl
  | succ tries ih =>
    unfold chooseRegister
    refine Keeps.get.bind fun g _ => Keeps.get.bind fun g' _ => ?_
    split
    · exact .pure trivial
    refine (covers_demote mask).bind fun moved _ => ?_
    split
    · exact (covers_reap mask).bind fun _ _ => ih
    · exact Covers.throw rfl

theorem covers_alloc (mask : RegMask) : Covers keys numbers waiting (alloc mask) fun _ => True := by
  unfold alloc
  refine (covers_reap mask).bind fun _ _ => ?_
  refine Keeps.get.bind fun g _ => ?_
  refine (covers_chooseRegister mask _).bind fun choice _ => ?_
  cases choice with
  | available r => exact (covers_free r).bind fun _ _ => .pure trivial
  | evict r =>
    refine (covers_modifyStats _).bind fun _ _ => ?_
    exact (covers_free r).bind fun _ _ => .pure trivial

theorem covers_allocValue (ty : CType) :
    Covers keys numbers waiting (allocValue ty) fun op => op.format = .reg := by
  unfold allocValue
  split
  · exact (covers_alloc _).bind fun _ _ => .pure rfl
  refine (covers_alloc _).bind fun lo _ => ?_
  split
  · exact .pure rfl
  refine (covers_onRegs _).bind fun _ _ => ?_
  refine Keeps.bind (.tryFinally (covers_alloc _) (covers_onRegs _) fun e g other => ?_)
    fun hi _ => .pure rfl
  refine (onRegs_spec _ g).mono (fun _ _ _ => other) ?_
  rintro _ _ ⟨cause, -, rfl, -⟩
  rfl

theorem covers_claim {ty : CType} (reg : op.format = .reg)
    (scalar : ty.valueClass.isScalar = true) :
    Covers keys numbers waiting (claim op ty) fun op => op.format = .reg := by
  unfold claim
  refine (Keeps.mapM fun r _ => covers_usersOf r).bind fun users _ => ?_
  refine (covers_allDead _).bind fun dead _ => ?_
  split
  · refine (Keeps.forM fun r _ => ?_).bind fun _ _ => .pure reg
    exact (covers_usersOf r).bind fun _ _ => .forM fun id _ => covers_dropLocation id
  · refine (covers_allocValue ty).bind fun dst reg => ?_
    have entry := find?_move (f := .reg) scalar (by decide) fun same => absurd same (by decide)
    refine (covers_moveOpcode entry).bind fun opcode _ => ?_
    exact (covers_emit' _).bind fun _ _ => .pure reg

theorem covers_loadRegisters (found : keys[id.index]? = some key)
    (scalar : key.ty.valueClass.isScalar = true)
    (address : op.format = .mem → key.ty.valueClass = .u32) :
    Covers keys numbers waiting (loadRegisters id op) fun op => op.format = .reg := by
  unfold loadRegisters
  refine (covers_known found).bind ?_
  rintro v ⟨same, -⟩
  have entry := find?_move scalar op.format_mem_singles address
  rw [← same] at entry
  refine (covers_moveOpcode entry).bind fun opcode _ => ?_
  refine (covers_hold op).bind fun _ _ => ?_
  refine (covers_allocValue _).bind fun dst reg => ?_
  refine (covers_release op).bind fun _ _ => ?_
  refine (covers_emit' _).bind fun _ _ => ?_
  have last : Covers keys numbers waiting (do locate id dst; pure dst) fun op => op.format = .reg :=
    (covers_locate found (Operand.suits_of_reg reg scalar)).bind fun _ _ => .pure reg
  split
  · exact (covers_modifyStats _).bind fun _ _ => last
  · exact last

theorem covers_toMemory (found : keys[id.index]? = some key)
    (scalar : key.ty.valueClass.isScalar = true)
    (address : op.format = .mem → key.ty.valueClass = .u32) :
    Covers keys numbers waiting (toMemory id op) fun op => op.format = .ind := by
  unfold toMemory
  refine (covers_known found).bind ?_
  rintro v ⟨same, -⟩
  split
  · exact .pure rfl
  have last (src : Operand)
      (entry : (move.find? (SelectionKey.pack .ind src.format v.ty.valueClass)).isSome = true) :
      Covers keys numbers waiting (do
        let opcode ← moveOpcode .ind src.format v.ty.valueClass
        let slot ← allocTemp id v.ty.size v.lastRef
        emit' { op := opcode, ty := v.ty.valueClass, dst := some (slotOperand slot),
                src := some src }
        modifyNode id fun n => { n with spill := some slot }
        return slotOperand slot) fun op => op.format = .ind := by
    refine (covers_moveOpcode entry).bind fun opcode _ => ?_
    refine (covers_allocTemp _ _ _).bind fun slot _ => ?_
    refine (covers_emit' _).bind fun _ _ => ?_
    exact (covers_spilled id slot).bind fun _ _ => .pure rfl
  dsimp only
  split
  · rename_i storable
    exact last op storable
  · refine (covers_loadRegisters found scalar address).bind fun src reg => last src ?_
    rw [reg, ValueNode.ty, same]
    exact find?_store scalar

end Gen

end CBackend
