import Mathlib.Data.List.Nodup
import Mathlib.Data.List.Perm.Subperm
import CBackend.Proofs.Numbering.Pool
import CBackend.Proofs.Selection.Handling
import CBackend.Proofs.Selection.Pins

/-!
A walk through selection. A discipline is a property of computations that is kept as operands are
taken in hand and let go, as values are looked up and as registers are handed out. It then holds of
all that selection does. The operands in hand are followed on the way, with how many more can be taken
and which registers they leave.
-/

namespace CBackend

/-- The linear node that a code evaluates or whose value it uses. -/
def Code.operand? : Code → Option LinId
  | arg l | eval l | branch l _ | ret (some l) | zeroFill l _ => some l
  | _ => none

/-- The registers that are handed out for floating values, or for others. -/
def Reg.handedOut (float : Bool) : List Reg :=
  if float then [.f0, .f1] else [.eax, .edx, .ecx, .ebx, .esi, .edi]

theorem Reg.nodup_handedOut (float : Bool) : (handedOut float).Nodup := by
  cases float <;> decide

namespace RegisterFile

variable {f : RegisterFile} {r : Reg} {id : NodeId} {part lastRef : Nat} {e : RegisterError}

theorem mild_of_associate (failed : f.associate r id part lastRef = .error e) :
    (CompileError.invariant (.register e)).grave = false := by
  unfold associate at failed
  dsimp only at failed
  split at failed
  · cases failed
    rfl
  · cases failed

theorem mild_of_dissociate (failed : f.dissociate r id part = .error e) :
    (CompileError.invariant (.register e)).grave = false := by
  unfold dissociate at failed
  dsimp only at failed
  split at failed
  · cases failed
  · cases failed
    rfl

end RegisterFile

namespace Gen

open Generator

theorem Keeps.onRegs {inv : Generator → Prop} {failed : CompileError → Generator → Prop}
    {step : RegisterFile → Except RegisterError RegisterFile}
    (ok : ∀ (g : Generator) regs, step g.regs = .ok regs → inv g → inv { g with regs })
    (error : ∀ (g : Generator) e, step g.regs = .error e → inv g →
      failed (.invariant (.register e)) g) :
    Keeps inv failed (onRegs step) fun _ => True := by
  refine ⟨fun g start => (onRegs_spec step g).mono ?_ ?_⟩
  · rintro _ _ ⟨regs, run, rfl⟩
    exact ⟨ok g regs run start, trivial⟩
  · rintro _ _ ⟨cause, failed, rfl, rfl⟩
    exact error _ cause failed start

/-- What moving values about keeps: an invariant that minds neither who is in which register nor
what is known of a value but where it is. -/
theorem Handles.keeps {α : Type} {fine : Operand → Prop} {moves : Bool} {x : Gen α}
    {result : α → Prop} {inv : Generator → Prop} {failed : CompileError → Generator → Prop}
    (handles : Handles fine moves x result)
    (mild : ∀ e g, e.grave = false → inv g → failed e g)
    (beside : ∀ g g' : Generator, g'.regs = g.regs → g'.pool = g.pool → g'.held = g.held →
      g'.numbers = g.numbers → inv g → inv g')
    (regs : ∀ (g : Generator) regs, g.regs.Rehouses regs → inv g → inv { g with regs })
    (node : ∀ (g : Generator) id change, (∀ v : ValueNode, (change v).key = v.key) →
      (∀ v op, (change v).loc = some op →
        v.loc = some op ∨ (∃ slot, op = slotOperand slot) ∨ fine op) →
      inv g → inv { g with pool := g.pool.modify id change })
    (demotes : moves = true → ∀ mask, Keeps inv failed (Gen.demote mask) fun _ => True)
    (lacks : moves = true → ∀ mask g, inv g → failed (.invariant (.register (.noneAvailable mask))) g) :
    Keeps inv failed x result := by
  induction handles with
  | pure here => exact .pure here
  | throw low => exact .throw fun g => mild _ g low
  | look _ _ ih => exact Keeps.get.bind fun g _ => ih g
  | bind _ _ ih ih' => exact ih.bind ih'
  | allocTemp => exact .modifyGet fun g start => ⟨beside g _ rfl rfl rfl rfl start, trivial⟩
  | emit =>
    have appends (i : Instr) : Keeps inv failed (Gen.emit i) fun _ => True :=
      .modifyGet fun g start => ⟨beside g _ rfl rfl rfl rfl start, trivial⟩
    exact (appends _).bind fun _ _ => .pure trivial
  | modifyStats => exact .modify fun g start => beside g _ rfl rfl rfl rfl start
  | modifyNode id key place => exact .modify fun g start => node g id _ key place start
  | associate =>
    refine .onRegs (fun g f ok => ?_) fun g e stuck => mild _ g (RegisterFile.mild_of_associate stuck)
    exact regs g f (RegisterFile.rehouses_of_associate ok)
  | dissociate =>
    refine .onRegs (fun g f ok => ?_) fun g e stuck => mild _ g (RegisterFile.mild_of_dissociate stuck)
    exact regs g f (RegisterFile.rehouses_of_dissociate ok)
  | demote allowed mask => exact demotes allowed mask
  | lack allowed mask => exact .throw fun g => lacks allowed mask g

end Gen

namespace Operand

/-- No register is read twice, and at most one floating one. -/
structure Neat (op : Operand) : Prop where
  nodup : op.regs.Nodup
  floating : op.regs.countP (· ∈ Reg.handedOut true) ≤ 1

theorem neat_of_length {op : Operand} (one : op.regs.length ≤ 1) : op.Neat :=
  ⟨List.nodup_iff_count_le_one.mpr fun _ => Nat.le_trans List.count_le_length one,
    Nat.le_trans List.countP_le_length one⟩

theorem length_regs_le (op : Operand) : op.regs.length ≤ 2 := by
  cases op with
  | reg lo hi => cases hi <;> simp [regs]
  | mem a | ind a => cases base : a.base <;> simp [regs, base]
  | imm => exact Nat.zero_le 2

/-- Operands that can be taken in hand. If `real`, they read only registers that there are; if
`distinct`, they are neat. -/
structure Fine (real distinct : Prop) (op : Operand) : Prop where
  real : real → op.Real
  distinct : distinct → op.Neat

variable {real distinct : Prop} {lo hi : Reg}

theorem fine_imm (sym : Symbol) : (imm sym).Fine real distinct :=
  ⟨fun _ => real_imm sym, fun _ => neat_of_length (Nat.zero_le 1)⟩

theorem fine_slot (offset : Int) : (slotOperand offset).Fine real distinct :=
  ⟨fun _ => real_slot offset, fun _ => neat_of_length (Nat.le_refl 1)⟩

theorem fine_single (inside : lo.number < Reg.count) : (single lo).Fine real distinct :=
  ⟨fun _ => real_single inside, fun _ => neat_of_length (Nat.le_refl 1)⟩

theorem Fine.low {hi : Option Reg} (fine : (reg lo hi).Fine real distinct) :
    (single lo).Fine real distinct :=
  ⟨fun given => real_single (List.forall_mem_cons.mp (fine.real given)).1,
    fun _ => neat_of_length (Nat.le_refl 1)⟩

theorem Fine.lowPart {op : Operand} (fine : op.Fine real distinct) (ty : CType) :
    (Gen.lowPart ty op).Fine real distinct := by
  unfold Gen.lowPart
  split
  · split
    · exact fine
    · exact fine.low
  · exact fine

end Operand

namespace Holdings

variable {k : Holdings} {w : Nat} {ty : CType}

def unread (k : Holdings) (rs : List Reg) : List Reg :=
  rs.filter fun r => decide (∀ op ∈ k.held, r ∉ op.regs)

/-- There are registers left for a value of the type. -/
def Spares (k : Holdings) (ty : CType) : Prop :=
  (if ty.isFloat then 1 else 2) ≤ (k.unread (Reg.handedOut ty.isFloat)).length

theorem length_unread_hold (k : Holdings) {rs : List Reg} (distinct : rs.Nodup) (op : Operand) :
    (k.unread rs).length ≤ ((k.hold op).unread rs).length + op.regs.countP (· ∈ rs) := by
  have fewer : (k.hold op).unread rs = (k.unread rs).filter fun r => decide (r ∉ op.regs) := by
    simp [unread, hold, List.filter_filter]
  have read : ((k.unread rs).filter fun r => !decide (r ∉ op.regs)).length ≤
      op.regs.countP (· ∈ rs) := by
    rw [List.countP_eq_length_filter]
    refine (List.subperm_of_subset ((distinct.filter _).filter _) fun r inside => ?_).length_le
    simp only [List.mem_filter, Bool.not_eq_true', decide_eq_false_iff_not, not_not] at inside
    exact List.mem_filter.mpr ⟨inside.2, decide_eq_true inside.1.1⟩
  rw [fewer, List.length_eq_length_filter_add fun r => decide (r ∉ op.regs)]
  exact Nat.add_le_add_left read _

theorem spares_pair (dst : Operand) {lhs : Operand} (neat : lhs.Neat) (slot : Int)
    (apart : ty.isFloat = true → dst = lhs ∨ ∀ r ∈ dst.regs, r ∉ Reg.handedOut true) :
    Spares ⟨w, [slotOperand slot, dst, lhs]⟩ ty := by
  unfold Spares
  cases float : ty.isFloat with
  | true =>
    have one := length_unread_hold ⟨w, []⟩ (Reg.nodup_handedOut true) lhs
    have same : unread ⟨w, [slotOperand slot, dst, lhs]⟩ (Reg.handedOut true) =
        unread (hold ⟨w, []⟩ lhs) (Reg.handedOut true) := by
      refine List.filter_congr fun r floating => ?_
      have frame : r ∉ (slotOperand slot).regs := by
        intro base
        cases List.mem_singleton.mp base
        exact absurd floating (by decide)
      rcases apart float with rfl | other
      · simp [hold, frame]
      · have unread : r ∉ dst.regs := fun reads => other r reads floating
        simp [hold, frame, unread]
    have all : (unread ⟨w, []⟩ (Reg.handedOut true)).length = 2 := rfl
    have few := neat.floating
    rw [same, if_pos rfl]
    omega
  | false =>
    have bound (op : Operand) : op.regs.countP (· ∈ Reg.handedOut false) ≤ 2 :=
      Nat.le_trans List.countP_le_length op.length_regs_le
    have distinct := Reg.nodup_handedOut false
    have first := length_unread_hold ⟨w, []⟩ distinct lhs
    have second := length_unread_hold (hold ⟨w, []⟩ lhs) distinct dst
    have third := length_unread_hold (hold (hold ⟨w, []⟩ lhs) dst) distinct (slotOperand slot)
    have all : (unread ⟨w, []⟩ (Reg.handedOut false)).length = 6 := rfl
    have frame : (slotOperand slot).regs.countP (· ∈ Reg.handedOut false) = 0 := rfl
    have few := bound lhs
    have few' := bound dst
    change 2 ≤ (unread (hold (hold (hold ⟨w, []⟩ lhs) dst) (slotOperand slot)) _).length
    omega

theorem Spares.mono {held held' : List Operand} (spares : Spares ⟨w, held⟩ ty) (fewer : held' ⊆ held) :
    Spares ⟨w, held'⟩ ty := by
  refine Nat.le_trans spares (List.Sublist.length_le ?_)
  refine List.monotone_filter_right _ fun r unread => ?_
  rw [decide_eq_true_eq] at unread ⊢
  exact fun op inside => unread op (fewer inside)

theorem spares_one {op : Operand} (neat : op.Neat) {held : List Operand} (slot : Int)
    (only : held ⊆ [slotOperand slot, op, op]) : Spares ⟨w, held⟩ ty :=
  (spares_pair op neat slot fun _ => .inl rfl).mono only

end Holdings

namespace ValuePool

variable (p : ValuePool) (kid : NodeId) (ty : CType) (seq : Nat)

def staged : ValuePool :=
  (p.fresh (.unary .cvt ty kid) 0).2.modify ⟨p.size⟩ fun n => { n with lastRef := seq, pending := 1 }

theorem keys_staged : (p.staged kid ty seq).keys = p.keys ++ [.unary .cvt ty kid] := by
  rw [staged, keys_modify, fresh, keys_push]
  exact fun _ => rfl

theorem found_staged : (p.staged kid ty seq).keys[p.size]? = some (.unary .cvt ty kid) := by
  rw [keys_staged, ← length_keys, List.getElem?_concat_length]

variable {p kid ty seq} in
theorem loc_staged {id : NodeId} {op : Operand} (place : ((p.staged kid ty seq).node id).loc = some op) :
    (p.node id).loc = some op := by
  rw [staged, node_modify, node_fresh] at place
  split at place
  · split at place
    · cases place
    · exact place
  · split at place
    · cases place
    · exact place

end ValuePool

namespace Gen

open Operand

theorem takeHeld_eq (mask : Format) : takeHeld mask = (do
    let h ← popHeld
    if !h.demoted then return h.operand
    let op ← coerce h.node h.operand mask
    hold op
    return op) := by
  unfold takeHeld popHeld
  rw [bind_assoc]
  congr
  funext g
  cases g.held.getLast? with
  | none => rfl
  | some h => rfl

/-- A property of computations. `Runs c n k k' x result` says that in the context `c`, with room for
`n` more operands, `x` leads from what is in hand in `k` to `k'` and to a result as given. -/
structure Discipline where
  Context : Type
  real : Prop
  distinct : Prop
  lax : Prop
  Emits : Instr → Prop
  Knows : Context → NodeId → Nat → Prop
  Is : Context → NodeId → ValueNode → Prop
  Runs : Context → Nat → Holdings → Holdings → {α : Type} → Gen α → (α → Prop) → Prop
  mono {c m n k k' α} {x : Gen α} {result} (enough : m ≤ n ∨ lax) (runs : Runs c m k k' x result) :
    Runs c n k k' x result
  bind {c n k k' α β} {x : Gen α} {f : α → Gen β} {middle result} (first : Runs c n k k x middle)
    (rest : ∀ a, middle a → Runs c n k k' (f a) result) : Runs c n k k' (x >>= f) result
  handles {c n k α} {x : Gen α} {result} (handles : Handles (Fine real distinct) false x result) :
    Runs c n k k x result
  emit {c n k i} (allowed : Emits i) : Runs c n k k (emit' i) fun _ => True
  alloc {c n k} (clear : distinct → k.held = []) :
    Runs c n k k (alloc .general) fun r => r.number < Reg.count
  allocValue {c n k} (ty : CType) (spares : distinct → k.Spares ty) :
    Runs c n k k (allocValue ty) fun op => op.Fine real distinct ∧
      (distinct → ty.isFloat = false → ∀ r ∈ op.regs, r ∉ Reg.handedOut true)
  hold {c n k k' α op} {f : Unit → Gen α} {result} (fine : op.Fine real distinct)
    (rest : Runs c n (k.hold op) k' (f ()) result) : Runs c (n + 1) k k' (hold op >>= f) result
  release {c n k k' α op others} {f : Unit → Gen α} {result} (here : k.held.Perm (op :: others))
    (rest : Runs c (n + 1) { k with held := others } k' (f ()) result) :
    Runs c n k k' (release op >>= f) result
  wait {c n k k' α id op} {f : Unit → Gen α} {result} (fine : op.Fine real distinct)
    (rest : Runs c n k.wait k' (f ()) result) : Runs c (n + 1) k k' (holdValue id op >>= f) result
  take {c n w held k' α} {f : HeldValue → Gen α} {result}
    (rest : ∀ id op, op.Fine real distinct → Runs c n ⟨w, op :: held⟩ k' (f ⟨id, op, false⟩) result)
    (moved : ∀ id op, op.Fine real distinct → (distinct → ∃ slot, op = slotOperand slot) →
      Runs c (n + 1) ⟨w, held⟩ k' (f ⟨id, op, true⟩) result) :
    Runs c n ⟨w + 1, held⟩ k' (popHeld >>= f) result
  node {c n k} (id : NodeId) : Runs c n k k (node id) (Is c id)
  placed {c id v op} (known : Is c id v) (place : v.loc = some op) : op.Fine real distinct
  kid {c id w v l} (knows : Knows c id w) (known : Is c id v) (left : v.key.left = some l) :
    Knows c l w
  kids {c id w v l r} (knows : Knows c id w) (known : Is c id v) (left : v.key.left = some l)
    (right : v.key.right = some r) : Knows c r w ∧ ∃ u, Knows c l u ∧ (u < w ∨ lax)
  stage {c n k k' α kid ty w} {f : NodeId → Gen α} {result} (knows : Knows c kid w)
    (rest : ∀ c' id, Knows c' id w → Runs c' n k k' (f id) result) :
    Runs c n k k' (stage kid ty >>= f) result
  constant {c n k} (value : Int) (ty : CType) :
    Runs c n k k (onSymbols (·.intConst value ty)) fun _ => True
  address {c n k id w v v' sym} (knows : Knows c id w) (known : Is c id v) (op : v.op = .addr)
    (known' : Is c id v') (names : v'.key.sym = some sym) :
    Runs c n k k (addressOf sym) fun a => (mem a).Fine real distinct

namespace Discipline

variable (D : Discipline) {α β : Type} {c : D.Context} {n w : Nat} {k k' : Holdings} {id : NodeId}
  {op : Operand} {x : Gen α} {f : α → Gen β} {result : α → Prop} {result' : β → Prop}

abbrev Fine (op : Operand) : Prop := op.Fine D.real D.distinct

theorem pure {a : α} (here : result a) : D.Runs c n k k (pure a) result := D.handles (.pure here)

theorem throw {e : CompileError} (mild : e.grave = false) : D.Runs c n k k (throw e) result :=
  D.handles (.throw mild)

theorem step (first : Handles D.Fine false x result)
    (rest : ∀ a, result a → D.Runs c n k k' (f a) result') : D.Runs c n k k' (x >>= f) result' :=
  D.bind (D.handles first) rest

theorem spares_held (clear : D.distinct → k.held = []) (fine : D.Fine op) {ty : CType} :
    D.distinct → (k.hold op).Spares ty := by
  intro given
  rw [Holdings.hold, clear given]
  exact Holdings.spares_one (fine.distinct given) 0 (by simp)

theorem spares_slot (clear : D.distinct → k.held = []) (fine : D.Fine op) {ty : CType}
    (given : D.distinct) (slot : Int) : Holdings.Spares ⟨w, slotOperand slot :: op :: k.held⟩ ty := by
  rw [clear given]
  exact Holdings.spares_one (fine.distinct given) slot (by simp)

theorem released {others : List Operand} (here : k.held.Perm (op :: others)) :
    D.Runs c n k { k with held := others } (Gen.release op) fun _ => True := by
  rw [← bind_pure (Gen.release op)]
  exact D.release here (D.pure trivial)

theorem holding {rest : α → Gen β} (fine : D.Fine op)
    (meanwhile : D.Runs c n (k.hold op) (k.hold op) x result)
    (last : ∀ a, result a → D.Runs c (n + 1) k k (rest a) result') :
    D.Runs c (n + 1) k k (do Gen.hold op; let a ← x; Gen.release op; rest a) result' :=
  D.hold fine (D.bind meanwhile fun a here => D.release (.refl _) (last a here))

theorem runs_loadRegisters (id : NodeId) (fine : D.Fine op)
    (spares : D.distinct → ∀ ty, (k.hold op).Spares ty) :
    D.Runs c (n + 1) k k (loadRegisters id op) D.Fine := by
  unfold loadRegisters
  refine D.bind (D.node id) fun v _ => ?_
  refine D.step (handles_moveOpcode _ _ _) fun opcode plain => ?_
  refine D.holding fine (D.allocValue _ fun given => spares given _) fun dst ⟨fine, _⟩ => ?_
  refine D.step (.emit plain) fun _ _ => ?_
  have last : Handles D.Fine false (do locate id dst; Pure.pure dst) D.Fine :=
    (handles_locate id fine).bind fun _ _ => .pure fine
  split
  · exact D.step (.modifyStats _) fun _ _ => D.handles last
  · exact D.handles last

theorem runs_toMemory (id : NodeId) (fine : D.Fine op)
    (spares : D.distinct → ∀ ty, (k.hold op).Spares ty) :
    D.Runs c (n + 1) k k (toMemory id op) D.Fine := by
  unfold toMemory
  refine D.bind (D.node id) fun v _ => ?_
  split
  · exact D.pure (fine_slot _)
  have last (src : Operand) : Handles D.Fine false (do
      let opcode ← moveOpcode .ind src.format v.ty.valueClass
      let slot ← allocTemp id v.ty.size v.lastRef
      emit' { op := opcode, ty := v.ty.valueClass, dst := some (slotOperand slot), src := some src }
      modifyNode id fun n => { n with spill := some slot }
      return slotOperand slot) D.Fine := by
    refine (handles_moveOpcode _ _ _).bind fun opcode plain => ?_
    refine (Handles.allocTemp _ _ _).bind fun slot _ => ?_
    refine (Handles.emit plain).bind fun _ _ => ?_
    exact (handles_spilled id slot).bind fun _ _ => .pure (fine_slot slot)
  dsimp only
  split
  · exact D.handles (last op)
  · exact D.bind (D.runs_loadRegisters id fine spares) fun src _ => D.handles (last src)

theorem runs_coerce (id : NodeId) (fine : D.Fine op) {mask : Format}
    (spares : D.distinct → mask.contains op.format = false →
      mask.contains .reg = true ∨ mask.contains .ind = true → ∀ ty, (k.hold op).Spares ty) :
    D.Runs c (n + 1) k k (coerce id op mask) D.Fine := by
  unfold coerce
  split
  · exact D.pure fine
  rename_i other
  rw [Bool.not_eq_true] at other
  split
  · rename_i reg
    exact D.runs_loadRegisters id fine fun given => spares given other (.inl reg)
  split
  · rename_i ind
    exact D.runs_toMemory id fine fun given => spares given other (.inr ind)
  · exact D.bind (D.node id) fun _ _ => D.throw rfl

theorem takeHeld {mask : Format} {held : List Operand} {f : Operand → Gen β}
    (spares : D.distinct → mask.contains .reg = true → mask.contains .ind = false →
      ∀ slot ty, Holdings.Spares ⟨w, slotOperand slot :: held⟩ ty)
    (rest : ∀ op, D.Fine op → D.Runs c n ⟨w, op :: held⟩ k' (f op) result') :
    D.Runs c n ⟨w + 1, held⟩ k' (takeHeld mask >>= f) result' := by
  rw [takeHeld_eq, bind_assoc]
  refine D.take (fun id op fine => rest op fine) fun id op fine slot => ?_
  change D.Runs c (n + 1) ⟨w, held⟩ k'
    ((coerce id op mask >>= fun op => Gen.hold op >>= fun _ => Pure.pure op) >>= f) result'
  simp only [bind_assoc, pure_bind]
  refine D.bind (D.runs_coerce id fine fun given other some => ?_) fun op fine =>
    D.hold fine (rest op fine)
  obtain ⟨offset, rfl⟩ := slot given
  have ind : mask.contains .ind = false := other
  exact spares given (some.resolve_right (by rw [ind]; nofun)) ind offset

theorem runs_claim (fine : D.Fine op) {ty : CType} (spares : D.distinct → k.Spares ty) :
    D.Runs c n k k (claim op ty) fun dst => D.Fine dst ∧ (D.distinct → ty.isFloat = false →
      dst = op ∨ ∀ r ∈ dst.regs, r ∉ Reg.handedOut true) := by
  unfold claim
  refine D.step (.mapM handles_usersOf) fun users _ => ?_
  refine D.step (handles_allDead _) fun dead _ => ?_
  split
  · refine D.step (.forM fun r => ?_) fun _ _ => D.pure ⟨fine, fun _ _ => .inl rfl⟩
    exact (handles_usersOf r).bind fun _ _ => .forM handles_dropLocation
  · refine D.bind (D.allocValue ty spares) fun dst ⟨fine, general⟩ => ?_
    refine D.step (handles_moveOpcode _ _ _) fun opcode plain => ?_
    exact D.step (.emit plain) fun _ _ => D.pure ⟨fine, fun given plain => .inr (general given plain)⟩

theorem runs_firstKid (knows : D.Knows c id w) :
    D.Runs c n k k (firstKid id) fun l => D.Knows c l w := by
  unfold firstKid
  refine D.bind (D.node id) fun v known => ?_
  split
  · rename_i left
    exact D.pure (D.kid knows known left)
  · exact D.throw rfl

theorem runs_bothKids (knows : D.Knows c id w) : D.Runs c n k k (bothKids id)
    fun kids => D.Knows c kids.2 w ∧ ∃ u, D.Knows c kids.1 u ∧ (u < w ∨ D.lax) := by
  unfold bothKids
  refine D.bind (D.node id) fun v known => ?_
  dsimp only
  split
  · rename_i left right
    exact D.pure (D.kids knows known left right)
  · exact D.throw rfl

theorem runs_leafSymbol (id : NodeId) : D.Runs c n k k (leafSymbol id)
    fun sym => ∃ v, D.Is c id v ∧ v.key.sym = some sym := by
  unfold leafSymbol
  refine D.bind (D.node id) fun v known => ?_
  split
  · rename_i names
    exact D.pure ⟨v, known, names⟩
  · exact D.throw rfl

theorem runs_derefAddress (fine : D.Fine op) :
    D.Runs c n k k (derefAddress op) fun a => D.Fine (.ind a) := by
  unfold derefAddress
  split
  · exact D.pure ⟨fine.real, fun given => ⟨(fine.distinct given).nodup, (fine.distinct given).floating⟩⟩
  · exact D.pure ⟨fine.low.real, fun _ => neat_of_length (Nat.le_refl 1)⟩
  · exact D.throw rfl

section Operators

variable {select : Selector}
  (asks : ∀ c k id mask w, D.Knows c id w → (D.distinct → k.held = []) →
    D.Runs c (w + 2) k k (select id mask) D.Fine)
  (clear : D.distinct → k.held = [])
include asks clear

theorem runs_selectBinary (knows : D.Knows c id w) :
    D.Runs c (w + 2) k k (selectBinary select id) D.Fine := by
  unfold selectBinary
  refine D.bind (D.node id) fun v _ => ?_
  refine D.bind (D.runs_bothKids knows) fun (l, r) ⟨right, u, left, less⟩ => ?_
  refine D.step (handles_forOp v.op) fun table found => ?_
  refine D.bind (asks c k r _ w right clear) fun rhs fineRhs => ?_
  -- One more operand waits while the left side is computed, which lets one less wait.
  refine D.mono (m := u + 3) (less.imp_left (by omega)) ?_
  refine D.wait fineRhs ?_
  refine D.bind (asks c _ l _ u left clear) fun lhs fineLhs => ?_
  refine D.hold fineLhs ?_
  refine D.bind (D.runs_claim fineLhs (D.spares_held clear fineLhs)) fun dst ⟨fineDst, apart⟩ => ?_
  refine D.hold fineDst ?_
  refine D.takeHeld (fun given reg ind slot ty => ?_) fun rhs fineRhs => ?_
  · -- Tables for floating values take a source in memory as it is.
    have plain : v.ty.isFloat = false := by
      by_contra float
      rw [SelectionTable.float_sources found (Bool.not_eq_false _ ▸ float) reg] at ind
      cases ind
    rw [Holdings.hold, Holdings.wait, clear given]
    exact Holdings.spares_pair _ (fineLhs.distinct given) slot fun _ => apart given plain
  refine D.release (.swap ..) ?_
  refine D.step (handles_lookup (SelectionTable.plain_forOp found) _) fun opcode plain => ?_
  refine D.step (.emit plain) fun _ _ => ?_
  refine D.release (.swap ..) ?_
  refine D.release (.refl _) ?_
  exact D.handles ((handles_locate id fineDst).bind fun _ _ => .pure fineDst)

theorem runs_selectUnary (knows : D.Knows c id w) :
    D.Runs c (w + 2) k k (selectUnary select id) D.Fine := by
  unfold selectUnary
  refine D.bind (D.node id) fun v _ => ?_
  refine D.step (handles_forOp v.op) fun table found => ?_
  refine D.step (handles_lookup (SelectionTable.plain_forOp found) _) fun opcode plain => ?_
  refine D.bind (D.runs_firstKid knows) fun kid knows => ?_
  refine D.bind (asks c k kid _ w knows clear) fun v fine => ?_
  refine D.holding fine (D.runs_claim fine (D.spares_held clear fine)) fun dst ⟨fine, _⟩ => ?_
  refine D.step (.emit plain) fun _ _ => ?_
  exact D.handles ((handles_locate id fine).bind fun _ _ => .pure fine)

theorem runs_compareKids (knows : D.Knows c id w) :
    D.Runs c (w + 2) k k (compareKids select id) fun _ => True := by
  unfold compareKids
  refine D.bind (D.runs_bothKids knows) fun (l, r) ⟨right, u, left, less⟩ => ?_
  refine D.bind (D.node l) fun v _ => ?_
  refine D.bind (asks c k r _ w right clear) fun rhs fineRhs => ?_
  refine D.mono (m := u + 3) (less.imp_left (by omega)) ?_
  refine D.wait fineRhs ?_
  refine D.bind (asks c _ l _ u left clear) fun lhs fineLhs => ?_
  refine D.hold fineLhs ?_
  refine D.takeHeld (fun given _ _ slot _ => ?_) fun rhs fineRhs => ?_
  · exact D.spares_slot clear fineLhs given slot
  refine D.step (handles_lookup SelectionTable.plain_cmp _) fun opcode plain => ?_
  refine D.step (.emit plain) fun _ _ => ?_
  exact D.release (.swap ..) (D.released (.refl _))

theorem runs_selectComparison (knows : D.Knows c id w) (cond : Cond) :
    D.Runs c (w + 2) k k (selectComparison select id cond) D.Fine := by
  unfold selectComparison
  refine D.bind (D.runs_compareKids asks clear knows) fun _ _ => ?_
  refine D.bind (D.alloc clear) fun r inside => ?_
  have fine : D.Fine (.single r) := fine_single inside
  refine D.step (.emit rfl) fun _ _ => ?_
  exact D.handles ((handles_locate id fine).bind fun _ _ => .pure fine)

theorem runs_convert {kid : NodeId} (knows : D.Knows c kid w) (id : NodeId) (ty srcTy : CType) :
    D.Runs c (w + 2) k k (convert select id kid ty srcTy) D.Fine := by
  unfold convert
  dsimp only
  split
  · exact D.throw rfl
  refine D.bind (asks c k kid _ w knows clear) fun v fine => ?_
  refine D.holding fine (D.allocValue ty (D.spares_held clear fine)) fun dst ⟨fine, _⟩ => ?_
  refine D.step (handles_lookup SelectionTable.plain_convert _) fun opcode plain => ?_
  refine D.step (.emit plain) fun _ _ => ?_
  exact D.handles ((handles_locate id fine).bind fun _ _ => .pure fine)

theorem runs_selectConversion (knows : D.Knows c id w) :
    D.Runs c (w + 2) k k (selectConversion select id) D.Fine := by
  unfold selectConversion
  refine D.bind (D.node id) fun v _ => ?_
  refine D.bind (D.runs_firstKid knows) fun kid knows => ?_
  refine D.bind (D.node kid) fun v' _ => ?_
  dsimp only
  split
  · split
    · exact D.bind (asks c k kid _ w knows clear) fun _ fine => D.pure (fine.lowPart _)
    · exact D.runs_convert asks clear knows id _ _
  split
  · split
    · exact D.stage knows fun _ _ knows => D.runs_convert asks clear knows id _ _
    · exact D.runs_convert asks clear knows id _ _
  split
  · split
    · exact D.runs_convert asks clear knows id _ _
    · refine D.stage knows fun c s knows => ?_
      refine D.bind (asks c k s _ w knows clear) fun op fine => ?_
      have low := fine.lowPart v.ty
      exact D.handles ((handles_locate id low).bind fun _ _ => .pure low)
  split
  · exact D.runs_convert asks clear knows id _ _
  · exact D.throw rfl

theorem runs_compute (knows : D.Knows c id w) :
    D.Runs c (w + 2) k k (compute select id) D.Fine := by
  unfold compute
  refine D.bind (D.node id) fun v known => ?_
  cases op : v.op with
  | const => exact D.bind (D.runs_leafSymbol id) fun _ _ => D.pure (fine_imm _)
  | addr =>
    refine D.bind (D.runs_leafSymbol id) fun sym ⟨v', known', names⟩ => ?_
    exact D.bind (D.address knows known op known' names) fun _ fine => D.pure fine
  | load =>
    refine D.bind (D.runs_firstKid knows) fun kid knows => ?_
    refine D.bind (asks c k kid _ w knows clear) fun op fine => ?_
    exact D.bind (D.runs_derefAddress fine) fun _ fine => D.pure fine
  | neg | compl => exact D.runs_selectUnary asks clear knows
  | cmp cond => exact D.runs_selectComparison asks clear knows cond
  | cvt => exact D.runs_selectConversion asks clear knows
  | add | sub | mul | div | mod | and | or | xor | shl | shr =>
    exact D.runs_selectBinary asks clear knows
  | assign | call => exact D.throw rfl

end Operators

theorem runs_selectWithin (fuel : Nat) (c : D.Context) (k : Holdings) (id : NodeId) (mask : Format)
    (w : Nat) (knows : D.Knows c id w) (clear : D.distinct → k.held = []) :
    D.Runs c (w + 2) k k (selectWithin fuel id mask) D.Fine := by
  induction fuel generalizing c k id mask w with
  | zero => exact D.throw rfl
  | succ fuel ih =>
    unfold selectWithin
    have use : Handles D.Fine false (modifyNode id fun n => { n with pending := n.pending - 1 })
        fun _ => True := .modifyNode id (fun _ => rfl) fun _ _ place => .inl place
    refine D.step use fun _ _ => ?_
    refine D.bind (D.node id) fun v known => ?_
    dsimp only
    split
    · rename_i op place
      have fine := D.placed known place
      exact D.runs_coerce id fine fun given _ _ _ => D.spares_held clear fine given
    · refine D.bind (D.runs_compute ih clear knows) fun op fine => ?_
      exact D.runs_coerce id fine fun given _ _ _ => D.spares_held clear fine given

theorem runs_select (c : D.Context) (k : Holdings) (id : NodeId) (mask : Format) (w : Nat)
    (knows : D.Knows c id w) (clear : D.distinct → k.held = []) :
    D.Runs c (w + 2) k k (select id mask) D.Fine :=
  D.runs_selectWithin _ c k id mask w knows clear

section Statements

variable (clear : D.distinct → k.held = [])
include clear

theorem runs_selectAssign (knows : D.Knows c id w) :
    D.Runs c (w + 2) k k (selectAssign select id) fun _ => True := by
  unfold selectAssign
  refine D.bind (D.node id) fun n _ => ?_
  refine D.bind (D.runs_bothKids knows) fun (a, v) ⟨right, u, left, less⟩ => ?_
  refine D.bind (D.runs_select c k v _ w right clear) fun src fineSrc => ?_
  refine D.mono (m := u + 3) (less.imp_left (by omega)) ?_
  refine D.wait fineSrc ?_
  refine D.bind (D.runs_select c _ a _ u left clear) fun pointer finePointer => ?_
  refine D.bind (D.runs_derefAddress finePointer) fun address fineTarget => ?_
  refine D.hold fineTarget ?_
  refine D.takeHeld (fun given _ _ slot _ => D.spares_slot clear fineTarget given slot) fun src _ => ?_
  refine D.release (.swap ..) ?_
  split
  · exact D.step (.emit rfl) fun _ _ => D.released (.refl _)
  · exact D.step (handles_moveTo _ _ _) fun _ _ => D.released (.refl _)

theorem runs_pushArg (knows : D.Knows c id w) :
    D.Runs c (w + 2) k k (pushArg select id) fun _ => True := by
  unfold pushArg
  refine D.bind (D.node id) fun v _ => ?_
  refine D.bind (D.runs_select c k id _ w knows clear) fun op _ => ?_
  refine D.step (handles_lookup SelectionTable.plain_push _) fun _ plain => ?_
  exact D.handles (.emit plain)

theorem runs_returnValue (knows : D.Knows c id w) :
    D.Runs c (w + 2) k k (returnValue select id) fun _ => True := by
  unfold returnValue
  refine D.bind (D.node id) fun v _ => ?_
  dsimp only
  split
  · exact D.pure trivial
  refine D.bind (D.runs_select c k id _ w knows clear) fun op fine => ?_
  split
  · exact D.pure trivial
  have last {op : Operand} (fine : D.Fine op) : D.Runs c (w + 2) k k (do
      Gen.hold op
      (returnOperand v.ty).regs.forM free
      Gen.release op
      moveTo v.ty.valueClass (returnOperand v.ty) op) fun _ => True := by
    refine D.holding fine (D.handles (.forM handles_free)) fun _ _ => ?_
    exact D.handles (handles_moveTo _ _ _)
  split
  · refine D.bind (D.runs_toMemory id fine fun given _ => ?_) fun op fine => last fine
    exact D.spares_held clear fine given
  · exact last fine

theorem runs_selectZeroFill (knows : D.Knows c id w) (bytes : Nat) :
    D.Runs c (w + 2) k k (selectZeroFill select id bytes) fun _ => True := by
  unfold selectZeroFill
  refine D.bind (D.runs_select c k id _ w knows clear) fun op fine => ?_
  exact D.bind (D.runs_derefAddress fine) fun _ _ => D.handles (.emit rfl)

end Statements

theorem runs_callResult (id : NodeId) (ty : CType) : D.Runs c n k k (do
    if ty = .void then
      let zero ← onSymbols (·.intConst 0 .int)
      locate id (.imm zero)
    else if ty.isFloat then locate id (.single .f0)
    else if ty.isWide then locate id (.pair .eax .edx)
    else if ty.isStruct then MonadExcept.throw (.invariant .structInRegisters)
    else locate id (.single .eax)) fun _ => True := by
  split
  · exact D.bind (D.constant 0 .int) fun _ _ => D.handles (handles_locate id (fine_imm _))
  refine D.handles ?_
  split
  · exact handles_locate id (fine_single (by decide))
  split
  · refine handles_locate id ⟨fun _ => real_pair (by decide) (by decide), fun _ => ⟨?_, ?_⟩⟩
    · decide
    · decide
  split
  · exact .throw rfl
  · exact handles_locate id (fine_single (by decide))

section Codes

variable (all : ∀ i, D.Emits i)
include all

theorem runs_selectJump (target : Symbol) : D.Runs c n k k (selectJump target) fun _ => True :=
  D.step handles_flushRegisters fun _ _ => D.emit (all _)

theorem runs_selectLabel (label : Symbol) : D.Runs c n k k (selectLabel label) fun _ => True :=
  D.step handles_flushRegisters fun _ _ => D.emit (all _)

section Operands

variable (clear : D.distinct → k.held = [])
include clear

theorem runs_selectBranch (knows : D.Knows c id w) (target : Symbol) :
    D.Runs c (w + 2) k k (selectBranch select id target) fun _ => True := by
  unfold selectBranch
  refine D.bind (D.node id) fun v _ => ?_
  split
  · refine D.bind (D.runs_compareKids D.runs_select clear knows) fun _ _ => ?_
    exact D.step handles_flushRegisters fun _ _ => D.emit (all _)
  · exact D.throw rfl

theorem runs_selectCall (knows : D.Knows c id w) :
    D.Runs c (w + 2) k k (selectCall select id) fun _ => True := by
  unfold selectCall
  refine D.bind (D.node id) fun n _ => ?_
  refine D.bind (D.runs_firstKid knows) fun callee knows => ?_
  refine D.bind (D.runs_select c k callee _ w knows clear) fun target fine => ?_
  refine D.step (handles_entry _ _) fun opcode _ => ?_
  refine D.hold fine ?_
  rw [← bind_assoc]
  refine D.step (.look (fun _ _ => rfl) fun _ => handles_freeUnpinned _) fun _ _ => ?_
  rw [← bind_assoc]
  refine D.step (.look (fun _ _ => rfl) fun _ => handles_saveUsers _) fun _ _ => ?_
  refine D.bind (D.emit (all _)) fun _ _ => ?_
  refine D.release (.refl _) ?_
  refine D.step handles_flushRegisters fun _ _ => ?_
  dsimp only
  split
  · refine D.bind (D.constant _ _) fun bytes _ => ?_
    exact D.bind (D.emit (all _)) fun _ _ => D.runs_callResult id n.ty
  · exact D.runs_callResult id n.ty

theorem runs_selectEffect (knows : D.Knows c id w) :
    D.Runs c (w + 2) k k (selectEffect select id) fun _ => True := by
  unfold selectEffect
  refine D.bind (D.node id) fun v _ => ?_
  split
  · exact D.runs_selectAssign clear knows
  · exact D.runs_selectCall all clear knows
  · exact D.throw rfl

theorem runs_selectCode (f : LinearFunction) (pos : Nat)
    (numbered : ∀ l ∈ (f.codes.getD pos default).operand?, ∀ rest : NodeId → Gen Unit,
      (∀ c id, D.Knows c id w → D.Runs c (w + 2) k k (rest id) fun _ => True) →
      D.Runs c (w + 2) k k (numberOf l >>= rest) fun _ => True)
    (missing : ∀ l, f.codes.getD pos default = .eval l → f.nodes.size ≤ l.index →
      D.Runs c (w + 2) k k
        (MonadExcept.throw (CompileError.invariant (.aborted (.danglingNode l))) : Gen Unit)
        fun _ => True)
    (enter : ∀ id, D.Runs c (w + 2) k k (modify fun g => { g with enter := some id }) fun _ => True)
    (opening : ∀ i, D.Runs c (w + 2) k k (Gen.emit i) fun _ => True)
    (shape : D.Runs c (w + 2) k k (shapeFrame (f.codes.getD pos default)) fun _ => True) :
    D.Runs c (w + 2) k k (selectCode select f pos) fun _ => True := by
  unfold selectCode
  revert numbered missing shape
  cases f.codes.getD pos default with
  | eval l =>
    intro numbered missing _
    dsimp only
    rw [nodeAt_bind]
    split
    case isFalse dangling => exact missing l rfl (Nat.le_of_not_lt dangling)
    split
    · exact numbered l rfl _ fun _ _ knows => D.runs_selectEffect all clear knows
    · exact D.pure trivial
  | arg l => exact fun numbered _ _ => numbered l rfl _ fun _ _ knows => D.runs_pushArg clear knows
  | jump target => exact fun _ _ _ => D.runs_selectJump all target
  | branch l target =>
    exact fun numbered _ _ => numbered l rfl _ fun _ _ knows =>
      D.runs_selectBranch all clear knows target
  | label l => exact fun _ _ _ => D.runs_selectLabel all l
  | ret value =>
    intro numbered _ _
    have last (c : D.Context) : D.Runs c (w + 2) k k (if f.codes[pos + 1]? ≠ some (.label f.exit)
        then selectJump f.exit else Pure.pure ()) fun _ => True := by
      split
      · exact D.runs_selectJump all _
      · exact D.pure trivial
    cases value with
    | none => exact last c
    | some l =>
      refine numbered l rfl _ fun c _ knows => ?_
      exact D.bind (D.runs_returnValue clear knows) fun _ _ => last c
  | zeroFill l bytes =>
    exact fun numbered _ _ => numbered l rfl _ fun _ _ knows =>
      D.runs_selectZeroFill clear knows bytes
  | frameEnter => exact fun _ _ _ => D.bind (opening _) fun id _ => enter id
  | frameExit => exact fun _ _ _ => D.bind (D.emit (all _)) fun _ _ => D.emit (all _)
  | blockEnter | blockLeave | declare => exact fun _ _ shape => shape

end Operands

end Codes

end Discipline

end Gen

end CBackend
