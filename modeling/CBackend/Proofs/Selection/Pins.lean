import CBackend.Proofs.Selection.Allocation
import CBackend.Selection.Rules

/-!
Pins and what they are for. While an instruction is put together some of its operands are held, and
others wait and may be moved to memory. A register is pinned once for each time that one of them
reads it. Selection is taken apart here into single steps, and the account of the pins is kept
before, between and after them.
-/

namespace CBackend

namespace RegisterFile

variable {f f' : RegisterFile} {r : Reg}

/-- The registers differ only in who is in them; none becomes reserved. -/
structure Rehouses (f f' : RegisterFile) : Prop where
  limit : f'.pinLimit = f.pinLimit
  pins : ∀ r, (f'.get r).pins = (f.get r).pins
  usable : ∀ r, f.state r ≠ .reserved → f'.state r ≠ .reserved

@[simp] theorem pinLimit_set (f : RegisterFile) (r : Reg) (d : RegDescriptor) :
    (f.set r d).pinLimit = f.pinLimit := by
  unfold set
  split <;> rfl

theorem rehouses_set {d : RegDescriptor} (pins : d.pins = (f.get r).pins)
    (state : f.state r ≠ .reserved → d.state ≠ .reserved) : f.Rehouses (f.set r d) := by
  by_cases inside : r.number < Reg.count
  · refine ⟨pinLimit_set f r d, fun s => ?_, fun s usable => ?_⟩
    · by_cases here : r = s
      · subst here
        rw [get_set_self f inside, pins]
      · rw [get_set_other f here]
    · by_cases here : r = s
      · subst here
        rw [RegisterFile.state, get_set_self f inside]
        exact state usable
      · rwa [RegisterFile.state, get_set_other f here]
  · have same : f.set r d = f := by simp [set, inside]
    rw [same]
    exact ⟨rfl, fun _ => rfl, fun _ usable => usable⟩

theorem rehouses_of_associate {node : NodeId} {part lastRef : Nat}
    (ok : f.associate r node part lastRef = .ok f') : f.Rehouses f' := by
  unfold associate at ok
  dsimp only at ok
  split at ok
  · cases ok
  · cases ok
    exact rehouses_set rfl fun _ => nofun

theorem rehouses_of_dissociate {node : NodeId} {part : Nat}
    (ok : f.dissociate r node part = .ok f') : f.Rehouses f' := by
  unfold dissociate at ok
  dsimp only at ok
  split at ok
  · cases ok
    refine rehouses_set rfl fun usable => ?_
    split
    · nofun
    · exact usable
  · cases ok

theorem Rehouses.mem_usable {mask : RegMask} (kept : f.Rehouses f') (usable : r ∈ f.usable mask) :
    r ∈ f'.usable mask := by
  rw [mem_usable_iff, isPinned] at usable ⊢
  rw [kept.pins]
  exact ⟨usable.1, kept.usable r usable.2.1, usable.2.2⟩

theorem pins_of_pin (real : r.number < Reg.count) (ok : f.pin r = .ok f') (s : Reg) :
    (f'.get s).pins = (f.get s).pins + if r == s then 1 else 0 := by
  unfold pin at ok
  dsimp only at ok
  split at ok
  · cases ok
  · cases ok
    by_cases here : r = s
    · subst here
      simp [get_set_self f real]
    · simp [get_set_other f here, here]

theorem pin_eq_error {e : RegisterError} (failed : f.pin r = .error e) :
    f.pinLimit = some (f.get r).pins ∧ e = .pinOverflow r := by
  unfold pin at failed
  dsimp only at failed
  split at failed
  · rename_i full
    cases failed
    exact ⟨full, rfl⟩
  · cases failed

theorem pinLimit_pin (ok : f.pin r = .ok f') : f'.pinLimit = f.pinLimit := by
  unfold pin at ok
  dsimp only at ok
  split at ok
  · cases ok
  · cases ok
    exact pinLimit_set f r _

theorem pinLimit_unpin (ok : f.unpin r = .ok f') : f'.pinLimit = f.pinLimit := by
  unfold unpin at ok
  dsimp only at ok
  split at ok
  · cases ok
  · cases ok
    exact pinLimit_set f r _

theorem unpin_eq_error {e : RegisterError} (failed : f.unpin r = .error e) : e = .pinUnderflow r := by
  unfold unpin at failed
  dsimp only at failed
  split at failed
  · cases failed
    rfl
  · cases failed

theorem unpin_run (real : r.number < Reg.count) (pinned : 0 < (f.get r).pins) :
    ∃ f', f.unpin r = .ok f' ∧
      ∀ s, (f.get s).pins = (f'.get s).pins + if r == s then 1 else 0 := by
  refine ⟨_, if_neg (Nat.ne_of_gt pinned), fun s => ?_⟩
  by_cases here : r = s
  · subst here
    rw [get_set_self f real, beq_self_eq_true, if_pos rfl]
    exact (Nat.sub_add_cancel pinned).symm
  · simp [get_set_other f here, here]

end RegisterFile

namespace Operand

def Real (op : Operand) : Prop := ∀ r ∈ op.regs, r.number < Reg.count

theorem real_imm (sym : Symbol) : (imm sym).Real := List.forall_mem_nil _

theorem real_slot (offset : Int) : (slotOperand offset).Real :=
  List.forall_mem_singleton.mpr (by decide)

theorem real_single {r : Reg} (real : r.number < Reg.count) : (single r).Real :=
  List.forall_mem_singleton.mpr real

theorem real_pair {lo hi : Reg} (low : lo.number < Reg.count) (high : hi.number < Reg.count) :
    (pair lo hi).Real :=
  List.forall_mem_cons.mpr ⟨low, List.forall_mem_singleton.mpr high⟩

end Operand

def Reg.readings (r : Reg) (ops : List Operand) : Nat := (ops.flatMap Operand.regs).count r

theorem Reg.readings_cons (r : Reg) (op : Operand) (ops : List Operand) :
    r.readings (op :: ops) = op.regs.count r + r.readings ops := by
  simp [readings]

theorem Reg.readings_append (r : Reg) (ops ops' : List Operand) :
    r.readings (ops ++ ops') = r.readings ops + r.readings ops' := by
  simp [readings]

theorem Reg.readings_perm {ops ops' : List Operand} (same : ops.Perm ops') (r : Reg) :
    r.readings ops = r.readings ops' :=
  (same.flatMap_right _).count_eq r

def HeldValue.pinned (hs : List HeldValue) : List Operand :=
  (hs.filter fun h => !h.demoted).map operand

theorem HeldValue.pinned_append (hs hs' : List HeldValue) :
    pinned (hs ++ hs') = pinned hs ++ pinned hs' := by
  simp [pinned]

theorem HeldValue.pinned_cons (h : HeldValue) (hs : List HeldValue) :
    pinned (h :: hs) = if h.demoted then pinned hs else h.operand :: pinned hs := by
  cases moved : h.demoted <;> simp [pinned, moved]

/-- What selection has in hand: the number of operands that wait, and the operands that are held. -/
structure Holdings where
  waiting : Nat
  held : List Operand

namespace Holdings

def none : Holdings := ⟨0, []⟩

def hold (k : Holdings) (op : Operand) : Holdings := { k with held := op :: k.held }

def wait (k : Holdings) : Holdings := { k with waiting := k.waiting + 1 }

/-- An operand that waited is held from now on, unless it has been moved to memory. -/
def take (k : Holdings) (h : HeldValue) : Holdings where
  waiting := k.waiting - 1
  held := if h.demoted then k.held else h.operand :: k.held

end Holdings

namespace Generator

def Located (g : Generator) : Prop := ∀ id op, (g.pool.node id).loc = some op → op.Real

/-- Each register is pinned as often as operands that wait or are held read it. -/
structure Accounted (k : Holdings) (g : Generator) : Prop where
  pins : ∀ r, (g.regs.get r).pins = r.readings (HeldValue.pinned g.held) + r.readings k.held
  waiting : g.held.length = k.waiting
  held : ∀ op ∈ k.held, op.Real
  waits : ∀ h ∈ g.held, h.operand.Real
  located : g.Located

variable {g g' : Generator} {k : Holdings} {regs : RegisterFile} {op : Operand}

theorem Located.modify (located : g.Located) (id : NodeId) {change : ValueNode → ValueNode}
    (place : ∀ v, (∀ op, v.loc = some op → op.Real) → ∀ op, (change v).loc = some op → op.Real) :
    ({ g with pool := g.pool.modify id change } : Generator).Located := by
  intro k op
  change ((g.pool.modify id change).node k).loc = some op → _
  rw [ValuePool.node_modify]
  split
  · exact place _ (located k) op
  · exact located k op

theorem Accounted.congr (start : g.Accounted k) (pins : ∀ r, (g'.regs.get r).pins = (g.regs.get r).pins)
    (held : g'.held = g.held) (located : g'.Located) : g'.Accounted k where
  pins r := by
    rw [pins, held]
    exact start.pins r
  waiting := held ▸ start.waiting
  held := start.held
  waits := held ▸ start.waits
  located := located

theorem Accounted.hold (start : g.Accounted k) (real : op.Real)
    (pins : ∀ r, (regs.get r).pins = (g.regs.get r).pins + op.regs.count r) :
    ({ g with regs } : Generator).Accounted (k.hold op) where
  pins r := by
    change (regs.get r).pins = r.readings (HeldValue.pinned g.held) + r.readings (op :: k.held)
    rw [pins, start.pins, Reg.readings_cons]
    omega
  waiting := start.waiting
  held := List.forall_mem_cons.mpr ⟨real, start.held⟩
  waits := start.waits
  located := start.located

theorem Accounted.release {rest : List Operand} (start : g.Accounted k)
    (here : k.held.Perm (op :: rest))
    (pins : ∀ r, (g.regs.get r).pins = (regs.get r).pins + op.regs.count r) :
    ({ g with regs } : Generator).Accounted { k with held := rest } where
  pins r := by
    change (regs.get r).pins = r.readings (HeldValue.pinned g.held) + r.readings rest
    have before := start.pins r
    rw [pins, Reg.readings_perm here, Reg.readings_cons] at before
    omega
  waiting := start.waiting
  held op inside := start.held op (here.mem_iff.mpr (List.mem_cons_of_mem _ inside))
  waits := start.waits
  located := start.located

theorem Accounted.wait {id : NodeId} (start : g.Accounted (k.hold op)) :
    ({ g with held := g.held ++ [⟨id, op, false⟩] } : Generator).Accounted k.wait where
  pins r := by
    have before := start.pins r
    simp only [Holdings.hold, Reg.readings_cons] at before
    simp only [HeldValue.pinned_append, HeldValue.pinned_cons, Reg.readings_append, Reg.readings_cons,
      Bool.false_eq_true, if_false, Holdings.wait]
    change _ = _ + (_ + 0) + _
    omega
  waiting := by simp [start.waiting, Holdings.wait, Holdings.hold]
  held op inside := start.held op (List.mem_cons_of_mem _ inside)
  waits := by
    have real : op.Real := start.held op List.mem_cons_self
    exact List.forall_mem_append.mpr ⟨start.waits, List.forall_mem_singleton.mpr real⟩
  located := start.located

theorem Accounted.take {h : HeldValue} (start : g.Accounted k) {before : List HeldValue}
    (whole : g.held = before ++ [h]) :
    ({ g with held := before } : Generator).Accounted (k.take h) where
  pins r := by
    have count := start.pins r
    rw [whole, HeldValue.pinned_append, HeldValue.pinned_cons, Reg.readings_append] at count
    rw [count, Holdings.take, Nat.add_assoc, Nat.add_left_cancel_iff]
    cases h.demoted with
    | true => exact Nat.zero_add _
    | false => simp [Reg.readings, HeldValue.pinned]
  waiting := by simp [← start.waiting, whole, Holdings.take]
  held op inside := by
    have real : h.operand.Real := start.waits h (by simp [whole])
    cases moved : h.demoted with
    | true =>
      simp only [Holdings.take, moved, if_true] at inside
      exact start.held op inside
    | false =>
      simp only [Holdings.take, moved, Bool.false_eq_true, if_false, List.mem_cons] at inside
      rcases inside with rfl | old
      · exact real
      · exact start.held op old
  waits h' inside := start.waits h' (by simp [whole, inside])
  located := start.located

theorem Accounted.demote {id : NodeId} {mem : Operand} {before after : List HeldValue}
    (start : g.Accounted k) (whole : g.held = before ++ ⟨id, op, false⟩ :: after) (real : mem.Real)
    (pins : ∀ r, (g.regs.get r).pins = (regs.get r).pins + op.regs.count r) :
    ({ g with regs, held := before ++ ⟨id, mem, true⟩ :: after } : Generator).Accounted k where
  pins r := by
    have count := start.pins r
    rw [whole, pins] at count
    simp only [HeldValue.pinned_append, HeldValue.pinned_cons, Reg.readings_append, Reg.readings_cons,
      Bool.false_eq_true, if_false, if_true] at count ⊢
    omega
  waiting := by simp [← start.waiting, whole]
  held := start.held
  waits h inside := by
    rw [List.mem_append, List.mem_cons] at inside
    rcases inside with first | rfl | last
    · exact start.waits h (by simp [whole, first])
    · exact real
    · exact start.waits h (by simp [whole, last])
  located := start.located

end Generator

/-- Failures that would show that the pins are not accounted for. -/
def CompileError.unaccounted : CompileError → Bool
  | .invariant (.register (.pinUnderflow _)) | .invariant .nothingHeld => true
  | _ => false

namespace Gen

open Generator

variable {α β : Type}

def popHeld : Gen HeldValue := do
  match (← get).held.getLast? with
  | none => throw (.invariant .nothingHeld)
  | some h =>
    modify fun g => { g with held := g.held.dropLast }
    return h

/-- The single steps of selection, each with what is in hand before and after it: an access to the
state that touches neither pins nor waiting operands, or one of the operations on these. -/
inductive SingleStep (k : Holdings) : {α : Type} → Gen α → (α → Holdings) → Prop
  | pure {α : Type} (a : α) : SingleStep k (pure a) fun _ => k
  | throw {α : Type} (e : CompileError) : SingleStep k (throw e : Gen α) fun _ => k
  | get : SingleStep k get fun _ => k
  | modify {f : Generator → Generator} (regs : ∀ g, (f g).regs = g.regs)
      (held : ∀ g, (f g).held = g.held) : SingleStep k (modify f) fun _ => k
  | modifyGet {α : Type} {f : Generator → α × Generator} (regs : ∀ g, (f g).2.regs = g.regs)
      (held : ∀ g, (f g).2.held = g.held) : SingleStep k (modifyGet f) fun _ => k
  | onRegs {step : RegisterFile → Except RegisterError RegisterFile}
      (pins : ∀ f f', step f = .ok f' → ∀ r, (f'.get r).pins = (f.get r).pins) :
      SingleStep k (onRegs step) fun _ => k
  | hold (op : Operand) : SingleStep k (hold op) fun _ => k.hold op
  | release {op : Operand} {rest : List Operand} (here : k.held.Perm (op :: rest)) :
      SingleStep k (release op) fun _ => { k with held := rest }
  | wait (id : NodeId) (op : Operand) : SingleStep k (holdValue id op) fun _ => k.wait
  | take : SingleStep k popHeld k.take
  | demote (mask : RegMask) : SingleStep k (demote mask) fun _ => k

/-- A computation is made of single steps that keep an invariant of the state and what is in hand:
it holds before, between and after them. No step fails because of a missing pin. -/
inductive Throughout (inv : Holdings → Generator → Prop) :
    {α : Type} → Holdings → Gen α → (α → Holdings → Prop) → (Generator → Prop) → Prop
  | single {α : Type} {k : Holdings} {x : Gen α} {next : α → Holdings} {post : α → Holdings → Prop}
      {failed : Generator → Prop} (step : SingleStep k x next)
      (kept : ∀ g, inv k g → Ends x g (fun a g' => inv (next a) g' ∧ post a (next a))
        fun e g' => e.unaccounted = false ∧ failed g') : Throughout inv k x post failed
  | bind {α β : Type} {k : Holdings} {x : Gen α} {f : α → Gen β} {middle : α → Holdings → Prop}
      {post : β → Holdings → Prop} {failed : Generator → Prop}
      (first : Throughout inv k x middle failed)
      (rest : ∀ a k', middle a k' → Throughout inv k' (f a) post failed) :
      Throughout inv k (x >>= f) post failed
  | ensure {α β : Type} {k : Holdings} {x : Gen α} {y : Gen β} {middle : α → Holdings → Prop}
      {post : α → Holdings → Prop} {between failed : Generator → Prop}
      (first : Throughout inv k x middle between)
      (last : ∀ a k', middle a k' → Throughout inv k' y (fun _ k'' => post a k'') failed)
      (rescue : ∀ g, between g → Ends y g (fun _ g' => failed g')
        fun e g' => e.unaccounted = false ∧ failed g') :
      Throughout inv k (tryFinally x y) post failed

section Throughout

variable {inv : Holdings → Generator → Prop} {k : Holdings} {x : Gen α}
  {post post' : α → Holdings → Prop} {failed failed' : Generator → Prop}

theorem Throughout.ends (through : Throughout inv k x post failed) {g : Generator}
    (start : inv k g) :
    Ends x g (fun a g' => ∃ k', inv k' g' ∧ post a k')
      fun e g' => e.unaccounted = false ∧ failed g' := by
  induction through generalizing g with
  | single step kept => exact (kept g start).imp fun a g' here => ⟨_, here⟩
  | bind first rest ih ih' =>
    exact (ih start).bind fun a g' ⟨k', next, here⟩ => ih' a k' here next
  | ensure first last rescue ih ih' =>
    refine (ih start).tryFinally (fun a g' ⟨k', next, here⟩ => ih' a k' here next) ?_
    exact fun e g' ⟨expected, here⟩ => (rescue g' here).imp fun _ _ last => ⟨expected, last⟩

theorem Throughout.mono (through : Throughout inv k x post failed)
    (weaker : ∀ a k', post a k' → post' a k') (weaker' : ∀ g, failed g → failed' g) :
    Throughout inv k x post' failed' := by
  induction through with
  | single step kept =>
    exact .single step fun g start => (kept g start).mono
      (fun a _ ⟨next, here⟩ => ⟨next, weaker a _ here⟩)
      fun _ _ ⟨expected, here⟩ => ⟨expected, weaker' _ here⟩
  | bind first rest ih ih' =>
    exact .bind (ih (fun _ _ here => here) weaker') fun a k' here => ih' a k' here weaker weaker'
  | ensure first last rescue _ ih' =>
    refine .ensure first (fun a k' here => ih' a k' here (fun _ => weaker a) weaker') ?_
    exact fun g here => (rescue g here).mono (fun _ g' last => weaker' g' last)
      fun _ g' ⟨expected, last⟩ => ⟨expected, weaker' g' last⟩

end Throughout

section Steps

variable {g : Generator} {k : Holdings} {op : Operand} {id : NodeId}

theorem onRegs_spec (step : RegisterFile → Except RegisterError RegisterFile) (g : Generator) :
    Ends (onRegs step) g (fun _ g' => ∃ regs, step g.regs = .ok regs ∧ g' = { g with regs })
      fun e g' => ∃ cause, step g.regs = .error cause ∧ e = .invariant (.register cause) ∧ g' = g := by
  unfold onRegs
  refine .after_ok (x := get) rfl ?_
  cases run : step g.regs with
  | ok regs => exact ⟨regs, rfl, rfl⟩
  | error cause => exact ⟨cause, rfl, rfl, rfl⟩

theorem pinAll_ends {rs : List Reg} (real : ∀ r ∈ rs, r.number < Reg.count) (g : Generator) :
    Ends (rs.forM fun r => onRegs (·.pin r)) g
      (fun _ g' => ∃ regs : RegisterFile, g' = { g with regs } ∧ regs.pinLimit = g.regs.pinLimit ∧
        ∀ s, (regs.get s).pins = (g.regs.get s).pins + rs.count s)
      fun e _ => ∃ r ∈ rs, ∃ limit < (g.regs.get r).pins + rs.count r,
        g.regs.pinLimit = some limit ∧ e = .invariant (.register (.pinOverflow r)) := by
  induction rs generalizing g with
  | nil => exact ⟨g.regs, rfl, rfl, fun _ => rfl⟩
  | cons r rs ih =>
    obtain ⟨here, later⟩ := List.forall_mem_cons.mp real
    change Ends (onRegs (·.pin r) >>= fun _ => rs.forM fun r => onRegs (·.pin r)) g _ _
    refine Ends.bind ((onRegs_spec _ g).mono (fun _ _ => id) ?_) ?_
    · rintro _ _ ⟨cause, overflow, rfl, -⟩
      obtain ⟨full, rfl⟩ := RegisterFile.pin_eq_error overflow
      refine ⟨r, List.mem_cons_self, _, Nat.lt_add_of_pos_right ?_, full, rfl⟩
      exact List.count_pos_iff.mpr List.mem_cons_self
    · rintro _ _ ⟨regs, run, rfl⟩
      have more (s : Reg) : (regs.get s).pins + rs.count s =
          (g.regs.get s).pins + (r :: rs).count s := by
        rw [RegisterFile.pins_of_pin here run, List.count_cons]
        omega
      have bound := RegisterFile.pinLimit_pin run
      refine (ih later _).mono ?_ ?_
      · rintro _ _ ⟨regs', rfl, same, pins⟩
        exact ⟨regs', rfl, same.trans bound, fun s => (pins s).trans (more s)⟩
      · rintro e _ ⟨s, inside, limit, below, full, rfl⟩
        exact ⟨s, List.mem_cons_of_mem _ inside, limit, more s ▸ below, bound ▸ full, rfl⟩

theorem unpinAll_ends {rs : List Reg} (real : ∀ r ∈ rs, r.number < Reg.count)
    (pinned : ∀ s, rs.count s ≤ (g.regs.get s).pins) :
    Ends (rs.forM fun r => onRegs (·.unpin r)) g
      (fun _ g' => ∃ regs : RegisterFile, g' = { g with regs } ∧
        ∀ s, (g.regs.get s).pins = (regs.get s).pins + rs.count s)
      fun _ _ => False := by
  induction rs generalizing g with
  | nil => exact ⟨g.regs, rfl, fun _ => rfl⟩
  | cons r rs ih =>
    obtain ⟨here, later⟩ := List.forall_mem_cons.mp real
    have once : 0 < (g.regs.get r).pins :=
      Nat.lt_of_lt_of_le (List.count_pos_iff.mpr List.mem_cons_self) (pinned r)
    obtain ⟨regs, run, fewer⟩ := RegisterFile.unpin_run here once
    change Ends (onRegs (·.unpin r) >>= fun _ => rs.forM fun r => onRegs (·.unpin r)) g _ _
    refine .after_ok (onRegs_run run) ((ih (g := { g with regs }) later fun s => ?_).imp ?_)
    · have enough := pinned s
      rw [List.count_cons, fewer] at enough
      change _ ≤ (regs.get s).pins
      omega
    · rintro _ _ ⟨regs', rfl, pins⟩
      refine ⟨regs', rfl, fun s => ?_⟩
      have last : (regs.get s).pins = _ := pins s
      rw [fewer, last, List.count_cons]
      omega

theorem hold_accounted (start : g.Accounted k) (real : op.Real) :
    Ends (hold op) g (fun _ g' => g'.Accounted (k.hold op)) fun e _ => e.unaccounted = false := by
  refine (pinAll_ends real g).mono ?_ ?_
  · rintro _ _ ⟨regs, rfl, -, pins⟩
    exact start.hold real pins
  · rintro _ _ ⟨_, -, _, -, -, rfl⟩
    rfl

theorem release_accounted {rest : List Operand} (start : g.Accounted k)
    (here : k.held.Perm (op :: rest)) :
    Ends (release op) g (fun _ g' => g'.Accounted { k with held := rest }) fun _ _ => False := by
  have real : op.Real := start.held op (here.mem_iff.mpr List.mem_cons_self)
  refine (unpinAll_ends real fun r => ?_).imp ?_
  · rw [start.pins, Reg.readings_perm here, Reg.readings_cons]
    omega
  · rintro _ _ ⟨regs, rfl, pins⟩
    exact start.release here pins

theorem holdValue_accounted (start : g.Accounted k) (real : op.Real) :
    Ends (holdValue id op) g (fun _ g' => g'.Accounted k.wait) fun e _ => e.unaccounted = false :=
  (hold_accounted start real).bind fun _ _ held => held.wait

theorem popHeld_accounted (start : g.Accounted k) (some_ : 0 < k.waiting) :
    Ends popHeld g (fun h g' => g'.Accounted (k.take h) ∧ h.operand.Real) fun _ _ => False := by
  unfold popHeld
  refine .after_ok (x := get) rfl ?_
  rw [← start.waiting] at some_
  have nonempty : g.held ≠ [] := List.ne_nil_of_length_pos some_
  have whole := List.dropLast_concat_getLast nonempty
  rw [List.getLast?_eq_some_getLast nonempty]
  exact ⟨start.take whole.symm, start.waits _ (List.getLast_mem nonempty)⟩

theorem registersToMemory_spec (src : Operand) (located : g.Located) :
    Ends (registersToMemory id src) g
      (fun mem g' => (g'.regs = g.regs ∧ g'.held = g.held ∧ g'.Located) ∧ mem.Real)
      fun e g' => e.unaccounted = false ∧ g'.regs = g.regs ∧ g'.held = g.held ∧ g'.Located := by
  unfold registersToMemory
  refine .after_ok (x := node id) rfl ?_
  split
  · exact ⟨⟨rfl, rfl, located⟩, Operand.real_slot _⟩
  dsimp only
  split
  · refine .after_ok (x := allocTemp _ _ _) rfl ?_
    refine .after_ok (x := emit' _) rfl ?_
    exact ⟨⟨rfl, rfl, located.modify id fun _ real => real⟩, Operand.real_slot _⟩
  · exact ⟨rfl, rfl, rfl, located⟩

theorem demote_accounted (start : g.Accounted k) (mask : RegMask) :
    Ends (demote mask) g (fun _ g' => g'.Accounted k)
      fun e g' => e.unaccounted = false ∧ g'.Accounted k := by
  refine demote_of (fun _ => start) fun pos id src bound here _ => ?_
  have whole : g.held = g.held.take pos ++ ⟨id, src, false⟩ :: g.held.drop (pos + 1) := by
    rw [← here, List.getElem_cons_drop, List.take_append_drop]
  refine (registersToMemory_spec src start.located).mono ?_ ?_
  · rintro mem g₁ ⟨⟨regs, held, located⟩, real⟩
    have stored : g₁.Accounted k := start.congr (fun r => by rw [regs]) held located
    have waits : ⟨id, src, false⟩ ∈ g.held := here ▸ List.getElem_mem bound
    refine (unpinAll_ends (start.waits _ waits) fun r => ?_).mono ?_ fun _ _ => False.elim
    · rw [stored.pins, held, whole, HeldValue.pinned_append, HeldValue.pinned_cons]
      simp only [Bool.false_eq_true, if_false, Reg.readings_append, Reg.readings_cons]
      omega
    rintro _ _ ⟨regs', rfl, pins⟩ stats
    have moved := stored.demote (held.trans whole) real pins
    have set : g.held.set pos ⟨id, mem, true⟩ = _ := List.set_eq_take_append_cons_drop
    rw [if_pos bound] at set
    change Generator.Accounted k { g₁ with regs := regs', held := g₁.held.set pos _, stats }
    rw [held, set]
    exact moved.congr (fun _ => rfl) rfl moved.located
  · rintro e g₁ ⟨other, regs, held, located⟩
    exact ⟨other, start.congr (fun r => by rw [regs]) held located⟩

end Steps

/-- A computation after which as much is in hand as before, if it succeeds. -/
structure Returns (failed : Holdings → Generator → Prop) (x : Gen α) (result : α → Prop) : Prop where
  through : ∀ k, Throughout Accounted k x (fun a k' => k' = k ∧ result a) (failed k)

abbrev Level (x : Gen α) (result : α → Prop) : Prop := Returns Accounted x result

abbrev Balanced (x : Gen α) (result : α → Prop) : Prop := Returns (fun _ _ => True) x result

abbrev Through (k : Holdings) (x : Gen α) (post : α → Holdings → Prop) : Prop :=
  Throughout Accounted k x post fun _ => True

namespace Returns

variable {failed : Holdings → Generator → Prop} {x : Gen α} {f : α → Gen β} {result : α → Prop}
  {result' : β → Prop}

theorem pure {a : α} (here : result a) : Returns failed (pure a) result :=
  ⟨fun _ => .single (.pure a) fun _ start => ⟨start, rfl, here⟩⟩

theorem bind (first : Returns failed x result)
    (rest : ∀ a, result a → Returns failed (f a) result') : Returns failed (x >>= f) result' := by
  refine ⟨fun k => (first.through k).bind ?_⟩
  rintro a _ ⟨rfl, here⟩
  exact (rest a here).through _

theorem forM {f : α → Gen PUnit} {as : List α}
    (round : ∀ a ∈ as, Returns failed (f a) fun _ => True) :
    Returns failed (as.forM f) fun _ => True := by
  induction as with
  | nil => exact pure trivial
  | cons a as ih =>
    change Returns failed (f a >>= fun _ => as.forM f) _
    refine (round a List.mem_cons_self).bind fun _ _ => ?_
    exact ih fun a later => round a (List.mem_cons_of_mem _ later)

end Returns

section Level

variable {x : Gen α} {result : α → Prop}

theorem Level.single (step : ∀ k, SingleStep k x fun _ => k)
    (kept : ∀ k g, g.Accounted k → Ends x g (fun a g' => g'.Accounted k ∧ result a)
      fun e g' => e.unaccounted = false ∧ g'.Accounted k) : Level x result :=
  ⟨fun k => .single (step k) fun g start =>
    (kept k g start).imp fun _ _ ⟨next, here⟩ => ⟨next, rfl, here⟩⟩

theorem Level.throw {e : CompileError} (other : e.unaccounted = false) : Level (throw e) result :=
  .single (fun _ => .throw e) fun _ _ start => ⟨other, start⟩

theorem Level.get : Level get Located :=
  .single (fun _ => .get) fun _ _ start => ⟨start, start.located⟩

theorem Level.modify {f : Generator → Generator} (regs : ∀ g, (f g).regs = g.regs)
    (held : ∀ g, (f g).held = g.held) (located : ∀ g, g.Located → (f g).Located) :
    Level (modify f) fun _ => True :=
  .single (fun _ => .modify regs held) fun _ g start =>
    ⟨start.congr (fun r => by rw [regs]) (held g) (located g start.located), trivial⟩

theorem Level.modifyGet {f : Generator → α × Generator} (regs : ∀ g, (f g).2.regs = g.regs)
    (held : ∀ g, (f g).2.held = g.held) (located : ∀ g, g.Located → (f g).2.Located) :
    Level (modifyGet f) fun _ => True :=
  .single (fun _ => .modifyGet regs held) fun _ g start =>
    ⟨start.congr (fun r => by rw [regs]) (held g) (located g start.located), trivial⟩

theorem Level.onRegs {step : RegisterFile → Except RegisterError RegisterFile}
    (pins : ∀ f f', step f = .ok f' → ∀ r, (f'.get r).pins = (f.get r).pins)
    (other : ∀ f e, step f = .error e → (CompileError.invariant (.register e)).unaccounted = false) :
    Level (onRegs step) fun _ => True := by
  refine .single (fun _ => .onRegs pins) fun k g start => (onRegs_spec step g).mono ?_ ?_
  · rintro _ _ ⟨regs, run, rfl⟩
    exact ⟨start.congr (pins _ _ run) rfl start.located, trivial⟩
  · rintro _ _ ⟨cause, failed, rfl, rfl⟩
    exact ⟨other _ _ failed, start⟩

theorem Level.loose (level : Level x result) : Balanced x result :=
  ⟨fun k => (level.through k).mono (fun _ _ here => here) fun _ _ => trivial⟩

end Level

section Brackets

variable {k : Holdings} {op : Operand} {f : Unit → Gen β} {post : β → Holdings → Prop}

theorem Balanced.andThen {x : Gen α} {f : α → Gen β} {result : α → Prop} (first : Balanced x result)
    (rest : ∀ a, result a → Through k (f a) post) : Through k (x >>= f) post := by
  refine (first.through k).bind ?_
  rintro a _ ⟨rfl, here⟩
  exact rest a here

theorem through_hold (real : op.Real) (rest : Through (k.hold op) (f ()) post) :
    Through k (hold op >>= f) post := by
  refine .bind (.single (.hold op) fun g start => ?_) fun _ k' (same : k' = k.hold op) => same ▸ rest
  exact (hold_accounted start real).mono (fun _ _ held => ⟨held, rfl⟩) fun _ _ other => ⟨other, trivial⟩

theorem releases {others : List Operand} (here : k.held.Perm (op :: others)) :
    Through k (release op) fun _ k' => k' = { k with held := others } :=
  .single (.release here) fun _ start => (release_accounted start here).mono
    (fun _ _ released => ⟨released, rfl⟩) fun _ _ => False.elim

theorem through_release {others : List Operand} (here : k.held.Perm (op :: others))
    (rest : Through { k with held := others } (f ()) post) : Through k (release op >>= f) post :=
  (releases here).bind fun _ _ same => same ▸ rest

theorem through_wait {id : NodeId} (real : op.Real) (rest : Through k.wait (f ()) post) :
    Through k (holdValue id op >>= f) post := by
  refine .bind (.single (.wait id op) fun g start => ?_) fun _ k' (same : k' = k.wait) => same ▸ rest
  exact (holdValue_accounted start real).mono (fun _ _ waits => ⟨waits, rfl⟩)
    fun _ _ other => ⟨other, trivial⟩

end Brackets

end Gen

end CBackend
