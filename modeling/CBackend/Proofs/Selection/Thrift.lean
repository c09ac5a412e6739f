import CBackend.Proofs.Selection.Afresh
import CBackend.Proofs.Selection.Handout
import CBackend.Proofs.Selection.PinBalance

/-!
What operands in hand take. No operand reads a register twice, so a register is pinned at most as
often as there are operands in hand. An operand waits while the left operand of its operator is
computed, so at most as many wait as operators nest on the left. The operands that an instruction is
put together of leave registers for one more, so if no register is to be had, those that wait take
them; and they do so only where they cannot be moved to memory because they are there.
-/

namespace CBackend

/-- The failures of a register that cannot be pinned once more, and of one that is not to be had. -/
def CompileError.exceeds : CompileError → Bool
  | .invariant (.register (.pinOverflow _)) | .invariant (.register (.noneAvailable _)) => true
  | _ => false

theorem CompileError.exceeds_of_mild {e : CompileError} (mild : e.grave = false) :
    e.exceeds = false := by
  unfold exceeds
  split
  · cases mild
  · cases mild
  · rfl

theorem CompileError.exceeds_of_malformed {e : CompileError} (malformed : e.malformed = true) :
    e.exceeds = false := by
  unfold exceeds
  split
  · cases malformed
  · cases malformed
  · rfl

namespace LinearFunction

/-- While a linear node is computed at most so many operands wait. The right operand of an operator
waits for the left one. -/
inductive Waits (f : LinearFunction) : LinId → Nat → Prop
  | leaf {l : LinId} {w : Nat} (left : (f.node l).left = none) : Waits f l w
  | unary {l a : LinId} {w : Nat} (left : (f.node l).left = some a)
      (right : (f.node l).right = none) (kid : Waits f a w) : Waits f l w
  | binary {l a b : LinId} {w : Nat} (left : (f.node l).left = some a)
      (right : (f.node l).right = some b) (first : Waits f a w) (second : Waits f b (w + 1)) :
      Waits f l (w + 1)

/-- Looks so many levels down whether at most so many operands wait. -/
def waitsWithin (f : LinearFunction) : (levels : Nat) → LinId → Nat → Bool
  | 0, _, _ => false
  | levels + 1, l, w =>
    match (f.node l).left, (f.node l).right, w with
    | none, _, _ => true
    | some a, none, w => f.waitsWithin levels a w
    | some a, some b, w + 1 => f.waitsWithin levels a w && f.waitsWithin levels b (w + 1)
    | some _, some _, 0 => false

theorem waits_of_waitsWithin {f : LinearFunction} {levels : Nat} {l : LinId} {w : Nat}
    (within : f.waitsWithin levels l w = true) : f.Waits l w := by
  fun_induction waitsWithin f levels l w with
  | case1 => cases within
  | case2 _ _ _ left => exact .leaf left
  | case3 _ _ _ _ right left ih => exact .unary left right (ih within)
  | case4 _ _ _ _ _ right left ih ih' =>
    rw [Bool.and_eq_true] at within
    exact .binary left right (ih within.1) (ih' within.2)
  | case5 => cases within

/-- No more than `w` operands wait at once for any code. -/
def Shallow (f : LinearFunction) (w : Nat) : Prop :=
  ∀ code ∈ f.codes, ∀ l ∈ code.operand?, f.Waits l w

end LinearFunction

inductive ValueKey.Waits (keys : List ValueKey) : NodeId → Nat → Prop
  | leaf {id : NodeId} {key : ValueKey} {w : Nat} (found : keys[id.index]? = some key)
      (left : key.left = none) : Waits keys id w
  | unary {id a : NodeId} {key : ValueKey} {w : Nat} (found : keys[id.index]? = some key)
      (left : key.left = some a) (right : key.right = none) (kid : Waits keys a w) : Waits keys id w
  | binary {id a b : NodeId} {key : ValueKey} {w : Nat} (found : keys[id.index]? = some key)
      (left : key.left = some a) (right : key.right = some b) (first : Waits keys a w)
      (second : Waits keys b (w + 1)) : Waits keys id (w + 1)

namespace ValueKey

variable {keys keys' : List ValueKey} {id : NodeId} {w w' : Nat}

theorem Waits.mono (waits : Waits keys id w) (grown : keys <+: keys') (more : w ≤ w') :
    Waits keys' id w' := by
  obtain ⟨rest, rfl⟩ := grown
  have still {id : NodeId} {key : ValueKey} (found : keys[id.index]? = some key) :
      (keys ++ rest)[id.index]? = some key := by
    rw [List.getElem?_append_left (List.getElem?_eq_some_iff.mp found).1, found]
  induction waits generalizing w' with
  | leaf found left => exact .leaf (still found) left
  | unary found left right _ ih => exact .unary (still found) left right (ih more)
  | binary found left right _ _ ih ih' =>
    obtain ⟨w', rfl⟩ : ∃ n, w' = n + 1 := ⟨w' - 1, by omega⟩
    exact .binary (still found) left right (ih (Nat.le_of_succ_le_succ more)) (ih' more)

end ValueKey

theorem LinearFunction.Copies.waits {f : LinearFunction} {keys : List ValueKey} {l : LinId}
    {id : NodeId} {w : Nat} (copies : f.Copies keys l id) (waits : f.Waits l w) :
    ValueKey.Waits keys id w := by
  induction waits generalizing id with
  | leaf none =>
    obtain ⟨number, found, -, -, -, left, -, -⟩ := copies
    exact .leaf found (by rw [left, none]; rfl)
  | unary one none _ ih =>
    obtain ⟨number, found, -, -, -, left, right, kids⟩ := copies
    rw [one] at left
    rw [none] at right
    exact .unary found left right (ih (kids _ (by simp [LinNode.kids, one])))
  | binary one two _ _ ih ih' =>
    obtain ⟨number, found, -, -, -, left, right, kids⟩ := copies
    rw [one] at left
    rw [two] at right
    refine .binary found left right (ih (kids _ ?_)) (ih' (kids _ ?_))
    · simp [LinNode.kids, one]
    · simp [LinNode.kids, two]

theorem Reg.readings_le {ops : List Operand} (distinct : ∀ op ∈ ops, op.regs.Nodup) (r : Reg) :
    r.readings ops ≤ ops.length := by
  induction ops with
  | nil => exact Nat.le_refl 0
  | cons op ops ih =>
    obtain ⟨here, later⟩ := List.forall_mem_cons.mp distinct
    have once := List.nodup_iff_count_le_one.mp here r
    have rest := ih later
    rw [readings_cons, List.length_cons]
    omega

namespace Generator

variable {keys : List ValueKey} {numbers : Array (Option NodeId)} {g : Generator} {k : Holdings}
  {mask : RegMask}

/-- An operand waits in memory, at an address in a register that could else be handed out. -/
def Crowded (g : Generator) (mask : RegMask) : Prop :=
  ∃ h ∈ g.held, h.demoted = false ∧ ∃ a r, (h.operand = .mem a ∨ h.operand = .ind a) ∧
    a.base = some r ∧ r.Allocatable ∧ mask.contains r = true

/-- The failure is not for want of pins if `narrow`, and not for want of registers unless they are
crowded. -/
structure Excuses (narrow : Prop) (e : CompileError) (g : Generator) : Prop where
  pins : narrow → ∀ r, e ≠ .invariant (.register (.pinOverflow r))
  registers : ∀ mask, e = .invariant (.register (.noneAvailable mask)) → g.Crowded mask

theorem excuses_of {narrow : Prop} {e : CompileError} (other : e.exceeds = false) :
    g.Excuses narrow e := by
  refine ⟨fun _ r same => ?_, fun mask same => ?_⟩
  · rw [same] at other
    cases other
  · rw [same] at other
    cases other

/-- Pins are limited, the registers are there, values are numbered as given, and operands are neat. -/
structure Tidy (keys : List ValueKey) (numbers : Array (Option NodeId)) (g : Generator) : Prop where
  limit : g.regs.pinLimit = some mostPins
  opened : ∀ r, r.Allocatable → g.regs.state r ≠ .reserved
  keys : keys <+: g.pool.keys
  numbers : g.numbers = numbers
  waits : ∀ h ∈ g.held,
    h.operand.Neat ∧ (h.demoted = true → ∃ slot, h.operand = slotOperand slot)
  located : ∀ id op, (g.pool.node id).loc = some op → op.Neat

theorem Tidy.beside {g' : Generator} (tidy : g.Tidy keys numbers) (regs : g'.regs = g.regs)
    (pool : g'.pool = g.pool) (held : g'.held = g.held) (same : g'.numbers = g.numbers) :
    g'.Tidy keys numbers :=
  ⟨regs ▸ tidy.limit, regs ▸ tidy.opened, pool ▸ tidy.keys, same.trans tidy.numbers,
    held ▸ tidy.waits, pool ▸ tidy.located⟩

theorem Tidy.onRegs {regs : RegisterFile} (tidy : g.Tidy keys numbers)
    (limit : regs.pinLimit = g.regs.pinLimit)
    (usable : ∀ r, g.regs.state r ≠ .reserved → regs.state r ≠ .reserved) :
    ({ g with regs } : Generator).Tidy keys numbers :=
  { tidy with
    limit := limit.trans tidy.limit
    opened := fun r allocatable => usable r (tidy.opened r allocatable) }

theorem Accounted.pins_le (start : g.Accounted k) (tidy : g.Tidy keys numbers)
    (neat : ∀ op ∈ k.held, op.Neat) (r : Reg) :
    (g.regs.get r).pins ≤ k.waiting + k.held.length := by
  have waits : ∀ op ∈ HeldValue.pinned g.held, op.regs.Nodup := by
    intro op inside
    obtain ⟨h, there, rfl⟩ := List.mem_map.mp inside
    exact (tidy.waits h (List.mem_of_mem_filter there)).1.nodup
  have few : (HeldValue.pinned g.held).length ≤ g.held.length := by
    rw [HeldValue.pinned, List.length_map]
    exact List.length_filter_le ..
  have first := Reg.readings_le waits r
  have second := Reg.readings_le (fun op inside => (neat op inside).nodup) r
  rw [start.pins, ← start.waiting]
  omega

theorem Exhausted.crowded {r : Reg} (exhausted : g.Exhausted mask) (start : g.Accounted k)
    (tidy : g.Tidy keys numbers) (inside : mask.contains r = true) (allocatable : r.Allocatable)
    (unread : ∀ op ∈ k.held, r ∉ op.regs) : g.Crowded mask := by
  have pinned := exhausted.pinned r inside (tidy.opened r allocatable)
  have none : r.readings k.held = 0 := by
    refine List.count_eq_zero.mpr fun reads => ?_
    obtain ⟨op, there, reads⟩ := List.mem_flatMap.mp reads
    exact unread op there reads
  have some : 0 < r.readings (HeldValue.pinned g.held) := by
    have count := start.pins r
    have pinned := of_decide_eq_true pinned
    omega
  obtain ⟨op, there, reads⟩ := List.mem_flatMap.mp (List.count_pos_iff.mp some)
  obtain ⟨h, waits, rfl⟩ := List.mem_map.mp there
  obtain ⟨waits, still⟩ := List.mem_filter.mp waits
  have still : h.demoted = false := by simpa using still
  refine ⟨h, waits, still, ?_⟩
  cases place : h.operand with
  | reg lo hi =>
    have outside := exhausted.waiting h waits still (by rw [place]; rfl) r reads
    rw [inside] at outside
    cases outside
  | imm sym =>
    rw [place] at reads
    cases reads
  | mem a =>
    rw [place] at reads
    exact ⟨a, r, .inl rfl, Option.mem_toList.mp reads, allocatable, inside⟩
  | ind a =>
    rw [place] at reads
    exact ⟨a, r, .inr rfl, Option.mem_toList.mp reads, allocatable, inside⟩

end Generator

namespace Gen

open Generator

variable {α β : Type} {g : Generator} {keys : List ValueKey} {numbers : Array (Option NodeId)}
  {k : Holdings} {op : Operand} {narrow : Prop}

section Tidy

abbrev Tidies (keys : List ValueKey) (numbers : Array (Option NodeId)) (x : Gen α)
    (result : α → Prop) : Prop :=
  Keeps (Tidy keys numbers) (fun e _ => e.exceeds = false) x result

theorem Handles.tidies_of {fine : Operand → Prop} {moves : Bool} {x : Gen α} {result : α → Prop}
    {failed : CompileError → Generator → Prop} (handles : Handles fine moves x result)
    (neat : ∀ op, fine op → op.Neat) (mild : ∀ e g, e.grave = false → failed e g)
    (demotes : moves = true → ∀ mask,
      Keeps (Tidy keys numbers) failed (Gen.demote mask) fun _ => True)
    (lacks : moves = true → ∀ mask g, g.Tidy keys numbers →
      failed (.invariant (.register (.noneAvailable mask))) g) :
    Keeps (Tidy keys numbers) failed x result := by
  refine handles.keeps (fun e g low _ => mild e g low) ?_ ?_ ?_ demotes lacks
  · exact fun g g' regs pool held numbers tidy => tidy.beside regs pool held numbers
  · exact fun g regs kept tidy => tidy.onRegs kept.limit kept.usable
  · intro g id change key place tidy
    refine { tidy with keys := ?_, located := fun id' op here => ?_ }
    · rw [ValuePool.keys_modify _ _ key]
      exact tidy.keys
    · change ((g.pool.modify id change).node id').loc = some op at here
      rw [ValuePool.node_modify] at here
      split at here
      · rcases place _ op here with old | ⟨slot, rfl⟩ | fine
        · exact tidy.located id' op old
        · exact Operand.neat_of_length (Nat.le_refl 1)
        · exact neat op fine
      · exact tidy.located id' op here

theorem Handles.tidies {fine : Operand → Prop} {x : Gen α} {result : α → Prop}
    (handles : Handles fine false x result) (neat : ∀ op, fine op → op.Neat) :
    Tidies keys numbers x result :=
  handles.tidies_of neat (fun _ _ => CompileError.exceeds_of_mild) nofun nofun

theorem tidies_release (op : Operand) : Tidies keys numbers (release op) fun _ => True := by
  refine .forM fun r _ => .onRegs (fun g regs ok tidy => ?_) fun g e failed _ => ?_
  · refine tidy.onRegs (RegisterFile.pinLimit_unpin ok) fun s usable => ?_
    rwa [(RegisterFile.alike_of_unpin ok s).2]
  · rw [RegisterFile.unpin_eq_error failed]
    rfl

theorem tidies_demote (mask : RegMask) : Tidies keys numbers (demote mask) fun _ => True := by
  refine ⟨fun g tidy => demote_of (fun _ => ⟨tidy, trivial⟩) fun pos id src _ _ _ => ?_⟩
  have stores : Tidies keys numbers (registersToMemory id src) fun mem =>
      ∃ slot, mem = slotOperand slot :=
    (@handles_registersToMemory (fun _ => False) false id src).tidies fun _ => False.elim
  refine (stores.ends g tidy).imp fun mem g₁ ⟨tidy, slot, there⟩ => ?_
  refine ((tidies_release src).ends g₁ tidy).imp fun _ g₂ ⟨tidy, _⟩ stats => ⟨?_, trivial⟩
  refine { tidy with waits := fun h inside => ?_ }
  rcases List.mem_or_eq_of_mem_set inside with old | rfl
  · exact tidy.waits h old
  · exact ⟨there ▸ Operand.neat_of_length (Nat.le_refl 1), fun _ => ⟨slot, there⟩⟩

theorem hold_tidy (start : g.Accounted k) (tidy : g.Tidy keys numbers) (real : op.Real) :
    Ends (hold op) g (fun _ g' => g'.Accounted (k.hold op) ∧ g'.Tidy keys numbers)
      fun e _ => ∃ r ∈ op.regs, mostPins < (g.regs.get r).pins + op.regs.count r ∧
        e = .invariant (.register (.pinOverflow r)) := by
  have pins : Keeps (Tidy keys numbers) (fun _ _ => True) (hold op) fun _ => True := by
    refine .forM fun r _ => .onRegs (fun g regs ok tidy => ?_) fun _ _ _ _ => trivial
    refine tidy.onRegs (RegisterFile.pinLimit_pin ok) fun s usable => ?_
    rwa [(RegisterFile.alike_of_pin ok s).2]
  refine ((pinAll_ends real g).and (pins.ends g tidy)).mono ?_ ?_
  · rintro _ _ ⟨⟨regs, rfl, -, pins⟩, tidy, -⟩
    exact ⟨start.hold real pins, tidy⟩
  · rintro _ _ ⟨⟨r, inside, limit, less, full, same⟩, -⟩
    rw [tidy.limit] at full
    cases full
    exact ⟨r, inside, less, same⟩

theorem release_tidy {others : List Operand} (start : g.Accounted k) (tidy : g.Tidy keys numbers)
    (here : k.held.Perm (op :: others)) :
    Ends (release op) g (fun _ g' => g'.Accounted { k with held := others } ∧ g'.Tidy keys numbers)
      fun _ _ => False :=
  ((release_accounted start here).and ((tidies_release op).ends g tidy)).mono
    (fun _ _ ⟨released, tidy, _⟩ => ⟨released, tidy⟩) fun _ _ failed => failed.1

theorem alloc_tidy {mask : RegMask} {free : Reg} (start : g.Accounted k)
    (tidy : g.Tidy keys numbers) (candidate : mask.contains free = true)
    (allocatable : free.Allocatable) (unread : ∀ op ∈ k.held, free ∉ op.regs) :
    Ends (alloc mask) g (fun r g' => (g'.Accounted k ∧ g'.Tidy keys numbers) ∧
      r.number < Reg.count ∧ mask.contains r = true ∧ (g'.regs.get r).pins = 0)
      fun e g' => g'.Excuses narrow e := by
  have counts := ((level_alloc mask).through k).ends start
  have tidies : Keeps (Tidy keys numbers) (fun e g => e.exceeds = false ∨
      e.lacksRegister = true ∧ g.Tidy keys numbers) (alloc mask) fun _ => True := by
    refine ((@handles_alloc (fun _ => False) mask).tidies_of (fun _ => False.elim) ?_ ?_ ?_).imp
      fun _ _ => trivial
    · exact fun e g mild => .inl (CompileError.exceeds_of_mild mild)
    · exact fun _ mask => ⟨fun g tidy => ((tidies_demote mask).ends g tidy).mono
        (fun _ _ here => here) fun _ _ => .inl⟩
    · exact fun _ mask g tidy => .inr ⟨rfl, tidy⟩
  refine ((counts.and (tidies.ends g tidy)).and (alloc_search mask g)).mono ?_ ?_
  · rintro r g' ⟨⟨⟨_, counted, rfl, inside⟩, tidy, -⟩, usable⟩
    obtain ⟨candidate, -, unpinned⟩ := RegisterFile.mem_usable_iff.mp usable
    refine ⟨⟨counted, tidy⟩, inside, candidate, ?_⟩
    simpa [RegisterFile.isPinned] using unpinned
  · rintro e g' ⟨⟨⟨-, counted⟩, other | ⟨lacks', tidy⟩⟩, lacks⟩
    · exact excuses_of other
    · obtain ⟨rfl, exhausted⟩ := lacks lacks'
      refine ⟨fun _ r same => ?_, fun mask' same => ?_⟩
      · cases same
      · cases same
        exact exhausted.crowded counted tidy candidate allocatable unread

theorem exists_unread {float : Bool} (some : 0 < (k.unread (Reg.handedOut float)).length) :
    ∃ r, (if float then RegMask.floating else .general).contains r = true ∧ r.Allocatable ∧
      ∀ op ∈ k.held, r ∉ op.regs := by
  obtain ⟨r, inside⟩ := List.exists_mem_of_length_pos some
  obtain ⟨listed, unread⟩ := List.mem_filter.mp inside
  have all : ∀ float, ∀ r ∈ Reg.handedOut float,
      (if float then RegMask.floating else .general).contains r = true ∧ r.Allocatable := by decide
  obtain ⟨candidate, allocatable⟩ := all float r listed
  exact ⟨r, candidate, allocatable, of_decide_eq_true unread⟩

theorem unfloating {r : Reg} (general : RegMask.general.contains r = true) :
    r ∉ Reg.handedOut true := by
  have all : ∀ r ∈ Reg.handedOut true, RegMask.general.contains r = false := by decide
  intro floating
  rw [all r floating] at general
  cases general

theorem allocHigh_tidy {lo : Reg} (start : g.Accounted (k.hold (.single lo)))
    (tidy : g.Tidy keys numbers)
    (left : 0 < ((k.hold (.single lo)).unread (Reg.handedOut false)).length) :
    Ends (tryFinally (alloc .general) (release (.single lo))) g
      (fun hi g' => g'.Tidy keys numbers ∧ lo ≠ hi ∧ RegMask.general.contains hi = true)
      fun e g' => g'.Excuses narrow e := by
  obtain ⟨r, candidate, allocatable, unread⟩ := exists_unread left
  have takes : Ends (alloc .general) g _ fun e g' => g'.Excuses narrow e :=
    alloc_tidy start tidy candidate allocatable unread
  refine takes.tryFinally ?_ ?_
  · rintro hi g' ⟨⟨start, tidy⟩, -, high, free⟩
    have other : lo ≠ hi := by
      rintro rfl
      have pinned := start.pins lo
      rw [free, Holdings.hold, Reg.readings_cons] at pinned
      simp only [Operand.single, Operand.regs, Option.toList_none, List.count_singleton_self]
        at pinned
      omega
    exact (release_tidy start tidy (.refl _)).mono (fun _ _ last => ⟨last.2, other, high⟩)
      fun _ _ => False.elim
  · intro e g' excuses
    rw [release_single]
    refine (onRegs_spec _ g').mono ?_ ?_
    · rintro _ _ ⟨regs, -, rfl⟩
      exact ⟨excuses.pins, excuses.registers⟩
    · rintro _ _ ⟨cause, failed, rfl, -⟩
      rw [RegisterFile.unpin_eq_error failed]
      exact excuses_of rfl

theorem allocValue_tidy {ty : CType} (spares : k.Spares ty) (start : g.Accounted k)
    (tidy : g.Tidy keys numbers) :
    Ends (allocValue ty) g (fun op g' => g'.Tidy keys numbers ∧ op.Neat ∧
      (ty.isFloat = false → ∀ r ∈ op.regs, r ∉ Reg.handedOut true))
      fun e g' => g'.Excuses narrow e := by
  unfold allocValue
  unfold Holdings.Spares at spares
  cases float : ty.isFloat with
  | true =>
    rw [float, if_pos rfl] at spares
    obtain ⟨r, candidate, allocatable, unread⟩ := exists_unread spares
    refine (alloc_tidy start tidy candidate allocatable unread).bind ?_
    rintro r _ ⟨⟨-, tidy⟩, -⟩
    exact ⟨tidy, Operand.neat_of_length (Nat.le_refl 1), (Bool.noConfusion ·)⟩
  | false =>
    rw [float, if_neg (by nofun)] at spares
    have some : 0 < (k.unread (Reg.handedOut false)).length := Nat.lt_of_lt_of_le Nat.two_pos spares
    obtain ⟨r, candidate, allocatable, unread⟩ := exists_unread some
    refine (alloc_tidy start tidy candidate allocatable unread).bind ?_
    rintro lo g₁ ⟨⟨start, tidy⟩, low, general, unpinned⟩
    split
    · exact ⟨tidy, Operand.neat_of_length (Nat.le_refl 1),
        fun _ => List.forall_mem_singleton.mpr (unfloating general)⟩
    rw [← hold_single, ← release_single]
    refine ((hold_tidy start tidy (Operand.real_single low)).mono (fun _ _ here => here) ?_).bind ?_
    · rintro _ _ ⟨r, inside, full, -⟩
      cases List.mem_singleton.mp inside
      rw [unpinned] at full
      simp [Operand.single, Operand.regs, mostPins] at full
    rintro _ g₂ ⟨start, tidy⟩
    have left : 0 < ((k.hold (.single lo)).unread (Reg.handedOut false)).length := by
      have one := k.length_unread_hold (Reg.nodup_handedOut false) (.single lo)
      have few : (Operand.single lo).regs.countP (· ∈ Reg.handedOut false) ≤ 1 :=
        List.countP_le_length
      omega
    refine Ends.bind (allocHigh_tidy start tidy left) ?_
    rintro hi g' ⟨tidy, other, high⟩
    have both : ∀ r ∈ (Operand.pair lo hi).regs, r ∉ Reg.handedOut true :=
      List.forall_mem_cons.mpr ⟨unfloating general, List.forall_mem_singleton.mpr (unfloating high)⟩
    refine ⟨tidy, ⟨?_, ?_⟩, fun _ => both⟩
    · exact List.nodup_cons.mpr ⟨by simpa using other, List.pairwise_singleton ..⟩
    · rw [List.countP_eq_zero.mpr fun r inside => by simpa using both r inside]
      exact Nat.zero_le 1

end Tidy

section Sparing

variable {n : Nat} {k' : Holdings} {x : Gen α} {f : Unit → Gen α} {result : α → Prop}

/-- No register is lacked unless it is crowded; if there is room for some more operands in hand, as
there is if `narrow`, no count of pins overflows. -/
def Sparing (narrow : Prop) (numbers : Array (Option NodeId)) (keys : List ValueKey) (n : Nat)
    (k k' : Holdings) (x : Gen α) (result : α → Prop) : Prop :=
  (∀ op ∈ k.held, op.Neat) → (narrow → k.waiting + k.held.length + n ≤ mostPins) →
    ∀ g, g.Accounted k → g.Tidy keys numbers →
      Ends x g (fun a g' => (g'.Accounted k' ∧ g'.Tidy keys numbers) ∧ result a)
        fun e g' => g'.Excuses narrow e

theorem Sparing.mono {m : Nat} (enough : m ≤ n ∨ ¬narrow)
    (runs : Sparing narrow numbers keys m k k' x result) :
    Sparing narrow numbers keys n k k' x result := by
  intro neat room
  refine runs neat fun given => ?_
  have more := enough.resolve_right (absurd given)
  have room := room given
  omega

theorem Sparing.bind {x : Gen α} {f : α → Gen β} {middle : α → Prop} {result : β → Prop}
    (first : Sparing narrow numbers keys n k k x middle)
    (rest : ∀ a, middle a → Sparing narrow numbers keys n k k' (f a) result) :
    Sparing narrow numbers keys n k k' (x >>= f) result := fun neat room g start tidy =>
  (first neat room g start tidy).bind fun a g' ⟨⟨start, tidy⟩, here⟩ =>
    rest a here neat room g' start tidy

theorem Sparing.keeps (sparing : Sparing narrow numbers keys n .none .none x result)
    (room : narrow → n ≤ mostPins) :
    Keeps (fun g => g.Accounted .none ∧ g.Tidy keys numbers) (fun e g => g.Excuses narrow e) x
      result :=
  ⟨fun g ⟨start, tidy⟩ => sparing (List.forall_mem_nil _)
    (fun given => by simpa [Holdings.none] using room given) g start tidy⟩

theorem sparing_of (level : Level x result) (tidies : Tidies keys numbers x fun _ => True) :
    Sparing narrow numbers keys n k k x result := by
  intro _ _ g start tidy
  refine (((level.through k).ends start).and (tidies.ends g tidy)).mono ?_
    fun _ _ failed => excuses_of failed.2
  rintro a g' ⟨⟨_, counted, rfl, here⟩, tidy, -⟩
  exact ⟨⟨counted, tidy⟩, here⟩

theorem tidies_emit (i : Instr) : Tidies keys numbers (emit i) fun _ => True :=
  .modifyGet fun _ tidy => ⟨tidy.beside rfl rfl rfl rfl, trivial⟩

theorem tidies_popHeld : Tidies keys numbers popHeld fun h =>
    h.operand.Neat ∧ (h.demoted = true → ∃ slot, h.operand = slotOperand slot) := by
  unfold popHeld
  refine Keeps.get.bind fun g tidy => ?_
  split
  · exact .throw fun _ _ => rfl
  · rename_i h last
    refine Keeps.bind (.modify fun g tidy => ?_) fun _ _ => .pure ?_
    · exact { tidy with waits := fun h inside => tidy.waits h (List.dropLast_subset _ inside) }
    · exact tidy.waits h (List.mem_of_getLast? last)

theorem tidies_addressOf (sym : Symbol) : Tidies keys numbers (addressOf sym) fun _ => True := by
  unfold addressOf
  refine Keeps.get.bind fun g _ => ?_
  dsimp only
  split
  · split
    · exact .pure trivial
    · exact .throw fun _ _ => rfl
  · exact .pure trivial

theorem hold_within (fine : op.Fine True True) (start : g.Accounted k) (tidy : g.Tidy keys numbers)
    (neat : ∀ op ∈ k.held, op.Neat) (room : narrow → k.waiting + k.held.length < mostPins) :
    Ends (hold op) g (fun _ g' => g'.Accounted (k.hold op) ∧ g'.Tidy keys numbers)
      fun e g' => g'.Excuses narrow e := by
  refine (hold_tidy start tidy (fine.real trivial)).mono (fun _ _ here => here) ?_
  rintro _ g' ⟨r, inside, full, rfl⟩
  refine ⟨fun given => ?_, nofun⟩
  have before := start.pins_le tidy neat r
  have once := List.nodup_iff_count_le_one.mp (fine.distinct trivial).nodup r
  have room := room given
  omega

theorem holdValue_within {id : NodeId} (fine : op.Fine True True) (start : g.Accounted k)
    (tidy : g.Tidy keys numbers) (neat : ∀ op ∈ k.held, op.Neat)
    (room : narrow → k.waiting + k.held.length < mostPins) :
    Ends (holdValue id op) g (fun _ g' => g'.Accounted k.wait ∧ g'.Tidy keys numbers)
      fun e g' => g'.Excuses narrow e := by
  refine (hold_within fine start tidy neat room).bind fun _ g' ⟨start, tidy⟩ => ?_
  refine ⟨start.wait, { tidy with waits := ?_ }⟩
  exact List.forall_mem_append.mpr
    ⟨tidy.waits, List.forall_mem_singleton.mpr ⟨fine.distinct trivial, nofun⟩⟩

theorem sparing_hold (fine : op.Fine True True)
    (rest : Sparing narrow numbers keys n (k.hold op) k' (f ()) result) :
    Sparing narrow numbers keys (n + 1) k k' (hold op >>= f) result := by
  intro neat room g start tidy
  refine (hold_within fine start tidy neat fun given => ?_).bind ?_
  · have room := room given
    omega
  · rintro _ g' ⟨start, tidy⟩
    have all := List.forall_mem_cons.mpr ⟨fine.distinct trivial, neat⟩
    refine rest all (fun given => ?_) g' start tidy
    have room := room given
    simp only [Holdings.hold, List.length_cons]
    omega

theorem sparing_release {others : List Operand} (here : k.held.Perm (op :: others))
    (rest : Sparing narrow numbers keys (n + 1) { k with held := others } k' (f ()) result) :
    Sparing narrow numbers keys n k k' (release op >>= f) result := by
  intro neat room g start tidy
  refine ((release_tidy start tidy here).mono (fun _ _ here => here) fun _ _ => False.elim).bind ?_
  rintro _ g' ⟨start, tidy⟩
  refine rest (fun op inside => neat op ?_) (fun given => ?_) g' start tidy
  · exact here.mem_iff.mpr (List.mem_cons_of_mem _ inside)
  · have fewer := here.length_eq
    have room := room given
    simp only [List.length_cons] at fewer ⊢
    omega

theorem sparing_wait {id : NodeId} (fine : op.Fine True True)
    (rest : Sparing narrow numbers keys n k.wait k' (f ()) result) :
    Sparing narrow numbers keys (n + 1) k k' (holdValue id op >>= f) result := by
  intro neat room g start tidy
  refine (holdValue_within fine start tidy neat fun given => ?_).bind ?_
  · have room := room given
    omega
  · rintro _ g' ⟨start, tidy⟩
    refine rest neat (fun given => ?_) g' start tidy
    have room := room given
    dsimp only [Holdings.wait]
    omega

theorem sparing_take {w : Nat} {held : List Operand} {f : HeldValue → Gen α}
    (rest : ∀ id op, op.Fine True True →
      Sparing narrow numbers keys n ⟨w, op :: held⟩ k' (f ⟨id, op, false⟩) result)
    (moved : ∀ id op, op.Fine True True → (True → ∃ slot, op = slotOperand slot) →
      Sparing narrow numbers keys (n + 1) ⟨w, held⟩ k' (f ⟨id, op, true⟩) result) :
    Sparing narrow numbers keys n ⟨w + 1, held⟩ k' (popHeld >>= f) result := by
  intro neat room g start tidy
  have taken := (popHeld_accounted start (Nat.succ_pos _)).and (tidies_popHeld.ends g tidy)
  refine (taken.mono (fun _ _ here => here) fun _ _ failed => failed.1.elim).bind ?_
  rintro ⟨id, op, demoted⟩ g' ⟨⟨counted, real⟩, tidy, once, slot⟩
  have fine : op.Fine True True := ⟨fun _ => real, fun _ => once⟩
  cases demoted with
  | false =>
    refine rest id op fine (List.forall_mem_cons.mpr ⟨once, neat⟩) (fun given => ?_) g' counted tidy
    have room := room given
    simp only [List.length_cons] at room ⊢
    omega
  | true =>
    refine moved id op fine (fun _ => slot rfl) neat (fun given => ?_) g' counted tidy
    have room := room given
    dsimp only at room ⊢
    omega

def sparingly (narrow : Prop) (numbers : Array (Option NodeId)) : Discipline where
  Context := List ValueKey
  real := True
  distinct := True
  lax := ¬narrow
  Emits _ := True
  Knows keys id w := narrow → ValueKey.Waits keys id w
  Is keys id v := (∀ key, keys[id.index]? = some key → v.key = key) ∧
    ∀ op, v.loc = some op → op.Fine True True
  Runs keys n k k' _ x result := Sparing narrow numbers keys n k k' x result
  mono := Sparing.mono
  bind := Sparing.bind
  handles handles := sparing_of (handles.level fun _ fine => fine.real trivial)
    ((handles.tidies fun _ fine => fine.distinct trivial).imp fun _ _ => trivial)
  emit _ := sparing_of (level_emit' _) ((tidies_emit _).bind fun _ _ => .pure trivial)
  alloc {_ _ k} clear _ _ g start tidy := by
    have left : 0 < (k.unread (Reg.handedOut false)).length := by
      rw [Holdings.unread, clear trivial]
      decide
    obtain ⟨r, candidate, allocatable, unread⟩ := exists_unread left
    exact (alloc_tidy start tidy candidate allocatable unread).imp fun _ _ taken =>
      ⟨taken.1, taken.2.1⟩
  allocValue ty spares _ _ g start tidy := by
    have counts := ((level_allocValue ty).through _).ends start
    refine (counts.and (allocValue_tidy (spares trivial) start tidy)).mono ?_
      fun _ _ failed => failed.2
    rintro op g' ⟨⟨_, counted, rfl, real⟩, tidy, neat, apart⟩
    exact ⟨⟨counted, tidy⟩, ⟨fun _ => real, fun _ => neat⟩, fun _ => apart⟩
  hold := sparing_hold
  release := sparing_release
  wait := sparing_wait
  take := sparing_take
  node id _ _ g start tidy := by
    refine ⟨⟨start, tidy⟩, fun key found => ?_, fun op place => ?_⟩
    · obtain ⟨rest, same⟩ := tidy.keys
      rw [ValuePool.key_node, ← same, List.getD_eq_getElem?_getD,
        List.getElem?_append_left (List.getElem?_eq_some_iff.mp found).1, found]
      rfl
    · exact ⟨fun _ => start.located id op place, fun _ => tidy.located id op place⟩
  placed known place := known.2 _ place
  kid knows known left given := by
    cases knows given with
    | leaf found none =>
      rw [known.1 _ found, none] at left
      cases left
    | unary found one _ kid =>
      rw [known.1 _ found, one] at left
      cases left
      exact kid
    | binary found one _ first _ =>
      rw [known.1 _ found, one] at left
      cases left
      exact first.mono List.prefix_rfl (Nat.le_succ _)
  kids knows known left right := by
    by_cases given : narrow
    · cases knows given with
      | leaf found none =>
        rw [known.1 _ found, none] at left
        cases left
      | unary found _ none _ =>
        rw [known.1 _ found, none] at right
        cases right
      | binary found one two first second =>
        rw [known.1 _ found, one] at left
        rw [known.1 _ found, two] at right
        cases left
        cases right
        exact ⟨fun _ => second, _, fun _ => first, .inl (Nat.lt_succ_self _)⟩
    · exact ⟨(absurd · given), 0, (absurd · given), .inr given⟩
  stage {keys n k k' α kid ty w f result} knows rest neat room g start tidy := by
    have grown : keys <+: (g.pool.staged kid ty g.seq).keys := by
      rw [ValuePool.keys_staged]
      exact tidy.keys.trans (List.prefix_append _ _)
    have waits : narrow → ValueKey.Waits (g.pool.staged kid ty g.seq).keys ⟨g.pool.size⟩ w :=
      fun given => .unary (g.pool.found_staged kid ty g.seq) rfl rfl
        ((knows given).mono grown (Nat.le_refl w))
    have counted : Accounted k { g with pool := g.pool.staged kid ty g.seq } :=
      start.congr (fun _ => rfl) rfl fun id op place =>
        start.located id op (ValuePool.loc_staged place)
    have tidied : Tidy (g.pool.staged kid ty g.seq).keys numbers
        { g with pool := g.pool.staged kid ty g.seq } :=
      { tidy with
        keys := List.prefix_rfl
        located := fun id op place => tidy.located id op (ValuePool.loc_staged place) }
    refine .after_ok (x := stage kid ty) rfl ?_
    refine (rest _ _ waits neat room _ counted tidied).imp ?_
    rintro a g' ⟨⟨counted, tidy⟩, here⟩
    exact ⟨⟨counted, { tidy with keys := grown.trans tidy.keys }⟩, here⟩
  constant _ _ := sparing_of (level_onSymbols _)
    (.modifyGet fun _ tidy => ⟨tidy.beside rfl rfl rfl rfl, trivial⟩)
  address _ _ _ _ _ neat room g start tidy := by
    refine (sparing_of (level_addressOf _) (tidies_addressOf _) neat room g start tidy).imp ?_
    rintro a _ ⟨kept, real⟩
    refine ⟨kept, fun _ => real, fun _ => Operand.neat_of_length ?_⟩
    cases base : a.base <;> simp [Operand.regs, base]

theorem tidies_shapeFrame (code : Code) : Tidies keys numbers (shapeFrame code) fun _ => True := by
  unfold shapeFrame
  split
  · exact .modify fun _ tidy => tidy.beside rfl rfl rfl rfl
  · rename_i level
    refine Keeps.get.bind fun g _ => Keeps.get.bind fun g' _ => ?_
    generalize left : g.frame.leaveBlock level g'.seq = outcome
    obtain ⟨result, frame⟩ := outcome
    refine Keeps.bind (.modify fun _ tidy => tidy.beside rfl rfl rfl rfl) fun _ _ => ?_
    cases result with
    | ok _ => exact .pure trivial
    | error cause =>
      refine .throw fun _ _ => ?_
      rcases Frame.leaveBlock_error left with rfl | ⟨_, rfl⟩ <;> rfl
  · exact .modify fun _ tidy => tidy.beside rfl rfl rfl rfl
  · exact .pure trivial

theorem sparing_numberOf (l : LinId) :
    Sparing narrow numbers keys n k k (numberOf l) fun id => numbers[l.index]? = some (some id) := by
  intro _ _ g start tidy
  unfold numberOf
  refine .after_ok (x := get) rfl ?_
  rw [tidy.numbers]
  split
  · rename_i found
    exact ⟨⟨start, tidy⟩, found⟩
  · exact excuses_of rfl

theorem sparing_selectCode (f : LinearFunction) (pos : Nat) {w : Nat}
    (waits : narrow → ∀ l ∈ (f.codes.getD pos default).operand?, ∀ id,
      numbers[l.index]? = some (some id) → ValueKey.Waits keys id w) :
    Sparing narrow numbers keys (w + 2) .none .none (selectCode select f pos) fun _ => True := by
  refine (sparingly narrow numbers).runs_selectCode (fun _ => trivial) (fun _ => rfl) f pos
    ?_ (fun _ _ _ _ _ _ _ _ => excuses_of rfl) ?_ ?_ ?_
  · intro l operand rest runs
    exact (sparing_numberOf l).bind fun id found =>
      runs keys id fun given => waits given l operand id found
  · exact fun id => sparing_of (.modify (fun _ => rfl) (fun _ => rfl) fun _ located => located)
      (.modify fun _ tidy => tidy.beside rfl rfl rfl rfl)
  · exact fun i => sparing_of (level_emit i) (tidies_emit i)
  · exact sparing_of (level_shapeFrame _) (tidies_shapeFrame _)

theorem sparing_bindParam (sym : Symbol) :
    Sparing narrow numbers keys n k k (bindParam sym) fun _ => True :=
  sparing_of (.modify (fun _ => rfl) (fun _ => rfl) fun _ located => located)
    (.modify fun _ tidy => tidy.beside rfl rfl rfl rfl)

theorem sparing_stepCode (f : LinearFunction) (reachable : Bool) (pos : Nat) {w : Nat}
    (waits : narrow → ∀ l ∈ (f.codes.getD pos default).operand?, ∀ id,
      numbers[l.index]? = some (some id) → ValueKey.Waits keys id w) :
    Sparing narrow numbers keys (w + 2) .none .none (stepCode select f reachable pos)
      fun _ => True := by
  unfold stepCode
  have move : Sparing narrow numbers keys (w + 2) .none .none (modify fun g => { g with seq := pos })
      fun _ => True :=
    sparing_of (.modify (fun _ => rfl) (fun _ => rfl) fun _ located => located)
      (.modify fun _ tidy => tidy.beside rfl rfl rfl rfl)
  refine move.bind fun _ _ => ?_
  split
  · exact sparing_selectCode f pos waits
  dsimp only
  split
  · exact sparing_of (level_shapeFrame _) (tidies_shapeFrame _)
  · exact sparing_of (.pure trivial) (.pure trivial)

end Sparing

end Gen

end CBackend
