import CBackend.Proofs.Selection.Aborts
import CBackend.Proofs.Selection.Handout
import CBackend.Proofs.Selection.OperandOrder

/-!
Compilation ends. A recursion is unrolled here, with anything at all done where its last level is
left: if that makes no difference, no deeper level is ever entered. Uses are counted from values to
their operands, which come first. Values are selected likewise, with at most one stage in between. The
search for a register moves an operand that waits to memory in every round, and moving one there
needs no register.
-/

namespace CBackend

namespace UseCount

def level (seq : Nat) (count : Bool → NodeId → UseCount → UseCount) (root : Bool) (id : NodeId)
    (c : UseCount) : UseCount :=
  let again := c.pool.passesThrough id
  let pool := c.pool.modify id fun n => { n with
    lastRef := max n.lastRef seq
    pending := if root then n.pending else n.pending + 1 }
  let first := !c.met.contains id
  let c := ⟨pool, if first then id :: c.met else c.met⟩
  let key := (pool.node id).key
  if root || (!key.op.hasSideEffect && (first || again)) then
    key.kids.foldl (fun c k => count false k c) c
  else c

variable {seq : Nat} {c : UseCount}

theorem level_congr {count : Bool → NodeId → UseCount → UseCount} {fuel : Nat} {id : NodeId}
    (same : ∀ k c, k.index < id.index → c.pool.OperandsFirst → count false k c = add seq fuel false k c)
    (ordered : c.pool.OperandsFirst) (root : Bool) :
    level seq count root id c = level seq (add seq fuel) root id c := by
  have all (kids : List NodeId) (smaller : ∀ k ∈ kids, k.index < id.index) {c : UseCount}
      (ordered : c.pool.OperandsFirst) : kids.foldl (fun c k => count false k c) c =
        kids.foldl (fun c k => add seq fuel false k c) c := by
    induction kids generalizing c with
    | nil => rfl
    | cons k kids ih =>
      rw [List.foldl_cons, List.foldl_cons, same k c (smaller k List.mem_cons_self) ordered]
      refine ih (fun k later => smaller k (List.mem_cons_of_mem _ later)) ?_
      exact ordered.congr (add_keys seq fuel false k c).1
  have counted : (c.pool.modify id fun n => { n with
      lastRef := max n.lastRef seq
      pending := if root then n.pending else n.pending + 1 }).OperandsFirst :=
    ordered.congr (c.pool.keys_modify id fun _ => rfl)
  unfold level
  dsimp only
  generalize (c.pool.modify id fun n => _) = pool at counted ⊢
  split
  · exact all _ (counted id) (c := ⟨pool, _⟩) counted
  · rfl

theorem level_iterate {id : NodeId} {depth : Nat} (deep : id.index < depth)
    (cut : Bool → NodeId → UseCount → UseCount) (ordered : c.pool.OperandsFirst) (root : Bool) :
    (level seq)^[depth] cut root id c = add seq depth root id c := by
  induction depth generalizing id root c with
  | zero => cases deep
  | succ depth ih =>
    rw [Function.iterate_succ_apply']
    exact level_congr (fun k c smaller ordered => ih (by omega) ordered false) ordered root

end UseCount

namespace Gen

open Generator

variable {α β : Type} {g : Generator}

theorem find?_move_registers {ty : ValueClass}
    (missing : SelectionTable.move.find? (SelectionKey.pack .ind .reg ty) = none) :
    SelectionTable.move.find? (SelectionKey.pack .reg .reg ty) = none := by
  have all : ∀ c ∈ ValueClass.all, SelectionTable.move.find? (SelectionKey.pack .ind .reg c) = none →
      SelectionTable.move.find? (SelectionKey.pack .reg .reg c) = none := by
    decide +kernel
  exact all ty ty.mem_all missing

/-- Moving registers to memory like any other value asks for no register: a class whose registers
cannot be stored fails before one is handed out. -/
theorem toMemory_registers (id : NodeId) {op : Operand} (format : op.format = .reg) :
    toMemory id op = registersToMemory id op := by
  funext g
  unfold toMemory registersToMemory
  rw [bind_run (x := node id) rfl, bind_run (x := node id) rfl, format]
  generalize known : g.pool.node id = v
  cases v.spill with
  | some => rfl
  | none =>
    dsimp only
    cases found : SelectionTable.move.find? (SelectionKey.pack .ind .reg v.ty.valueClass) with
    | some opcode =>
      have lookup : moveOpcode .ind .reg v.ty.valueClass = pure opcode := by
        rw [moveOpcode, SelectionTable.lookup, found]
        rfl
      simp only [Option.isSome_some, if_true, pure_bind, format, lookup]
    | none =>
      -- A class that has no instruction to store it has none to load it either.
      have fails : moveOpcode .reg .reg v.ty.valueClass =
          throw (.selectionMiss SelectionTable.move.name
            (SelectionKey.pack .reg .reg v.ty.valueClass)) := by
        rw [moveOpcode, SelectionTable.lookup, find?_move_registers found]
        rfl
      simp only [Option.isSome_none, Bool.false_eq_true, if_false, loadRegisters, bind_assoc, format]
      rw [bind_run (x := node id) rfl, known, fails]
      rfl

/-- The first does as the second does, unless it stops for want of a level. -/
def Approximates (x y : Gen α) : Prop :=
  ∀ g, x g = y g ∨ ∃ id g', x g = .error (.invariant (.cyclicValue id)) g'

namespace Approximates

variable {x y : Gen α} {f f' : α → Gen β}

theorem refl (x : Gen α) : Approximates x x := fun _ => .inl rfl

theorem bind (first : Approximates x y) (rest : ∀ a, Approximates (f a) (f' a)) :
    Approximates (x >>= f) (y >>= f') := by
  intro g
  change EStateM.bind x f g = EStateM.bind y f' g ∨ ∃ id g', EStateM.bind x f g = .error _ g'
  unfold EStateM.bind
  rcases first g with same | ⟨id, g', stops⟩
  · rw [← same]
    cases x g with
    | ok a g' => exact rest a g'
    | error e g' => exact .inl rfl
  · rw [stops]
    exact .inr ⟨id, g', rfl⟩

theorem after (x : Gen α) (rest : ∀ a, Approximates (f a) (f' a)) :
    Approximates (x >>= f) (x >>= f') := (refl x).bind rest

theorem before (first : Approximates x y) : Approximates (x >>= f) (y >>= f) :=
  first.bind fun _ => refl _

theorem forM {as : List α} {f f' : α → Gen PUnit} (round : ∀ a, Approximates (f a) (f' a)) :
    Approximates (as.forM f) (as.forM f') := by
  induction as with
  | nil => exact refl _
  | cons a as ih => exact (round a).bind fun _ => ih

end Approximates

section Levels

variable {s t : Selector} (below : ∀ id mask, Approximates (s id mask) (t id mask))
include below

theorem approximates_selectBinary (id : NodeId) :
    Approximates (selectBinary s id) (selectBinary t id) := by
  unfold selectBinary
  refine .after _ fun n => .after _ fun kids => ?_
  obtain ⟨l, r⟩ := kids
  refine .after _ fun table => ?_
  refine (below r _).bind fun rhs => ?_
  refine .after _ fun _ => ?_
  exact (below l _).before

theorem approximates_selectUnary (id : NodeId) :
    Approximates (selectUnary s id) (selectUnary t id) := by
  unfold selectUnary
  refine .after _ fun n => .after _ fun table => .after _ fun op => .after _ fun kid => ?_
  exact (below kid _).before

theorem approximates_compareKids (id : NodeId) :
    Approximates (compareKids s id) (compareKids t id) := by
  unfold compareKids
  refine .after _ fun kids => ?_
  obtain ⟨l, r⟩ := kids
  refine .after _ fun n => ?_
  refine (below r _).bind fun rhs => ?_
  refine .after _ fun _ => ?_
  exact (below l _).before

theorem approximates_convert (id kid : NodeId) (ty srcTy : CType) :
    Approximates (convert s id kid ty srcTy) (convert t id kid ty srcTy) := by
  unfold convert
  dsimp only
  split
  · exact .refl _
  · exact (below kid _).before

theorem approximates_selectConversion (id : NodeId) :
    Approximates (selectConversion s id) (selectConversion t id) := by
  have convert := approximates_convert below
  unfold selectConversion
  refine .after _ fun n => .after _ fun kid => .after _ fun n' => ?_
  dsimp only
  split
  · split
    · exact (below kid _).before
    · exact convert id kid _ _
  split
  · split
    · exact .after _ fun staged => convert id staged _ _
    · exact convert id kid _ _
  split
  · split
    · exact convert id kid _ _
    · exact .after _ fun staged => (below staged _).before
  split
  · exact convert id kid _ _
  · exact .refl _

theorem approximates_compute (id : NodeId) : Approximates (compute s id) (compute t id) := by
  unfold compute
  refine .after _ fun n => ?_
  cases n.op with
  | const | addr | assign | call => exact .refl _
  | load => exact .after _ fun kid => (below kid _).before
  | neg | compl => exact approximates_selectUnary below id
  | cmp cond => exact (approximates_compareKids below id).before
  | cvt => exact approximates_selectConversion below id
  | add | sub | mul | div | mod | and | or | xor | shl | shr =>
    exact approximates_selectBinary below id

end Levels

def selectLevel (select : Selector) : Selector := fun id mask => do
  modifyNode id fun n => { n with pending := n.pending - 1 }
  let op ←
    match (← node id).loc with
    | some loc => pure loc
    | none => compute select id
  coerce id op mask

theorem approximates_selectLevel {s t : Selector}
    (below : ∀ id mask, Approximates (s id mask) (t id mask)) (id : NodeId) (mask : Format) :
    Approximates (selectLevel s id mask) (selectLevel t id mask) := by
  unfold selectLevel
  refine .after _ fun _ => .after _ fun n => ?_
  dsimp only
  split
  · exact .refl _
  · exact (approximates_compute below id).before

theorem approximates_iterate (cut : Selector) {fuel depth : Nat} (deep : fuel ≤ depth) (id : NodeId)
    (mask : Format) : Approximates (selectWithin fuel id mask) (selectLevel^[depth] cut id mask) := by
  induction fuel generalizing depth id mask with
  | zero => exact fun g => .inr ⟨id, g, rfl⟩
  | succ fuel ih =>
    obtain ⟨depth, rfl⟩ := Nat.exists_eq_add_of_lt deep
    rw [Function.iterate_succ_apply']
    exact approximates_selectLevel (fun id mask => ih (by omega) id mask) id mask

section Codes

variable {s t : Selector} (below : ∀ id mask, Approximates (s id mask) (t id mask))
include below

theorem approximates_selectAssign (id : NodeId) :
    Approximates (selectAssign s id) (selectAssign t id) := by
  unfold selectAssign
  refine .after _ fun n => .after _ fun kids => ?_
  obtain ⟨a, v⟩ := kids
  refine (below v _).bind fun src => ?_
  refine .after _ fun _ => ?_
  exact (below a _).before

theorem approximates_selectCall (id : NodeId) :
    Approximates (selectCall s id) (selectCall t id) := by
  unfold selectCall
  exact .after _ fun n => .after _ fun callee => (below callee _).before

theorem approximates_selectEffect (id : NodeId) :
    Approximates (selectEffect s id) (selectEffect t id) := by
  unfold selectEffect
  refine .after _ fun n => ?_
  split
  · exact approximates_selectAssign below id
  · exact approximates_selectCall below id
  · exact .refl _

theorem approximates_selectBranch (id : NodeId) (target : Symbol) :
    Approximates (selectBranch s id target) (selectBranch t id target) := by
  unfold selectBranch
  refine .after _ fun n => ?_
  split
  · exact (approximates_compareKids below id).before
  · exact .refl _

theorem approximates_returnValue (id : NodeId) :
    Approximates (returnValue s id) (returnValue t id) := by
  unfold returnValue
  refine .after _ fun n => ?_
  dsimp only
  split
  · exact .refl _
  · exact (below id _).before

theorem approximates_selectCode (f : LinearFunction) (pos : Nat) :
    Approximates (selectCode s f pos) (selectCode t f pos) := by
  unfold selectCode
  cases f.codes.getD pos default with
  | eval l =>
    refine .after _ fun n => ?_
    split
    · exact .after _ (approximates_selectEffect below)
    · exact .refl _
  | arg l => exact .after _ fun id => .after _ fun n => (below id _).before
  | branch l target => exact .after _ fun id => approximates_selectBranch below id target
  | ret value =>
    cases value with
    | none => exact .refl _
    | some l => exact .after _ fun id => (approximates_returnValue below id).before
  | zeroFill l bytes => exact .after _ fun id => (below id _).before
  | jump | label | frameEnter | frameExit | blockEnter | blockLeave | declare => exact .refl _

theorem approximates_stepCode (f : LinearFunction) (reachable : Bool) (pos : Nat) :
    Approximates (stepCode s f reachable pos) (stepCode t f reachable pos) := by
  unfold stepCode
  refine .after _ fun _ => ?_
  split
  · exact approximates_selectCode below f pos
  · exact .refl _

theorem approximates_generate (f : LinearFunction) :
    Approximates (f.generate s) (f.generate t) := by
  unfold LinearFunction.generate
  refine .after _ fun graph => ?_
  exact (Approximates.forM fun step : Bool × Nat => approximates_stepCode below f step.1 step.2).before

end Codes

end Gen

open Gen Generator

namespace LinearFunction

/-- Nothing goes on forever while a function is compiled. -/
structure Terminates (f : LinearFunction) (g : Generator) : Prop where
  ordered : g.pool.OperandsFirst ∧
    AtAllTimes (fun g => g.pool.OperandsFirst) (fun _ => True) f.compile fun _ _ => True
  counting : ∀ seq root id (c : UseCount), c.pool.OperandsFirst → ∀ depth cut, id.index < depth →
    (UseCount.level seq)^[depth] cut root id c = UseCount.add seq (id.index + 1) root id c
  selecting : ∀ (depth : NodeId → Nat) (cut : Selector), (∀ id, 2 * id.index + 2 ≤ depth id) →
    f.compileWith (fun id => selectLevel^[depth id] cut id) g = f.compile g
  choosing : ∀ mask (g : Generator) rounds cut, g.waiting < rounds →
    (chooseRound mask)^[rounds] cut g = chooseRegister mask (g.held.length + 1) g
  /-- An operand that waits in registers is moved to memory like any other value, and no register is
  asked for. -/
  demoting : ∀ id op, op.format = .reg → toMemory id op = registersToMemory id op
  ending : Ends f.compile g (fun _ _ => True) fun e _ => ∀ id, e ≠ .invariant (.cyclicValue id)
  /-- Besides a function and an error that is reported there is no end but an abort, and there is no
  other where the frame has overflowed. -/
  aborting : Ends f.compile g (fun _ g' => g'.frame.overflowed = false) fun e g' =>
    (e.aborts = true → f.Aborts g' e) ∧
      (g'.frame.overflowed = true → e = .invariant (.aborted .frameOverflow))

variable {g : Generator}

theorem compile_not_cyclic (f : LinearFunction) (used : g.Used) :
    Ends f.compile g (fun _ _ => True) fun e _ => ∀ id, e ≠ .invariant (.cyclicValue id) := by
  refine (f.compile_ends used.reserved).mono (fun _ _ _ => trivial) fun e _ failed id cyclic => ?_
  rw [cyclic] at failed
  cases failed.2

/-- Compilation terminates for all linear code, even where it refers to nodes that come later or are
never evaluated or evaluates a node several times, and whatever was compiled before. -/
theorem compile_terminates (f : LinearFunction) (used : g.Used) : f.Terminates g where
  ordered := ⟨used.operandsFirst, f.operandsFirst_compile⟩
  counting seq root id c ordered depth cut deep := by
    obtain ⟨more, rfl⟩ := Nat.exists_eq_add_of_le deep
    rw [Function.iterate_add_apply]
    exact UseCount.level_iterate (Nat.lt_succ_self _) _ ordered root
  selecting depth cut deep := by
    have below := approximates_generate
      (fun id mask => approximates_iterate cut (deep id) id mask) f g
    rcases below with same | ⟨id, g', stops⟩
    · change f.generate select g = _ at same
      rw [compile, compileWith, compileWith, checked_run, checked_run, same]
    · have consistent := ((f.generate_ends used.reserved).error stops).2
      cases consistent
  choosing mask g rounds cut enough := by
    obtain ⟨more, rfl⟩ := Nat.exists_eq_add_of_le enough
    have most : g.waiting + 1 ≤ g.held.length + 1 := Nat.succ_le_succ List.countP_le_length
    obtain ⟨rest, same⟩ := Nat.exists_eq_add_of_le most
    rw [chooseRegister_eq_iterate, same, Function.iterate_add_apply, Function.iterate_add_apply]
    exact chooseRound_iterate (Nat.lt_succ_self _) _ _
  demoting id _ format := toMemory_registers id format
  ending := f.compile_not_cyclic used
  aborting := f.compile_aborts used

/-- A conversion of a node that comes later, both of which are evaluated twice, and a sum of nodes that
do not exist. -/
def tangled : LinearFunction where
  name := ⟨0⟩
  ret := .void
  params := []
  codes := #[.frameEnter, .eval ⟨1⟩, .eval ⟨2⟩, .eval ⟨0⟩, .eval ⟨2⟩, .eval ⟨0⟩, .arg ⟨0⟩, .label ⟨2⟩,
    .frameExit]
  nodes := #[
    { op := .cvt, ty := .uchar, left := some ⟨2⟩ },
    { op := .addr, ty := .pointer, sym := some ⟨1⟩ },
    { op := .call, ty := .double, left := some ⟨1⟩ },
    { op := .add, ty := .int, left := some ⟨7⟩, right := some ⟨3⟩ }]
  exit := ⟨2⟩

theorem tangled_values :
    (do let _ ← tangled.compile; return (← get).pool.keys.map ValueKey.kids : Gen _).run'
      (.init {} .measure) = some [[], [⟨0⟩], [⟨1⟩], [⟨0⟩], [⟨3⟩], [⟨3⟩]] := by
  decide +kernel

/-- The function is compiled, with one value put between two others. -/
theorem compile_terminates_tangled : (Generator.init {} .measure).Used ∧
    tangled.Terminates (.init {} .measure) ∧
    ∃ c g, tangled.compile (.init {} .measure) = .ok c g ∧
      g.pool.keys.map ValueKey.kids = [[], [⟨0⟩], [⟨1⟩], [⟨0⟩], [⟨3⟩], [⟨3⟩]] := by
  have used : (Generator.init {} .measure).Used := .init {} .measure
  obtain ⟨_, run⟩ := exists_of_run' tangled_values
  obtain ⟨c, g, compiles, last⟩ := bind_eq_ok.mp run
  exact ⟨used, tangled.compile_terminates used, c, g, compiles, (EStateM.Result.ok.inj last).1⟩

end LinearFunction

end CBackend
