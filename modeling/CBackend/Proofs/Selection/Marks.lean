import Mathlib.Data.List.Forall2
import CBackend.Proofs.Flow
import CBackend.Proofs.Lowering.Outline
import CBackend.Proofs.Selection.Emission

/-!
The instructions of a function, code by code. Each code in use gives its marks in a row, with other
instructions before them and, for a call, after them; the codes that shape the frame open and close
its blocks as they nest. What a compiled function does to the flow of control can thus be read off
its linear code.
-/

namespace CBackend

/-- What an instruction does to the flow of control, and the code it was selected for. -/
def Instr.role (i : Instr) : Option Mark × Nat := (i.mark?, i.seq)

/-- The mark of an instruction, if it has one, with the code it was selected for. -/
def Instr.stamp? (i : Instr) : Option (Mark × Nat) := i.mark?.map fun m => (m, i.seq)

namespace LinearFunction

def marksOf (f : LinearFunction) (pos : Nat) : Code → List Mark
  | .eval lin => if (f.node lin).op = .call then [.call] else []
  | .jump l => [.jump (some l)]
  | .branch _ l => [.branch (some l)]
  | .label l => [.label (some l)]
  | .ret _ => if f.codes[pos + 1]? = some (.label f.exit) then [] else [.jump (some f.exit)]
  | .frameEnter => [.enter]
  | .frameExit => [.leave, .ret]
  | _ => []

def marksAt (f : LinearFunction) (pos : Nat) : List Mark := f.marksOf pos (f.codes.getD pos default)

def Segment (f : LinearFunction) (pos : Nat) (roles : List (Option Mark × Nat)) : Prop :=
  ∃ before after,
    roles = List.replicate before (none, pos) ++ (f.marksAt pos).map (fun m => (some m, pos)) ++
      List.replicate after (none, pos) ∧
    (.enter ∈ f.marksAt pos → before = 0) ∧ (.call ∉ f.marksAt pos → after = 0)

variable {f : LinearFunction} {pos : Nat} {roles : List (Option Mark × Nat)}

theorem Segment.stamps (segment : f.Segment pos roles) :
    roles.filterMap (fun r => r.1.map fun m => (m, r.2)) = (f.marksAt pos).map fun m => (m, pos) := by
  obtain ⟨before, after, rfl, -, -⟩ := segment
  simp [List.filterMap_append, List.filterMap_map]

theorem Segment.head (segment : f.Segment pos roles) (enters : f.marksAt pos = [.enter]) :
    roles.head? = some (some .enter, pos) := by
  obtain ⟨before, after, rfl, first, -⟩ := segment
  rw [first (by simp [enters]), enters]
  rfl

theorem Segment.last {m : Mark} (segment : f.Segment pos roles)
    (last : (f.marksAt pos).getLast? = some m) (quiet : .call ∉ f.marksAt pos) :
    roles.getLast? = some (some m, pos) := by
  obtain ⟨before, after, rfl, -, end_⟩ := segment
  rw [end_ quiet, List.replicate_zero, List.append_nil, List.getLast?_append, List.getLast?_map, last]
  rfl

end LinearFunction

namespace Generator

variable {f : LinearFunction} {pos : Nat} {g g' g₁ g₂ : Generator} {new : List Instr}

theorem Quiet.roles (quiet : g.Quiet g') :
    ∃ n new, new.map Instr.role = List.replicate n (none, g.seq) ∧ g.Emits new g' := by
  obtain ⟨new, plain, emits⟩ := quiet
  refine ⟨new.length, new, ?_, emits⟩
  refine List.eq_replicate_iff.mpr ⟨List.length_map _, List.forall_mem_map.mpr fun i inside => ?_⟩
  exact Prod.ext (plain i inside).1 (plain i inside).2

/-- What selecting the code at a position leaves: the instructions for it, with the same blocks
open. -/
def Selects (g : Generator) (f : LinearFunction) (pos : Nat) (g' : Generator) : Prop :=
  ∃ new, f.Segment pos (new.map Instr.role) ∧ g.Emits new g'

theorem Quiet.selects (quiet : g.Quiet g') (here : g.seq = pos) (none : f.marksAt pos = []) :
    g.Selects f pos g' := by
  obtain ⟨n, new, roles, emits⟩ := quiet.roles
  refine ⟨new, ⟨n, 0, ?_, by simp [none], fun _ => rfl⟩, emits⟩
  simp [roles, here, none]

theorem Quiet.selects_mark {i : Instr} {m : Mark} (quiet : g.Quiet g₁) (emits : g₁.Emits [i] g')
    (here : g.seq = pos) (marked : i.role = (some m, pos)) (marks : f.marksAt pos = [m])
    (later : m ≠ .enter) : g.Selects f pos g' := by
  obtain ⟨n, before, roles, first⟩ := quiet.roles
  refine ⟨before ++ [i], ⟨n, 0, ?_, fun enters => ?_, fun _ => rfl⟩, first.trans emits⟩
  · simp [roles, here, marks, marked]
  · rw [marks] at enters
    exact absurd (List.mem_singleton.mp enters).symm later

theorem Quiet.selects_call {i : Instr} (quiet : g.Quiet g₁) (emits : g₁.Emits [i] g₂)
    (quiet' : g₂.Quiet g') (here : g.seq = pos) (marked : i.role = (some .call, pos))
    (marks : f.marksAt pos = [.call]) : g.Selects f pos g' := by
  obtain ⟨n, before, roles, first⟩ := quiet.roles
  obtain ⟨n', after, roles', last⟩ := quiet'.roles
  have there : g₂.seq = pos := (emits.seq.trans quiet.seq).trans here
  refine ⟨before ++ [i] ++ after, ⟨n, n', ?_, ?_, ?_⟩, (first.trans emits).trans last⟩
  · simp [roles, roles', here, there, marks, marked]
  · simp [marks]
  · simp [marks]

end Generator

theorem Code.levels_of_leave {levels rest : List Nat} {level : Nat}
    (nests : (Code.blockLeave level).nest levels = some rest) : levels = level :: rest := by
  cases levels with
  | nil => cases nests
  | cons top outer =>
    simp only [Code.nest] at nests
    split at nests
    · rename_i same
      cases nests
      rw [same]
    · cases nests

theorem map_range_getD {α : Type} (xs : Array α) (other : α) :
    (List.range xs.size).map (fun i => xs.getD i other) = xs.toList := by
  refine List.ext_getElem (by simp) fun i here there => ?_
  have inside : i < xs.size := by simpa using there
  simp [inside]

namespace FlowGraph

variable {graph : FlowGraph}

theorem visited_eq_steps (graph : FlowGraph) :
    (graph.steps.filter Prod.fst).map Prod.snd = graph.visited := by
  unfold steps visited reachableBlocks
  induction graph.blocks.toList with
  | nil => rfl
  | cons b rest ih =>
    rw [List.flatMap_cons, List.filter_append, List.map_append, ih]
    cases used : b.reachable with
    | true => simp [used, List.filter_map, Function.comp_def]
    | false => simp [used, List.filter_map, Function.comp_def]

theorem positions_eq_steps (graph : FlowGraph) :
    graph.steps.map Prod.snd = graph.blocks.toList.flatMap Gen.positions := by
  simp [steps, List.map_flatMap, Function.comp_def]

theorem Models.codes {f : LinearFunction} (models : graph.Models f) :
    (graph.steps.map fun s => f.codes.getD s.2 default) = f.codes.toList := by
  calc graph.steps.map (fun s => f.codes.getD s.2 default)
      = (graph.steps.map Prod.snd).map fun pos => f.codes.getD pos default := by
        rw [List.map_map, Function.comp_def]
    _ = (List.range f.codes.size).map fun pos => f.codes.getD pos default := by
        rw [positions_eq_steps, models.positions]
    _ = f.codes.toList := map_range_getD f.codes default

theorem visited_build {f : LinearFunction} (ok : build f.codes f.exit = .ok graph)
    (models : graph.Models f) : graph.visited = List.range f.codes.size := by
  have used : graph.reachableBlocks = graph.blocks.toList := by
    refine List.filter_eq_self.mpr fun b inside => ?_
    obtain ⟨i, found⟩ := List.mem_iff_getElem?.mp inside
    rw [Array.getElem?_toList] at found
    exact (block_eq_ok ((build_eq_ok ok).2 i b found)).2.1
  rw [visited, used, models.positions]

end FlowGraph

def Generator.Faithful (f : LinearFunction) (g : Generator) : Prop :=
  ∀ lin id, g.numbers[lin.index]? = some (some id) → (f.node lin).op.hasSideEffect = true →
    (g.pool.keys[id.index]?).map ValueKey.op = some (f.node lin).op

theorem Generator.Faithful.congr {f : LinearFunction} {g g' : Generator} (faithful : g.Faithful f)
    (numbers : g'.numbers = g.numbers) (keys : g.pool.keys <+: g'.pool.keys) : g'.Faithful f := by
  intro lin id numbered effect
  rw [numbers] at numbered
  have known := faithful lin id numbered effect
  obtain ⟨key, found, same⟩ := Option.map_eq_some_iff.mp known
  obtain ⟨more, keys⟩ := keys
  rw [← keys, List.getElem?_append_left (List.getElem?_eq_some_iff.mp found).1]
  exact known

namespace Gen

open Generator

variable {α : Type} {f : LinearFunction} {pos : Nat} {g g₁ : Generator} {id : NodeId}
  {levels : List Nat}

theorem Quiets.at {x : Gen α} {result : α → Prop} (quiets : Quiets g x result) (quiet : g.Quiet g₁) :
    Ends x g₁ (fun _ g' => g.Quiet g') fun e _ => e.misshapen = false :=
  (quiets.ends g₁ quiet).imp fun _ _ ⟨quiet, _⟩ => quiet

abbrev SelectsAt (f : LinearFunction) (pos : Nat) (x : Gen Unit) (g : Generator) : Prop :=
  Ends x g (fun _ g' => g.Selects f pos g') fun e _ => e.misshapen = false

theorem Quiets.selects {x : Gen Unit} {result : Unit → Prop} (quiets : Quiets g x result)
    (here : g.seq = pos) (none : f.marksAt pos = []) : SelectsAt f pos x g :=
  (quiets.at (.refl g)).imp fun _ _ quiet => quiet.selects here none

theorem emit'_selects {i : Instr} {m : Mark} (quiet : g.Quiet g₁) (here : g.seq = pos)
    (marked : i.mark? = some m) (marks : f.marksAt pos = [m]) (later : m ≠ .enter) :
    Ends (emit' i) g₁ (fun _ g' => g.Selects f pos g') fun e _ => e.misshapen = false := by
  refine (emit'_ends i g₁).mono (fun _ g' emits => ?_) fun _ _ => False.elim
  exact quiet.selects_mark emits here (Prod.ext marked (quiet.seq.trans here)) marks later

theorem selectJump_selects {target : Symbol} (quiet : g.Quiet g₁) (here : g.seq = pos)
    (marks : f.marksAt pos = [.jump (some target)]) :
    Ends (selectJump target) g₁ (fun _ g' => g.Selects f pos g') fun e _ => e.misshapen = false :=
  (quiet_flushRegisters.at quiet).bind fun _ _ quiet => emit'_selects quiet here rfl marks nofun

theorem selectLabel_selects {label : Symbol} (here : g.seq = pos)
    (marks : f.marksAt pos = [.label (some label)]) : SelectsAt f pos (selectLabel label) g :=
  (quiet_flushRegisters.at (.refl g)).bind fun _ _ quiet => emit'_selects quiet here rfl marks nofun

theorem selectBranch_selects {target : Symbol} (here : g.seq = pos)
    (marks : f.marksAt pos = [.branch (some target)]) :
    SelectsAt f pos (selectBranch select id target) g := by
  unfold selectBranch
  refine .after_ok (x := node id) rfl ?_
  split
  · have compares : Quiets g (compareKids select id) _ :=
      (quietly g).runs_compareKids (c := ()) (k := .none) (w := 0) (quietly g).runs_select
        nofun trivial
    refine (compares.at (.refl g)).bind fun _ _ quiet => ?_
    refine (quiet_flushRegisters.at quiet).bind fun _ _ quiet => ?_
    exact emit'_selects quiet here rfl marks nofun
  · exact rfl

theorem selectCall_selects (here : g.seq = pos) (marks : f.marksAt pos = [.call]) :
    SelectsAt f pos (selectCall select id) g := by
  unfold selectCall
  refine .after_ok (x := node id) rfl ?_
  have reads : Quiets g (firstKid id) _ :=
    (quietly g).runs_firstKid (c := ()) (n := 0) (k := .none) (w := 0) trivial
  refine (reads.at (.refl g)).bind fun callee g₁ quiet => ?_
  refine ((quiet_select callee _).at quiet).bind fun target g₁ quiet => ?_
  -- The table is too large to be looked into.
  have looks : Quiets g _ _ := (@handles_entry (fun _ => True) true SelectionTable.call
    (SelectionKey.pack .none target.format .u32)).quiet
  generalize (ofExcept (SelectionTable.call.lookup _) : Gen Opcode) = opcode at looks ⊢
  refine (looks.ends g₁ quiet).bind fun op g₁ ⟨quiet, entry⟩ => ?_
  refine ((quiet_hold target).at quiet).bind fun _ g₁ quiet => ?_
  refine .after_ok (x := get) rfl ?_
  have frees (rs : List Reg) : Quiets g _ _ := (@handles_freeUnpinned (fun _ => True) true rs).quiet
  refine ((frees _).at quiet).bind fun _ g₁ quiet => ?_
  refine .after_ok (x := get) rfl ?_
  have saves (rs : List Reg) : Quiets g _ _ := (@handles_saveUsers (fun _ => True) true rs).quiet
  refine ((saves _).at quiet).bind fun _ g₁ quiet => ?_
  refine ((emit'_ends _ g₁).mono (fun _ _ emits => emits) fun _ _ => False.elim).bind
    fun _ g₂ emits => ?_
  have calls := SelectionTable.calls_call _ entry
  have marked := Instr.mark?_of_call (i := { op, ty := .u32, src := some target }) calls
  refine Ends.imp (?_ : Ends _ g₂ (fun _ g' => g₂.Quiet g') _) fun _ g' after =>
    quiet.selects_call emits after here (Prod.ext marked (quiet.seq.trans here)) marks
  have last (ty : CType) : Quiets g₂ _ _ :=
    (quietly g₂).runs_callResult (c := ()) (n := 0) (k := .none) id ty
  refine Quiets.at (?_ : Quiets g₂ _ fun _ => True) (.refl g₂)
  refine (quiet_release target).bind fun _ _ => ?_
  refine quiet_flushRegisters.bind fun _ _ => ?_
  dsimp only
  split
  · refine (quiet_onSymbols _).bind fun bytes _ => ?_
    exact (quiet_emit' rfl).bind fun _ _ => last _
  · exact last _

theorem numberOf_numbers (lin : LinId) (g : Generator) :
    Ends (numberOf lin) g (fun id g' => g' = g ∧ g.numbers[lin.index]? = some (some id))
      fun e _ => e.misshapen = false := by
  unfold numberOf
  refine .after_ok (x := get) rfl ?_
  split
  · rename_i id numbered
    exact ⟨rfl, numbered⟩
  · exact rfl

theorem numberOf_quiets {x : NodeId → Gen Unit} (quiets : ∀ id, Quiets g (x id) fun _ => True)
    (lin : LinId) (here : g.seq = pos) (none : f.marksAt pos = []) :
    SelectsAt f pos (numberOf lin >>= x) g := by
  refine (numberOf_numbers lin g).bind fun id g' ⟨same, _⟩ => ?_
  subst g'
  exact (quiets id).selects here none

theorem selectEffect_selects {lin : LinId} (faithful : g.Faithful f) (here : g.seq = pos)
    (code : f.codes.getD pos default = .eval lin) (effect : (f.node lin).op.hasSideEffect = true) :
    SelectsAt f pos (numberOf lin >>= selectEffect select) g := by
  refine (numberOf_numbers lin g).bind fun id g' ⟨same, numbered⟩ => ?_
  subst g'
  have op : (g.pool.node id).op = (f.node lin).op := by
    obtain ⟨key, found, same⟩ := Option.map_eq_some_iff.mp (faithful lin id numbered effect)
    rw [ValueNode.op, ValuePool.key_node, List.getD_eq_getElem?_getD, found]
    exact same
  have marks : f.marksAt pos = if (f.node lin).op = .call then [.call] else [] := by
    rw [LinearFunction.marksAt, code, LinearFunction.marksOf]
  unfold selectEffect
  refine .after_ok (x := node id) rfl ?_
  rw [op]
  cases kind : (f.node lin).op with
  | assign =>
    rw [kind, if_neg (by decide)] at marks
    have assigns : Quiets g (selectAssign select id) _ :=
      (quietly g).runs_selectAssign (c := ()) (k := .none) (w := 0) False.elim trivial
    exact assigns.selects here marks
  | call =>
    rw [kind, if_pos rfl] at marks
    exact selectCall_selects here marks
  | _ =>
    rw [kind] at effect
    cases effect

theorem shapeFrame_run {code : Code} (nests : code.nest g.frame.levels = some levels) :
    ∃ g', shapeFrame code g = .ok () g' ∧ g.Extends [] g' ∧ g'.frame.levels = levels := by
  have beside (frame : Frame) (symbols : SymbolTable) : g.Extends [] { g with frame, symbols } :=
    ⟨rfl, List.prefix_refl _, fun holds => by rwa [List.append_nil]⟩
  cases code with
  | blockEnter level =>
    cases nests
    exact ⟨_, rfl, beside _ _, Frame.levels_enterBlock level⟩
  | blockLeave level =>
    obtain ⟨ok, left⟩ := Frame.leaveBlock_of_levels (Code.levels_of_leave nests) g.seq
    refine ⟨{ g with frame := (g.frame.leaveBlock level g.seq).2 }, ?_, beside _ _, left⟩
    rw [shapeFrame, bind_run (x := get) rfl, bind_run (x := get) rfl]
    generalize g.frame.leaveBlock level g.seq = outcome at ok
    obtain ⟨result, frame⟩ := outcome
    subst ok
    rfl
  | declare sym =>
    cases nests
    exact ⟨_, rfl, beside _ _, Frame.levels_declareLocal _ _⟩
  | _ =>
    cases nests
    exact ⟨g, rfl, .refl g, rfl⟩

theorem shapeFrames_run {codes : List Code}
    (nests : codes.foldlM Code.nest g.frame.levels = some levels) :
    ∃ g', codes.forM shapeFrame g = .ok () g' ∧ g'.frame.levels = levels := by
  induction codes generalizing g with
  | nil => exact ⟨g, rfl, Option.some.inj nests⟩
  | cons code codes ih =>
    rw [List.foldlM_cons] at nests
    obtain ⟨between, first, rest⟩ := Option.bind_eq_some_iff.mp nests
    obtain ⟨g₁, run, -, rfl⟩ := shapeFrame_run first
    obtain ⟨g', later, last⟩ := ih rest
    refine ⟨g', ?_, last⟩
    rw [List.forM_eq_forM, List.forM_cons, bind_run run]
    exact later

abbrev StepsTo (f : LinearFunction) (pos : Nat) (g : Generator) (levels : List Nat)
    (g' : Generator) : Prop :=
  (∃ new, f.Segment pos (new.map Instr.role) ∧ g.Extends new g') ∧ g'.frame.levels = levels

theorem selectCode_ends (faithful : g.Faithful f) (here : g.seq = pos)
    (nests : (f.codes.getD pos default).nest g.frame.levels = some levels) :
    Ends (selectCode select f pos) g (fun _ g' => StepsTo f pos g levels g')
      fun e _ => e.misshapen = false := by
  -- All but the codes that shape the frame leave the open blocks as they are.
  have plain {x : Gen Unit} (nests : g.frame.levels = levels) (selects : SelectsAt f pos x g) :
      Ends x g (fun _ g' => StepsTo f pos g levels g') fun e _ => e.misshapen = false := by
    refine selects.imp fun _ g' ⟨new, segment, emits⟩ => ?_
    exact ⟨⟨new, segment, emits.toExtends⟩, emits.levels.trans nests⟩
  have shapes (none : f.marksAt pos = []) :
      Ends (shapeFrame (f.codes.getD pos default)) g (fun _ g' => StepsTo f pos g levels g')
        fun e _ => e.misshapen = false := by
    obtain ⟨g', run, shaped, levels⟩ := shapeFrame_run nests
    refine .of_ok run ⟨⟨[], ⟨0, 0, ?_, fun _ => rfl, fun _ => rfl⟩, shaped⟩, levels⟩
    simp [none]
  unfold selectCode
  generalize code : f.codes.getD pos default = c at nests shapes ⊢
  have marks : f.marksAt pos = f.marksOf pos c := by rw [LinearFunction.marksAt, code]
  cases c with
  | eval lin =>
    refine plain (Option.some.inj nests) ?_
    dsimp only
    rw [nodeAt_bind]
    split
    case isFalse => exact (rfl : (CompileError.invariant (.aborted _)).misshapen = false)
    split
    · rename_i effect
      exact selectEffect_selects faithful here code effect
    · rename_i pure_
      have other : (f.node lin).op ≠ .call := fun same => pure_ (by rw [same]; rfl)
      exact (Quiet.refl g).selects here (marks.trans (if_neg other))
  | arg lin =>
    refine plain (Option.some.inj nests) (numberOf_quiets (fun id => ?_) lin here marks)
    exact (quietly g).runs_pushArg (c := ()) (k := .none) (w := 0) nofun trivial
  | jump l => exact plain (Option.some.inj nests) (selectJump_selects (.refl g) here marks)
  | branch lin l =>
    refine plain (Option.some.inj nests) ?_
    refine (numberOf_numbers lin g).bind fun id g' ⟨same, _⟩ => ?_
    subst g'
    exact selectBranch_selects here marks
  | label l => exact plain (Option.some.inj nests) (selectLabel_selects here marks)
  | ret value =>
    refine plain (Option.some.inj nests) ?_
    have last {g₁ : Generator} (quiet : g.Quiet g₁) :
        Ends (if f.codes[pos + 1]? ≠ some (.label f.exit) then selectJump f.exit else pure ()) g₁
          (fun _ g' => g.Selects f pos g') fun e _ => e.misshapen = false := by
      split
      · rename_i other
        exact selectJump_selects quiet here (marks.trans (if_neg other))
      · rename_i falls
        exact quiet.selects here (marks.trans (if_pos (not_not.mp falls)))
    cases value with
    | none => exact last (.refl g)
    | some lin =>
      refine (numberOf_numbers lin g).bind fun id g' ⟨same, _⟩ => ?_
      subst g'
      have returns : Quiets g (returnValue select id) _ :=
        (quietly g).runs_returnValue (c := ()) (k := .none) (w := 0) nofun trivial
      exact (returns.at (.refl g)).bind fun _ _ quiet => last quiet
  | zeroFill lin bytes =>
    refine plain (Option.some.inj nests) (numberOf_quiets (fun id => ?_) lin here marks)
    exact (quietly g).runs_selectZeroFill (c := ()) (k := .none) (w := 0) nofun trivial bytes
  | frameEnter =>
    refine plain (Option.some.inj nests) ?_
    refine ((emit_ends _ g).mono (fun _ _ emits => emits) fun _ _ => False.elim).bind fun id g₁ emits => ?_
    refine ⟨_, ⟨0, 0, ?_, fun _ => rfl, fun _ => rfl⟩, ⟨⟨emits.numbers, emits.keys, emits.code⟩,
      emits.seq, emits.levels⟩⟩
    rw [marks, ← here]
    rfl
  | frameExit =>
    refine plain (Option.some.inj nests) ?_
    refine ((emit'_ends _ g).mono (fun _ _ emits => emits) fun _ _ => False.elim).bind fun _ g₁ first => ?_
    refine (emit'_ends _ g₁).mono (fun _ g' second => ?_) fun _ _ => False.elim
    refine ⟨_, ⟨0, 0, ?_, fun _ => rfl, fun _ => rfl⟩, first.trans second⟩
    rw [marks, ← here, first.seq]
    rfl
  | blockEnter | blockLeave | declare => exact shapes marks

theorem stepCode_ends {reachable : Bool} (faithful : g.Faithful f)
    (nests : (f.codes.getD pos default).nest g.frame.levels = some levels) :
    Ends (stepCode select f reachable pos) g
      (fun _ g' => (∃ new, (if reachable then f.Segment pos (new.map Instr.role) else new = []) ∧
        g.Extends new g') ∧ g'.frame.levels = levels) fun e _ => e.misshapen = false := by
  unfold stepCode
  refine .after_ok (x := modify _) rfl ?_
  have start : g.Extends [] { g with seq := pos } :=
    ⟨rfl, List.prefix_refl _, fun holds => by rwa [List.append_nil]⟩
  cases reachable with
  | true =>
    refine (selectCode_ends (faithful.congr start.numbers start.keys) rfl nests).imp ?_
    rintro _ g' ⟨⟨new, segment, later⟩, levels⟩
    exact ⟨⟨new, segment, start.trans later⟩, levels⟩
  | false =>
    -- Blocks are opened and closed also where no instruction is selected.
    simp only [Bool.false_eq_true, if_false]
    split
    · obtain ⟨g', run, later, levels⟩ := shapeFrame_run (g := { g with seq := pos }) nests
      exact .of_ok run ⟨⟨[], rfl, start.trans later⟩, levels⟩
    · rename_i other
      refine ⟨⟨[], rfl, start⟩, ?_⟩
      generalize f.codes.getD pos default = c at nests other
      cases c with
      | blockEnter | blockLeave | declare => exact absurd rfl other
      | _ => exact Option.some.inj nests

theorem steps_ends {steps : List (Bool × Nat)} {is : List Instr} (faithful : g.Faithful f)
    (holds : g.code.Holds is)
    (nests : (steps.map fun s => f.codes.getD s.2 default).foldlM Code.nest g.frame.levels = some
      levels) :
    Ends (steps.forM fun (reachable, pos) => stepCode select f reachable pos) g
      (fun _ g' => ∃ new segments, g'.code.Holds (is ++ new) ∧
        List.Forall₂ f.Segment ((steps.filter Prod.fst).map Prod.snd) segments ∧
        new.map Instr.role = segments.flatten) fun e _ => e.misshapen = false := by
  induction steps generalizing g is with
  | nil => exact ⟨[], [], by rwa [List.append_nil], .nil, rfl⟩
  | cons step steps ih =>
    obtain ⟨reachable, pos⟩ := step
    rw [List.map_cons, List.foldlM_cons] at nests
    obtain ⟨between, first, rest⟩ := Option.bind_eq_some_iff.mp nests
    refine (stepCode_ends faithful first).bind ?_
    rintro _ g₁ ⟨⟨here, segment, extends_⟩, rfl⟩
    have next := ih (faithful.congr extends_.numbers extends_.keys) (extends_.code holds) rest
    refine next.imp fun _ g' ⟨new, segments, holds', all, roles⟩ => ?_
    rw [List.append_assoc] at holds'
    cases reachable with
    | true => exact ⟨here ++ new, _ :: segments, holds', .cons segment all, by simp [roles]⟩
    | false =>
      subst segment
      exact ⟨new, segments, holds', all, roles⟩

end Gen

structure Generator.Ready (f : LinearFunction) (g : Generator) : Prop where
  faithful : g.Faithful f
  code : g.code.Holds []
  levels : g.frame.levels = []

namespace Generator

variable {f : LinearFunction} {g g' : Generator}

theorem ready_reset (f : LinearFunction) (g : Generator) : g.reset.Ready f where
  faithful lin id numbered := by
    simp [reset] at numbered
  code := InstrList.holds_empty
  levels := rfl

theorem Ready.congr (ready : g.Ready f) (numbers : g'.numbers = g.numbers)
    (keys : g.pool.keys <+: g'.pool.keys) (code : g'.code = g.code) (frame : g'.frame = g.frame) :
    g'.Ready f :=
  ⟨ready.faithful.congr numbers keys, code ▸ ready.code, frame ▸ ready.levels⟩

theorem Ready.number (ready : g.Ready f) (lin : LinId) {id : NodeId} {pool : ValuePool}
    (keys : g.pool.keys <+: pool.keys) (stands : (f.node lin).op.hasSideEffect = true →
      (pool.keys[id.index]?).map ValueKey.op = some (f.node lin).op) :
    ({ g with pool, numbers := g.numbers.setIfInBounds lin.index (some id) } : Generator).Ready f := by
  refine ⟨fun lin' id' numbered effect => ?_, ready.code, ready.levels⟩
  dsimp only at numbered ⊢
  rw [Array.getElem?_setIfInBounds] at numbered
  split at numbered
  · rename_i same
    obtain rfl : lin = lin' := by
      cases lin
      cases lin'
      exact congrArg LinId.mk same
    split at numbered
    · cases numbered
      exact stands effect
    · cases numbered
  · have old : ({ g with pool } : Generator).Faithful f := ready.faithful.congr rfl keys
    exact old lin' id' numbered effect

end Generator

namespace Gen

open Generator

variable {α : Type} {f : LinearFunction} {g : Generator}

abbrev Readies (f : LinearFunction) (x : Gen α) (result : α → Prop) : Prop :=
  Keeps (Ready f) (fun e _ => e.misshapen = false) x result

theorem readies_numberOf (lin : LinId) : Readies f (numberOf lin) fun _ => True :=
  ⟨fun g ready => (numberOf_numbers lin g).imp fun _ _ ⟨same, _⟩ => ⟨same ▸ ready, trivial⟩⟩

theorem readies_numberNode (f : LinearFunction) (lin : LinId) :
    Readies f (numberNode f lin) fun _ => True := by
  refine ⟨fun g ready => (numberNode_ends f lin g).mono ?_ ?_⟩
  rotate_left
  · intro e _ ⟨_, failed⟩
    unfold CompileError.unnumbered at failed
    split at failed <;> first | rfl | cases failed
  rintro id g' ⟨-, r, asks, answer, numbers, same⟩
  have grown : g.pool.keys <+: g'.pool.keys := by
    have := g.pool.keys_run r
    rwa [answer] at this
  rw [same, numbers]
  refine ⟨ready.number lin grown fun effect => ?_, trivial⟩
  unfold Generator.request? LinNode.request? at asks
  rw [if_pos effect] at asks
  cases asks
  obtain ⟨issued, pool⟩ := Prod.mk.inj answer
  cases issued
  simp [← pool, ValuePool.fresh]

theorem readies_countUse (seq : Nat) (root : Bool) (id : NodeId) (met : List NodeId) :
    Readies f (countUse seq root id met) fun _ => True := by
  refine .modifyGet fun g ready => ⟨ready.congr rfl ?_ rfl rfl, trivial⟩
  exact (UseCount.add_keys _ _ _ _ _).1.symm ▸ List.prefix_refl _

theorem readies_onPool {step : ValuePool → ValuePool} (nodes : ∀ p, (step p).nodes = p.nodes) :
    Readies f (onPool step) fun _ => True := by
  refine .modify fun g ready => ready.congr rfl ?_ rfl rfl
  have same : (step g.pool).keys = g.pool.keys := by rw [ValuePool.keys, ValuePool.keys, nodes]
  exact same.symm ▸ List.prefix_refl _

theorem readies_numberValues (f : LinearFunction) (graph : FlowGraph) :
    Readies f (numberValues f graph) fun _ => True := by
  refine NumberingRules.numberValues (P := fun x => Readies f x fun _ => True) ?_ graph
  exact {
    pure _ := .pure trivial
    bind first rest := first.bind fun a _ => rest a
    read _ rest := Keeps.get.bind fun g _ => rest g
    start := by
      refine .modify fun g ready => ⟨fun lin id numbered => ?_, ready.code, ready.levels⟩
      simp [Array.getElem?_replicate] at numbered
    numberNode l _ := readies_numberNode f l
    numberOf := readies_numberOf
    countUse := readies_countUse
    reset := readies_onPool fun _ => rfl
    invalidate _ := readies_onPool fun _ => rfl }

theorem readies_bindParam (sym : Symbol) : Readies f (bindParam sym) fun _ => True :=
  .modify fun _ ready => ⟨ready.faithful.congr rfl (List.prefix_refl _), ready.code, ready.levels⟩

theorem flowGraph_ends {built : FlowGraph} (ok : FlowGraph.build f.codes f.exit = .ok built)
    (unique : f.LabelsUnique) (some_ : 0 < f.codes.size) (ready : g.Ready f) :
    Ends (flowGraph f) g
      (fun graph g' => g'.Ready f ∧ graph.Models f ∧
        (g.options.prune = false → graph.visited = List.range f.codes.size))
      fun e _ => e.misshapen = false := by
  unfold flowGraph
  rw [ok]
  refine .after_ok (x := pure built) rfl ?_
  refine .after_ok (x := get) rfl ?_
  split
  · rename_i prunes
    refine .after_ok (x := modifyStats _) rfl ?_
    refine ⟨ready.congr rfl (List.prefix_refl _) rfl rfl, FlowGraph.prune_models ok unique some_, ?_⟩
    intro whole
    rw [whole] at prunes
    cases prunes
  · have models := FlowGraph.build_models ok unique some_
    exact ⟨ready, models, fun _ => FlowGraph.visited_build ok models⟩

theorem finish_holds {is : List Instr} (holds : g.code.Holds is) :
    ∃ is', (match g.enter with
        | some id => g.code.modify id fun i => { i with bytes := g.frame.maxSize }
        | none => g.code).Holds is' ∧ is'.map Instr.role = is.map Instr.role := by
  cases g.enter with
  | none => exact ⟨is, holds, rfl⟩
  | some id => exact holds.modify id fun _ => rfl

end Gen

open Gen Generator

namespace LinearFunction

variable {f : LinearFunction} {built : FlowGraph}

/-- The instructions of a function are those for the codes that its flow graph has in use, in
order. -/
structure Spells (f : LinearFunction) (graph : FlowGraph) (c : CompiledFunction) : Prop where
  models : graph.Models f
  segments : ∃ segments, List.Forall₂ f.Segment graph.visited segments ∧
    c.instrs.map Instr.role = segments.flatten

section Compile

variable (ok : FlowGraph.build f.codes f.exit = .ok built) (unique : f.LabelsUnique)
  (some_ : 0 < f.codes.size) (g : Generator)
include ok unique some_

theorem prepare_ready :
    Ends f.prepare g
      (fun graph g' => g'.Ready f ∧ graph.Models f ∧
        (g.options.prune = false → graph.visited = List.range f.codes.size))
      fun e _ => e.misshapen = false := by
  unfold prepare
  refine .after_ok (x := modify Generator.reset) rfl ?_
  refine (flowGraph_ends ok unique some_ (ready_reset f g)).bind fun graph g₁ ⟨ready, models⟩ => ?_
  refine Ends.imp (Keeps.ends (?_ : Readies f _ fun read => read = graph) g₁ ready) ?_
  · refine (readies_numberValues f graph).bind fun _ _ => ?_
    refine Keeps.bind (.modify fun _ ready => ?_) fun _ _ => ?_
    · exact ready.congr rfl (List.prefix_refl _) rfl rfl
    · exact (Keeps.forM fun sym _ => readies_bindParam sym).bind fun _ _ => .pure rfl
  · rintro _ g' ⟨ready, rfl⟩
    exact ⟨ready, models⟩

theorem compile_spells (nests : f.codes.toList.foldlM Code.nest [] = some []) :
    Ends f.compile g
      (fun c _ => ∃ graph, f.Spells graph c ∧
        (g.options.prune = false → graph.visited = List.range f.codes.size))
      fun e _ => e.misshapen = false := by
  refine Ends.imp (checked_ends ?_ (fun _ _ shaped _ => shaped) fun _ _ _ => rfl) fun _ _ => And.left
  refine (prepare_ready ok unique some_ g).bind fun graph g₁ ⟨ready, models, whole⟩ => ?_
  rw [← models.codes, ← ready.levels] at nests
  refine (steps_ends ready.faithful ready.code nests).bind ?_
  rintro _ g₂ ⟨new, segments, holds, all, roles⟩
  rw [graph.visited_eq_steps] at all
  -- The size of the frame, known in the end, is filled into an instruction that is there already.
  obtain ⟨is, holds', same⟩ := finish_holds holds
  refine ⟨graph, ⟨models, segments, all, ?_⟩, whole⟩
  rw [List.nil_append, roles] at same
  exact (congrArg (List.map Instr.role) holds'.toList).trans same

end Compile

theorem Spells.stamps {graph : FlowGraph} {c : CompiledFunction} (spells : f.Spells graph c) :
    c.instrs.filterMap Instr.stamp? =
      graph.visited.flatMap fun pos => (f.marksAt pos).map fun m => (m, pos) := by
  obtain ⟨segments, all, roles⟩ := spells.segments
  have read : c.instrs.filterMap Instr.stamp? =
      (c.instrs.map Instr.role).filterMap fun r => r.1.map fun m => (m, r.2) := by
    rw [List.filterMap_map]
    rfl
  rw [read, roles]
  clear roles
  generalize graph.visited = visited at all ⊢
  induction all with
  | nil => rfl
  | cons segment _ ih =>
    rw [List.flatten_cons, List.filterMap_append, List.flatMap_cons, segment.stamps, ih]

end LinearFunction

end CBackend
