import CBackend.Proofs.Lowering.Structure
import CBackend.Proofs.Selection.Marks

/-!
Compiled code is closed. The labels that the linear code of a function goes to are all placed, so
its flow graph can be built; what is compiled from it begins by entering the function, jumps to
labels of its own only, and never goes on behind its last instruction.
-/

namespace CBackend

/-- The code of a function is framed, goes only to labels that it places once, and closes the
blocks that it opens. -/
structure LinearFunction.Shaped (f : LinearFunction) : Prop where
  first : f.codes[0]? = some .frameEnter
  last : f.codes.back? = some .frameExit
  once : (f.codes.toList.filterMap Code.label?).Nodup
  placed : ∀ c ∈ f.codes, ∀ l, c.target? f.exit = some l → .label l ∈ f.codes
  nests : f.codes.toList.foldlM Code.nest [] = some []

theorem FunctionDef.lower_shaped {d : FunctionDef} {t t' : SymbolTable} {f : LinearFunction}
    (ok : d.lower t = .ok f t') : f.Shaped := by
  obtain ⟨body, made, run, -, outlined, codes, -⟩ := lower_outlined ok
  have parts : f.codes.toList = body.codes ++ [.label f.exit] ++ [.frameExit] := codes
  have inside (c : Code) : c ∈ f.codes ↔ c ∈ ((body.place f.exit).code .frameExit).codes := by
    rw [← codes, Array.mem_toList_iff]
  refine ⟨?_, ?_, ?_, fun c here l goes => ?_, ?_⟩
  · obtain ⟨rest, opened⟩ := run.grows.codes
    rw [← Array.getElem?_toList, parts, ← opened]
    rfl
  · rw [← Array.getLast?_toList, parts, List.getLast?_concat]
  · rw [codes]
    exact outlined.labelled.once
  · rw [inside] at here ⊢
    exact (outlined.labelled.placed l).mpr ⟨outlined.labelled.targets c here l goes, List.not_mem_nil⟩
  · rw [codes]
    exact outlined.nested

namespace LinearFunction.Shaped

variable {f : LinearFunction}

theorem unique (shaped : f.Shaped) : f.LabelsUnique := by
  intro i j l here there
  refine Ledger.index_unique (x := .label l) (y := .label l) shaped.once ?_ ?_ rfl rfl
  · simpa using here
  · simpa using there

theorem size_pos (shaped : f.Shaped) : 0 < f.codes.size :=
  (Array.getElem?_eq_some_iff.mp shaped.first).1

theorem build (shaped : f.Shaped) : ∃ g, FlowGraph.build f.codes f.exit = .ok g :=
  FlowGraph.build_of_placed shaped.placed

theorem compile (shaped : f.Shaped) (g : Generator) :
    Gen.Ends f.compile g
      (fun c _ => ∃ graph, f.Spells graph c ∧
        (g.options.prune = false → graph.visited = List.range f.codes.size))
      fun e _ => e.misshapen = false := by
  obtain ⟨built, ok⟩ := shaped.build
  exact f.compile_spells ok shaped.unique shaped.size_pos g shaped.nests

end LinearFunction.Shaped

def Opcode.isJump : Opcode → Bool
  | .jmp | .jcc _ => true
  | _ => false

def Instr.places (i : Instr) (l : Symbol) : Bool := i.op = .label ∧ i.target = some l

/-- Code that is entered at its start, goes to its own labels only and does not go on behind its
last instruction. -/
structure CompiledFunction.Closed (c : CompiledFunction) : Prop where
  enters : ∃ i, c.instrs.head? = some i ∧ i.op = .enter
  jumps : ∀ i ∈ c.instrs, i.op.isJump = true →
    ∃ l, i.target = some l ∧ c.instrs.countP (·.places l) = 1
  leaves : ∃ i, c.instrs.getLast? = some i ∧ (i.op = .ret ∨ i.op = .jmp)

def Mark.goal? : Mark → Option (Option Symbol)
  | .jump target | .branch target => some target
  | _ => none

namespace Instr

variable {i : Instr}

theorem goal?_of_isJump (jumps : i.op.isJump = true) :
    ∃ m, i.mark? = some m ∧ m.goal? = some i.target := by
  unfold mark?
  cases op : i.op with
  | jmp => exact ⟨.jump i.target, rfl, rfl⟩
  | jcc => exact ⟨.branch i.target, rfl, rfl⟩
  | _ =>
    rw [op] at jumps
    cases jumps

theorem places_iff {l : Symbol} : i.places l = true ↔ i.mark? = some (.label (some l)) := by
  unfold places mark?
  cases i.op <;> simp

theorem op_of_enter (mark : i.mark? = some .enter) : i.op = .enter := by
  unfold mark? at mark
  cases op : i.op <;> simp [op] at mark ⊢

theorem op_of_ret (mark : i.mark? = some .ret) : i.op = .ret := by
  unfold mark? at mark
  cases op : i.op <;> simp [op] at mark ⊢

theorem op_of_jump {target : Option Symbol} (mark : i.mark? = some (.jump target)) : i.op = .jmp := by
  unfold mark? at mark
  cases op : i.op <;> simp [op] at mark ⊢

end Instr

namespace LinearFunction

variable {f : LinearFunction} {graph : FlowGraph} {c : CompiledFunction} {pos : Nat}

theorem marks_of_code {code : Code} (here : f.codes[pos]? = some code) :
    f.marksAt pos = f.marksOf pos code := by
  rw [marksAt, Array.getD_eq_getD_getElem?, here, Option.getD_some]

theorem marks_of_none (none : f.codes[pos]? = none) : f.marksAt pos = [] := by
  rw [marksAt, Array.getD_eq_getD_getElem?, none]
  rfl

theorem target?_of_mark {m : Mark} {target : Option Symbol} (marked : m ∈ f.marksAt pos)
    (goes : m.goal? = some target) :
    ∃ code l, f.codes[pos]? = some code ∧ code.target? f.exit = some l ∧ target = some l := by
  cases found : f.codes[pos]? with
  | none =>
    rw [marks_of_none found] at marked
    cases marked
  | some code =>
    rw [marks_of_code found] at marked
    refine ⟨code, ?_⟩
    cases code with
    | jump l | branch _ l =>
      obtain rfl := List.mem_singleton.mp marked
      cases goes
      exact ⟨l, rfl, rfl, rfl⟩
    | ret value =>
      simp only [marksOf] at marked
      split at marked
      · cases marked
      · obtain rfl := List.mem_singleton.mp marked
        cases goes
        exact ⟨f.exit, rfl, rfl, rfl⟩
    | eval lin =>
      simp only [marksOf] at marked
      split at marked
      · obtain rfl := List.mem_singleton.mp marked
        cases goes
      · cases marked
    | label | frameEnter =>
      obtain rfl := List.mem_singleton.mp marked
      cases goes
    | frameExit => rcases List.mem_pair.mp marked with rfl | rfl <;> cases goes
    | _ => cases marked

theorem count_label (f : LinearFunction) (pos : Nat) (l : Symbol) :
    (f.marksAt pos).count (.label (some l)) = if f.codes[pos]? = some (.label l) then 1 else 0 := by
  cases found : f.codes[pos]? with
  | none =>
    rw [marks_of_none found]
    rfl
  | some code =>
    rw [marks_of_code found]
    cases code with
    | label l' => simp [marksOf, List.count_singleton]
    | eval lin | ret value =>
      simp only [marksOf]
      split <;> rfl
    | _ => rfl

theorem Shaped.count_flatMap_marks (shaped : f.Shaped) {visited : List Nat} {j : Nat} {l : Symbol}
    (sorted : visited.Pairwise (· < ·)) (visits : j ∈ visited) (there : f.codes[j]? = some (.label l)) :
    (visited.flatMap f.marksAt).count (.label (some l)) = 1 := by
  have others {ps : List Nat} (outside : j ∉ ps) :
      (ps.flatMap f.marksAt).count (.label (some l)) = 0 := by
    refine List.count_eq_zero.mpr fun inside => ?_
    obtain ⟨p, listed, marked⟩ := List.mem_flatMap.mp inside
    have some_ := List.count_pos_iff.mpr marked
    rw [count_label] at some_
    split at some_
    · rename_i here
      exact outside (shaped.unique p j l here there ▸ listed)
    · cases some_
  obtain ⟨before, after, rfl⟩ := List.append_of_mem visits
  have apart := (List.nodup_middle.mp sorted.nodup : (j :: (before ++ after)).Nodup)
  rw [List.nodup_cons, List.mem_append, not_or] at apart
  rw [List.flatMap_append, List.flatMap_cons, List.count_append, List.count_append,
    others apart.1.1, others apart.1.2, count_label, if_pos there]

theorem Spells.marks (spells : f.Spells graph c) :
    c.instrs.filterMap Instr.mark? = graph.visited.flatMap f.marksAt := by
  have untimed := congrArg (List.map Prod.fst) spells.stamps
  rw [List.map_filterMap, List.map_flatMap] at untimed
  simpa [Instr.stamp?, Function.comp_def] using untimed

theorem Spells.jumps (spells : f.Spells graph c) (shaped : f.Shaped) {i : Instr} (inside : i ∈ c.instrs)
    (jumps : i.op.isJump = true) :
    ∃ l, i.target = some l ∧ c.instrs.countP (·.places l) = 1 := by
  obtain ⟨m, marked, goes⟩ := Instr.goal?_of_isJump jumps
  have listed : m ∈ c.instrs.filterMap Instr.mark? := List.mem_filterMap.mpr ⟨i, inside, marked⟩
  rw [spells.marks] at listed
  obtain ⟨pos, visits, here⟩ := List.mem_flatMap.mp listed
  obtain ⟨code, l, found, target, same⟩ := target?_of_mark here goes
  refine ⟨l, same, ?_⟩
  obtain ⟨j, there⟩ := Array.mem_iff_getElem?.mp (shaped.placed code (Array.mem_of_getElem? found) l target)
  have visits' := spells.models.closed pos j visits (.jump found target there)
  calc c.instrs.countP (·.places l)
      = c.instrs.countP fun i => i.mark? == some (.label (some l)) :=
        List.countP_congr fun i _ => by rw [Instr.places_iff, beq_iff_eq]
    _ = (graph.visited.flatMap f.marksAt).count (.label (some l)) := by
        rw [← spells.marks, List.count_filterMap]
    _ = 1 := shaped.count_flatMap_marks spells.models.sorted visits' there

theorem Shaped.marks_last (shaped : f.Shaped) (models : graph.Models f) {p : Nat}
    (last : graph.visited.getLast? = some p) :
    ∃ m, (f.marksAt p).getLast? = some m ∧ .call ∉ f.marksAt p ∧
      (m = .ret ∨ ∃ target, m = .jump target) := by
  have visits : p ∈ graph.visited := List.mem_of_getLast? last
  have final : p + 1 ∉ graph.visited := by
    intro later
    obtain ⟨before, split⟩ := List.getLast?_eq_some_iff.mp last
    have sorted := models.sorted
    rw [split, List.pairwise_append] at sorted
    rw [split, List.mem_append, List.mem_singleton] at later
    rcases later with inside | same
    · have below := sorted.2.2 (p + 1) inside p (List.mem_singleton_self p)
      omega
    · omega
  obtain ⟨code, here⟩ : ∃ code, f.codes[p]? = some code :=
    ⟨_, Array.getElem?_eq_getElem (models.inside visits)⟩
  rw [marks_of_code here]
  cases falls : code.leaves with
  | true =>
    cases code with
    | jump l => exact ⟨_, rfl, by simp [marksOf], .inr ⟨_, rfl⟩⟩
    | ret value =>
      -- A return that falls through would reach the exit.
      have other : f.codes[p + 1]? ≠ some (.label f.exit) := fun there =>
        final (models.closed p (p + 1) visits (.jump here rfl there))
      rw [marksOf, if_neg other]
      exact ⟨_, rfl, by simp, .inr ⟨_, rfl⟩⟩
    | _ => cases falls
  | false =>
    have ends : p + 1 = f.codes.size := by
      by_contra more
      have inside := models.inside visits
      exact final (models.closed p (p + 1) visits (.next here falls (by omega)))
    have back := shaped.last
    rw [Array.back?_eq_getElem?, ← ends, Nat.add_sub_cancel, here] at back
    cases back
    exact ⟨_, rfl, by simp [marksOf], .inl rfl⟩

theorem Spells.enters (spells : f.Spells graph c) (shaped : f.Shaped) :
    ∃ i, c.instrs.head? = some i ∧ i.op = .enter := by
  obtain ⟨segments, all, roles⟩ := spells.segments
  obtain ⟨rest, first⟩ : ∃ rest, graph.visited = 0 :: rest := by
    have sorted := spells.models.sorted
    have begins := spells.models.begins
    cases split : graph.visited with
    | nil =>
      rw [split] at begins
      cases begins
    | cons p rest =>
      rw [split, List.pairwise_cons] at sorted
      rw [split, List.mem_cons] at begins
      rcases begins with rfl | later
      · exact ⟨rest, rfl⟩
      · exact absurd (sorted.1 0 later) (Nat.not_lt_zero p)
  rw [first, List.forall₂_cons_left_iff] at all
  obtain ⟨segment, later, here, -, rfl⟩ := all
  have head := here.head (marks_of_code shaped.first)
  have read : (c.instrs.map Instr.role).head? = some (some .enter, 0) := by
    rw [roles, List.flatten_cons, List.head?_append, head]
    rfl
  rw [List.head?_map, Option.map_eq_some_iff] at read
  obtain ⟨i, found, role⟩ := read
  exact ⟨i, found, Instr.op_of_enter (congrArg Prod.fst role)⟩

theorem Spells.leaves (spells : f.Spells graph c) (shaped : f.Shaped) :
    ∃ i, c.instrs.getLast? = some i ∧ (i.op = .ret ∨ i.op = .jmp) := by
  obtain ⟨segments, all, roles⟩ := spells.segments
  obtain ⟨p, last⟩ : ∃ p, graph.visited.getLast? = some p :=
    ⟨_, List.getLast?_eq_some_getLast (List.ne_nil_of_mem spells.models.begins)⟩
  obtain ⟨m, marked, quiet, kind⟩ := shaped.marks_last spells.models last
  obtain ⟨before, split⟩ := List.getLast?_eq_some_iff.mp last
  rw [split, ← List.forall₂_reverse_iff, List.reverse_concat, List.forall₂_cons_left_iff] at all
  obtain ⟨segment, earlier, here, -, reversed⟩ := all
  have segments_ : segments = earlier.reverse ++ [segment] := by
    rw [← List.reverse_reverse segments, reversed, List.reverse_cons]
  have read : (c.instrs.map Instr.role).getLast? = some (some m, p) := by
    rw [roles, segments_, List.flatten_append, List.flatten_singleton, List.getLast?_append,
      here.last marked quiet]
    rfl
  rw [List.getLast?_map, Option.map_eq_some_iff] at read
  obtain ⟨i, found, role⟩ := read
  refine ⟨i, found, ?_⟩
  rcases kind with rfl | ⟨target, rfl⟩
  · exact .inl (Instr.op_of_ret (congrArg Prod.fst role))
  · exact .inr (Instr.op_of_jump (congrArg Prod.fst role))

theorem Spells.closed (spells : f.Spells graph c) (shaped : f.Shaped) : c.Closed :=
  ⟨spells.enters shaped, fun _ inside jumps => spells.jumps shaped inside jumps, spells.leaves shaped⟩

end LinearFunction

/-- What a definition is compiled to, with the symbols that its lowering leaves. -/
def FunctionDef.compiled? (d : FunctionDef) (options : CompileOptions) (t : SymbolTable) :
    Option CompiledFunction :=
  ((d.lower >>= fun f => (f, ·) <$> get).run' t).bind fun lowered =>
    lowered.1.compile.run' (.init options lowered.2)

theorem FunctionDef.exists_of_compiled? {d : FunctionDef} {options : CompileOptions}
    {t : SymbolTable} {c : CompiledFunction} (done : d.compiled? options t = some c) :
    ∃ f t' g', d.lower t = .ok f t' ∧ f.compile (.init options t') = .ok c g' := by
  obtain ⟨⟨f, t'⟩, ran, compiled⟩ := Option.bind_eq_some_iff.mp done
  obtain ⟨_, ran⟩ := exists_of_run' ran
  obtain ⟨_, _, lowered, read⟩ := bind_eq_ok.mp ran
  cases read
  obtain ⟨g', compiled⟩ := exists_of_run' compiled
  exact ⟨f, t', g', lowered, compiled⟩

end CBackend
