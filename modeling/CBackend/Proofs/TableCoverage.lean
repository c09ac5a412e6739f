import Mathlib.Data.List.Nodup
import CBackend.Proofs.Closure
import CBackend.Proofs.Lowering.Scalars
import CBackend.Proofs.Selection.Afresh
import CBackend.Proofs.Selection.Coverage

/-!
No table entry is missing for a function over scalar types. The one thing that has no entry is the
address of a variable in a register under another type than a pointer, and this comes about by
casts that do not widen.
-/

namespace CBackend

namespace Gen

open Generator

variable {keys : List ValueKey} {numbers : Array (Option NodeId)}
  {waiting : List (NodeId × Operand)}

theorem covers_numberOf (lin : LinId) : Covers keys numbers waiting (numberOf lin)
    fun id => numbers[lin.index]? = some (some id) := by
  unfold numberOf
  refine Keeps.get.bind fun g start => ?_
  split
  · rename_i id found
    rw [start.numbers] at found
    exact .pure found
  · exact Covers.throw rfl

theorem covers_bindParam (sym : Symbol) :
    Covers keys numbers waiting (bindParam sym) fun _ => True :=
  covers_modify (fun _ => rfl) (fun _ => rfl) fun _ => rfl

theorem covers_shapeFrame (c : Code) :
    Covers keys numbers waiting (shapeFrame c) fun _ => True := by
  unfold shapeFrame
  split
  · exact covers_modify (fun _ => rfl) (fun _ => rfl) fun _ => rfl
  · refine Keeps.get.bind fun g _ => Keeps.get.bind fun g' _ => ?_
    refine Keeps.bind (.modify fun s start => ?_) fun _ _ => ?_
    · exact { start with }
    split
    · exact .pure trivial
    · exact Covers.throw rfl
  · exact covers_modify (fun _ => rfl) (fun _ => rfl) fun _ => rfl
  · exact .pure trivial

theorem covers_selectJump (target : Symbol) :
    Covers keys numbers waiting (selectJump target) fun _ => True :=
  covers_flushRegisters.bind fun _ _ => covers_emit' _

theorem covers_selectLabel (label : Symbol) :
    Covers keys numbers waiting (selectLabel label) fun _ => True :=
  covers_flushRegisters.bind fun _ _ => covers_emit' _

theorem covers_finish : Covers keys numbers waiting finish fun _ => True :=
  covers_modifyGet (fun _ => rfl) (fun _ => rfl) fun _ => rfl

section Codes

variable {f : LinearFunction}
  (copies : ∀ l id, numbers[l.index]? = some (some id) → f.Copies keys l id)

include copies

theorem covers_operand {l : LinId} {ty : CType} {b : Bool}
    (typed : HasType f.nodeKeys ⟨l.index⟩ ty b) :
    Covers keys numbers waiting (numberOf l) fun id => HasType keys id ty b :=
  (covers_numberOf l).imp fun id found =>
    typed.mirror LinearFunction.mirrors_copies (copies l id found)

theorem covers_selectCode {pos : Nat} (fits : (f.codes.getD pos default).Fits f.nodeKeys) :
    Covers keys numbers waiting (selectCode select f pos) fun _ => True := by
  unfold selectCode
  cases code : f.codes.getD pos default with
  | eval l =>
    rw [code] at fits
    dsimp only
    rw [nodeAt_bind]
    split
    case isFalse => exact .throw rfl
    split
    · refine (covers_numberOf l).bind fun id found => covers_selectEffect supplies_select ?_
      have same : f.Copies keys ⟨l.index⟩ id := copies l id found
      rcases fits with stores | ⟨ty, b, typed⟩
      · exact .inl (stores.mirror LinearFunction.mirrors_copies same)
      · exact .inr ⟨ty, b, typed.mirror LinearFunction.mirrors_copies same⟩
    · exact .pure trivial
  | arg l =>
    rw [code] at fits
    obtain ⟨ty, b, typed, loads⟩ := fits
    exact (covers_operand copies typed).bind fun id typed =>
      covers_pushArg supplies_select typed loads
  | jump target => exact covers_selectJump target
  | branch l target =>
    rw [code] at fits
    obtain ⟨ty, b, typed⟩ := fits
    exact (covers_operand copies typed).bind fun id typed =>
      covers_selectBranch supplies_select typed target
  | label label => exact covers_selectLabel label
  | ret value =>
    have leaves : Covers keys numbers waiting
        (if f.codes[pos + 1]? ≠ some (.label f.exit) then selectJump f.exit else pure ())
        fun _ => True := by
      split
      · exact covers_selectJump f.exit
      · exact .pure trivial
    cases value with
    | none => exact leaves
    | some l =>
      rw [code] at fits
      obtain ⟨ty, b, typed, loads⟩ := fits
      refine (covers_operand copies typed).bind fun id typed => ?_
      exact (covers_returnValue supplies_select typed loads).bind fun _ _ => leaves
  | zeroFill l bytes =>
    rw [code] at fits
    obtain ⟨ty, b, typed, scalar⟩ := fits
    exact (covers_operand copies typed).bind fun id typed =>
      covers_selectZeroFill supplies_select typed scalar bytes
  | frameEnter =>
    exact (covers_emit _).bind fun id _ => covers_modify (fun _ => rfl) (fun _ => rfl) fun _ => rfl
  | frameExit => exact (covers_emit' _).bind fun _ _ => covers_emit' _
  | _ => exact covers_shapeFrame _

theorem covers_stepCode (reachable : Bool) {pos : Nat}
    (fits : (f.codes.getD pos default).Fits f.nodeKeys) :
    Covers keys numbers waiting (stepCode select f reachable pos) fun _ => True := by
  have first : Covers keys numbers waiting (modify fun g => { g with seq := pos }) fun _ => True :=
    covers_modify (fun _ => rfl) (fun _ => rfl) fun _ => rfl
  refine first.bind fun _ _ => ?_
  split
  · exact covers_selectCode copies fits
  · dsimp only
    split
    · exact covers_shapeFrame _
    · exact .pure trivial

theorem covers_selected {graph : FlowGraph} (fits : ∀ c ∈ f.codes.toList, c.Fits f.nodeKeys)
    (positions : graph.blocks.toList.flatMap positions = List.range f.codes.size) :
    Covers keys numbers waiting (f.selected graph) fun _ => True := by
  refine (Keeps.forM fun sym _ => covers_bindParam sym).bind fun _ _ => ?_
  refine Keeps.bind (Keeps.forM fun step inside => ?_) fun _ _ => ?_
  · obtain ⟨reachable, pos⟩ := step
    have within : pos < f.codes.size := by
      rw [← List.mem_range, ← positions, ← FlowGraph.positions_eq_steps]
      exact List.mem_map.mpr ⟨_, inside, rfl⟩
    refine covers_stepCode copies reachable ?_
    rw [Array.getD_eq_getD_getElem?, Array.getElem?_eq_getElem within]
    exact fits _ (Array.getElem_mem_toList within)
  · exact covers_finish.bind fun _ _ => Keeps.get.bind fun _ _ => .pure trivial

end Codes

end Gen

theorem CompileError.isMiss_of_malformed {e : CompileError} (malformed : e.malformed = true) :
    e.isMiss = false := by
  cases e with
  | selectionMiss => cases malformed
  | _ => rfl

open Gen Generator

theorem Generator.Prepared.stocked {g : Generator} (prepared : g.Prepared) :
    g.Stocked g.pool.keys g.numbers [] where
  known := List.prefix_rfl
  numbers := rfl
  placed id op here := by
    rw [prepared.pool.loc] at here
    cases here
  held := by
    rw [prepared.held]
    exact .nil
  scalar _ inside := absurd inside List.not_mem_nil

theorem LinearFunction.compile_covered {f : LinearFunction} {g : Generator} (used : g.Used)
    (fits : ∀ c ∈ f.codes.toList, c.Fits f.nodeKeys) :
    Ends f.compile g (fun _ _ => True) fun e _ => e.isMiss = false := by
  refine compile_of_selected used (fun _ _ => CompileError.isMiss_of_malformed) (fun _ => rfl) ?_
  intro graph g' prepared positions copies
  have covers : Covers g'.pool.keys g'.numbers [] (f.selected graph) fun _ => True :=
    covers_selected copies fits positions
  exact (covers.ends g' prepared.stocked).imp fun _ _ _ => trivial

/-- No table entry is missing for a function over scalar types in which an address is needed in a
register only as a pointer. -/
theorem FunctionDef.compile_ne_selectionMiss {d : FunctionDef} {g : Generator} {f : LinearFunction}
    {t' : SymbolTable} (used : g.Used) (numbered : d.NodesNumbered)
    (selectable : d.Selectable g.symbols) (lowered : d.lower g.symbols = .ok f t') (table : String)
    (key : Nat) (g' : Generator) : d.compile g ≠ .error (.selectionMiss table key) g' := by
  intro failed
  have first : onTable d.lower g = .ok f { g with symbols := t' } := by rw [onTable, lowered]
  rw [compile, bind_run first] at failed
  have fits := lower_fits lowered numbered selectable
  cases (LinearFunction.compile_covered (used.named t') fits).error failed

theorem SameNodes.of_nodup {nodes : List Expr} (distinct : (nodes.map Expr.number).Nodup) :
    SameNodes nodes :=
  fun _ first _ second => List.inj_on_of_nodup_map distinct first second

/-- Stores at a floating offset from a variable and returns the address of the variable, which is
widened before it is cut: `*(&x + (unsigned)a) = a * a; return (int)(long long)&x;`. -/
def FunctionDef.floatingOffset : FunctionDef where
  name := ⟨0⟩
  ret := .int
  params := [⟨1⟩]
  output := none
  body := .block []
    [.expr (.assign ⟨11, .int⟩
        (.binary ⟨4, .pointer⟩ .add (.addr ⟨0, .pointer⟩ ⟨2⟩) (.cast ⟨3, .uint⟩ (read 1)))
        (.cast ⟨10, .int⟩ (.binary ⟨9, .double⟩ .mul (read 5) (read 7)))),
      .ret (some (.cast ⟨14, .int⟩ (.cast ⟨13, .llong⟩ (.addr ⟨12, .pointer⟩ ⟨2⟩))))]
where
  read (n : Nat) : Expr := .deref ⟨n + 1, .double⟩ (.addr ⟨n, .pointer⟩ ⟨1⟩)

def SymbolTable.floatingOffset : SymbolTable where
  entries := #[⟨"f", .function, .int, none⟩, ⟨"a", .param, .double, none⟩,
    ⟨"x", .global, .int, none⟩]

theorem FunctionDef.floatingOffset_selected : ∃ f t', floatingOffset.NodesNumbered ∧
    floatingOffset.Selectable .floatingOffset ∧
    floatingOffset.lower .floatingOffset = .ok f t' ∧
    ∀ table key g',
      floatingOffset.compile (.init {} .floatingOffset) ≠ .error (.selectionMiss table key) g' := by
  have accepted : (floatingOffset.lower.run' .floatingOffset).isSome = true := by decide +kernel
  obtain ⟨f, ran⟩ := Option.isSome_iff_exists.mp accepted
  obtain ⟨t', lowered⟩ := exists_of_run' ran
  have numbered : floatingOffset.NodesNumbered := .of_nodup (by decide +kernel)
  have selectable : floatingOffset.Selectable .floatingOffset := by decide +kernel
  exact ⟨f, t', numbered, selectable, lowered,
    compile_ne_selectionMiss (.init {} .floatingOffset) numbered selectable lowered⟩

/-- Returns the address of a variable as an integer of its size: `return (int)&x;`. -/
def FunctionDef.addressAsInt : FunctionDef where
  name := ⟨0⟩
  ret := .int
  params := []
  output := none
  body := .ret (some (.cast ⟨1, .int⟩ (.addr ⟨0, .pointer⟩ ⟨2⟩)))

/-- The cast leaves the address as it is, and no entry moves an address of this type. -/
theorem FunctionDef.addressAsInt_missed : ∃ f t' g', addressAsInt.NodesNumbered ∧
    addressAsInt.lower .floatingOffset = .ok f t' ∧
    addressAsInt.compile (.init {} .floatingOffset) = .error (.selectionMiss "move" 0x441) g' := by
  have accepted : (addressAsInt.lower.run' .floatingOffset).isSome = true := by decide +kernel
  obtain ⟨f, ran⟩ := Option.isSome_iff_exists.mp accepted
  obtain ⟨t', lowered⟩ := exists_of_run' ran
  have missed : (outcome (addressAsInt.compile (.init {} .floatingOffset))).map (fun _ => ()) =
      .error (.selectionMiss "move" 0x441) := by decide +kernel
  cases run : addressAsInt.compile (.init {} .floatingOffset) with
  | ok c g' =>
    rw [run] at missed
    cases missed
  | error e g' =>
    rw [run] at missed
    cases missed
    exact ⟨f, t', g', .of_nodup (by decide +kernel), lowered, rfl⟩

end CBackend
