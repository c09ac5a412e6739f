import CBackend.Proofs.Closure
import CBackend.Proofs.Machine.Failures

/-!
Running closed code. As long as every loaded function is closed, control stays inside the code of
loaded functions, whatever happens to registers and memory: a run never looks for a label that is
not there and never goes on behind the last instruction of a function.
-/

namespace CBackend

namespace Exec

variable {α β : Type}

/-- A step on registers and memory, whose failures have other reasons. -/
def Calm (x : Exec α) : Prop := ∀ c e c', x c = .error e c' → e.strays = false

theorem Plain.calm {x : Exec α} (plain : Plain x) : Calm x := by
  intro c e c' failed
  have kind := plain c e c' failed
  rw [MachineError.plain, Bool.and_eq_true, Bool.not_eq_true'] at kind
  exact kind.1

theorem calm_throw {e : MachineError} (other : e.strays = false) : Calm (throw e : Exec α) := by
  rintro c _ _ ⟨⟩
  exact other

theorem Calm.bind {x : Exec α} {f : α → Exec β} (calm : Calm x) (rest : ∀ a, Calm (f a)) :
    Calm (x >>= f) := by
  intro c e c' failed
  change EStateM.bind x f c = _ at failed
  unfold EStateM.bind at failed
  split at failed
  · exact rest _ _ _ _ failed
  · cases failed
    exact calm _ _ _ ‹_›

theorem calm_lowerStack (bytes : Nat) : Calm (lowerStack bytes) := by
  refine (plain_readGeneral _).calm.bind fun sp => ?_
  dsimp only
  split
  · exact calm_throw rfl
  · exact ((plain_setGeneral _ _).bind fun _ => plain_pure _).calm

theorem calm_divide (quotient : Word → Word → Word) (wraps : Bool) (a b : Word) (e : MachineError)
    (failed : IntOp.divide quotient wraps a b = .error e) : e.strays = false := by
  unfold IntOp.divide at failed
  split at failed
  · cases failed
    rfl
  · split at failed <;> cases failed
    rfl

theorem calm_apply (op : IntOp) (ty : ValueClass) (a b : Word) : Calm (ofExcept (op.apply ty a b)) := by
  intro c e c' failed
  cases given : op.apply ty a b with
  | ok w =>
    rw [given] at failed
    cases failed
  | error e' =>
    rw [given] at failed
    cases failed
    cases op with
    | div | mod => exact calm_divide _ _ _ _ _ given
    | udiv | umod =>
      simp only [IntOp.apply] at given
      split at given <;> exact calm_divide _ _ _ _ _ given
    | _ => cases given

theorem calm_intBinary (l : Layout) (i : Instr) (op : IntOp) : Calm (intBinary l i op) :=
  (plain_operand _).calm.bind fun _ => (plain_read _ _ _).calm.bind fun _ =>
    (plain_readOperand _ _ _).calm.bind fun _ => (calm_apply _ _ _ _).bind fun _ =>
      (plain_write _ _ _ _).calm

theorem calm_push (l : Layout) (i : Instr) : Calm (push l i) := by
  refine (plain_operand _).calm.bind fun src => ?_
  split
  · split
    · exact (plain_resolve _ _).calm.bind fun _ => (calm_lowerStack _).bind fun _ =>
        (plain_copyBytes _ _ _).calm
    · exact calm_throw rfl
  · exact ((plain_read _ _ _).bind fun _ => plain_pushValue _ _ _).calm

theorem calm_enterFrame (bytes : Nat) : Calm (enterFrame bytes) :=
  (plain_readGeneral _).calm.bind fun _ => (plain_pushWord _).calm.bind fun _ =>
    (plain_readGeneral _).calm.bind fun _ => (plain_setGeneral _ _).calm.bind fun _ =>
      (calm_lowerStack _).bind fun _ => (plain_pure _).calm

theorem calm_prepareCall (symbols : SymbolTable) (ret : CType) (args : List (Symbol × Value)) :
    Calm (RunM.prepareCall symbols ret args) := by
  refine (plain_modify _).calm.bind fun _ => (plain_setGeneral _ _).calm.bind fun _ => ?_
  split
  · refine (calm_lowerStack _).bind fun out => ((plain_pushArgs _ _).bind fun _ => ?_).calm
    exact (plain_pushValue _ _ _).bind fun _ => (plain_pushWord _).bind fun _ => plain_pure _
  · exact ((plain_pushArgs _ _).bind fun _ => (plain_pushWord _).bind fun _ => plain_pure _).calm

theorem calm_execute (l : Layout) (i : Instr) : Calm (execute l i) := by
  cases op : i.op with
  | push =>
    simp only [execute, op]
    exact calm_push l i
  | enter =>
    simp only [execute, op]
    exact calm_enterFrame _
  | udiv | umod =>
    simp only [execute, op]
    exact calm_intBinary _ _ _
  | _ => exact (plain_execute l (by simp [op]) (by simp [op]) (by simp [op]) (by simp [op])).calm

end Exec

/-- Code that control cannot leave but by returning. -/
structure LoadedFunction.Closed (f : LoadedFunction) : Prop where
  starts : 0 < f.code.size
  jumps : ∀ i ∈ f.code, i.op.isJump = true →
    ∃ l pc, i.target = some l ∧ f.labels.lookup l = some pc ∧ pc < f.code.size
  falls : ∀ (pc : Nat) (i : Instr), f.code[pc]? = some i → i.op ≠ .ret → i.op ≠ .jmp →
    pc + 1 < f.code.size

theorem LoadedFunction.lookup_labelPlaces {code : List Instr} {i : Instr} {l : Symbol}
    (inside : i ∈ code) (places : i.places l = true) :
    ∃ pc, (labelPlaces code).lookup l = some pc ∧ pc < code.length := by
  have below {t : Symbol} {pc : Nat} (listed : (t, pc) ∈ labelPlaces code) : pc < code.length := by
    simp only [labelPlaces, List.mem_reverse, List.mem_filterMap, List.mem_zipIdx_iff_getElem?] at listed
    obtain ⟨⟨j, pos⟩, there, placed⟩ := listed
    split at placed
    · obtain ⟨_, -, same⟩ := Option.map_eq_some_iff.mp placed
      cases same
      exact (List.getElem?_eq_some_iff.mp there).1
    · cases placed
  obtain ⟨label, target⟩ := of_decide_eq_true places
  obtain ⟨pos, here⟩ := List.mem_iff_getElem?.mp inside
  have listed : (l, pos) ∈ labelPlaces code := by
    simp only [labelPlaces, List.mem_reverse, List.mem_filterMap, List.mem_zipIdx_iff_getElem?]
    exact ⟨(i, pos), here, by simp [label, target]⟩
  cases found : (labelPlaces code).lookup l with
  | none => exact absurd (List.lookup_eq_none_iff.mp found _ listed) (by simp)
  | some pc => exact ⟨pc, rfl, below (mem_of_lookup found)⟩

theorem CompiledFunction.Closed.loaded {c : CompiledFunction} (closed : c.Closed) :
    (LoadedFunction.ofCompiled c).Closed where
  starts := by
    obtain ⟨i, first, -⟩ := closed.enters
    simpa [LoadedFunction.ofCompiled] using List.length_pos_of_mem (List.mem_of_head? first)
  jumps i inside jumps := by
    obtain ⟨l, target, once⟩ := closed.jumps i (by simpa [LoadedFunction.ofCompiled] using inside) jumps
    obtain ⟨j, there, places⟩ := List.countP_pos_iff.mp (once ▸ Nat.one_pos)
    obtain ⟨pc, found, below⟩ := LoadedFunction.lookup_labelPlaces there places
    exact ⟨l, pc, target, found, by simpa [LoadedFunction.ofCompiled] using below⟩
  falls pc i here noRet noJmp := by
    have here : c.instrs[pc]? = some i := by simpa [LoadedFunction.ofCompiled] using here
    have below := (List.getElem?_eq_some_iff.mp here).1
    obtain ⟨last, found, leaves⟩ := closed.leaves
    by_contra ends
    rw [LoadedFunction.ofCompiled, List.size_toArray] at ends
    have same : c.instrs.length - 1 = pc := by omega
    rw [List.getLast?_eq_getElem?, same, here] at found
    cases found
    exact leaves.elim noRet noJmp

namespace RunM

variable {W α β : Type} {fs : List (Symbol × LoadedFunction)}

def Within (fs : List (Symbol × LoadedFunction)) (x : RunM W α) (result : α → Prop) : Prop :=
  ∀ m : Machine W, m.functions = fs → match x m with
    | .ok a m' => m'.functions = fs ∧ result a
    | .error e _ => e.strays = false

namespace Within

variable {x : RunM W α} {result : α → Prop}

theorem pure {a : α} (here : result a) : Within fs (pure a : RunM W α) result :=
  fun _ same => ⟨same, here⟩

theorem throw {e : MachineError} (other : e.strays = false) :
    Within fs (throw e : RunM W α) result :=
  fun _ _ => other

theorem get : Within fs (get : RunM W (Machine W)) fun m => m.functions = fs :=
  fun _ same => ⟨same, same⟩

theorem modify {f : Machine W → Machine W} (kept : ∀ m, (f m).functions = m.functions) :
    Within fs (modify f) fun _ => True :=
  fun m same => ⟨(kept m).trans same, trivial⟩

theorem bind {f : α → RunM W β} {result' : β → Prop} (within : Within fs x result)
    (rest : ∀ a, result a → Within fs (f a) result') : Within fs (x >>= f) result' := by
  intro m same
  have first := within m same
  change match EStateM.bind x f m with
    | .ok b m' => m'.functions = fs ∧ result' b
    | .error e _ => e.strays = false
  unfold EStateM.bind
  cases run : x m with
  | ok a m' =>
    rw [run] at first
    exact rest a first.2 m' first.1
  | error e m' =>
    rw [run] at first
    exact first

end Within

theorem within_onCpu {step : Exec α} (calm : step.Calm) :
    Within fs (onCpu step : RunM W α) fun _ => True := by
  intro m same
  unfold onCpu
  cases run : step m.cpu with
  | ok a cpu => exact ⟨same, trivial⟩
  | error e cpu => exact calm _ _ _ run

theorem within_callHost (f : HostFunction W) : Within fs (callHost f) fun _ => True := by
  refine Within.get.bind fun m _ => ?_
  refine (within_onCpu (Exec.plain_readGeneral _).calm).bind fun sp _ => ?_
  dsimp only
  exact (Within.modify fun _ => by rfl).bind fun _ _ =>
    within_onCpu (Exec.plain_returnFromHost _).calm

end RunM

/-- Control is at an instruction, and so are the places to return to. -/
def Control.Inside (fs : List (Symbol × LoadedFunction)) (c : Control) : Prop :=
  ∀ p ∈ (c.function, c.pc) :: c.callers, ∃ f, fs.lookup p.1 = some f ∧ p.2 < f.code.size

namespace RunM

variable {W : Type} {fs : List (Symbol × LoadedFunction)} {c : Control}

theorem within_countStep : Within fs (countStep : RunM W Unit) fun _ => True :=
  Within.modify fun _ => rfl

theorem within_fetch {f : LoadedFunction} (found : fs.lookup c.function = some f)
    (below : c.pc < f.code.size) :
    Within fs (fetch c : RunM W Instr) fun i => f.code[c.pc]? = some i := by
  refine Within.get.bind fun m same => ?_
  rw [Machine.function?, same, found, Option.bind_some, Array.getElem?_eq_getElem below]
  exact .pure rfl

theorem within_jumpTarget {f : LoadedFunction} {i : Instr} (closed : f.Closed)
    (found : fs.lookup c.function = some f) (listed : i ∈ f.code) (jumps : i.op.isJump = true) :
    Within fs (jumpTarget c i : RunM W Nat) fun pc => pc < f.code.size := by
  obtain ⟨l, pc, target, place, below⟩ := closed.jumps i listed jumps
  unfold jumpTarget
  rw [target]
  refine Within.get.bind fun m same => ?_
  rw [Machine.function?, same, found, Option.bind_some, place]
  exact .pure below

theorem callee?_eq_some {m : Machine W} {address : Nat} {sym : Symbol}
    (known : m.callee? address = some sym) :
    ((m.host? sym).isSome || (m.function? sym).isSome) = true := by
  unfold Machine.callee? at known
  simp only [Option.ite_none_right_eq_some, Bool.and_eq_true] at known
  obtain ⟨⟨-, loaded⟩, same⟩ := known
  rwa [Option.some.inj same] at loaded

theorem within_callThrough (closed : ∀ p ∈ fs, p.2.Closed) (inside : c.Inside fs) (i : Instr) :
    Within fs (callThrough c i : RunM W Control) fun c' => c'.Inside fs := by
  refine Within.get.bind fun m same => ?_
  refine (within_onCpu (Exec.plain_readOperand _ _ _).calm).bind fun v _ => ?_
  dsimp only
  split
  · exact .throw rfl
  rename_i callee known
  split
  · exact (within_callHost _).bind fun _ _ => .pure inside
  rename_i noHost
  refine (within_onCpu (Exec.plain_pushWord _).calm).bind fun _ _ => .pure ?_
  obtain ⟨f, found⟩ : ∃ f, fs.lookup callee = some f := by
    have loaded := callee?_eq_some known
    rw [noHost, Option.isSome_none, Bool.false_or, Machine.function?, same] at loaded
    exact Option.isSome_iff_exists.mp loaded
  refine List.forall_mem_cons.mpr ⟨⟨f, found, ?_⟩, inside⟩
  exact (closed _ (mem_of_lookup found)).starts

theorem within_step (closed : ∀ p ∈ fs, p.2.Closed) (inside : c.Inside fs) :
    Within fs (step c : RunM W (Option Control)) fun next => ∀ c' ∈ next, c'.Inside fs := by
  obtain ⟨⟨f, found, below⟩, callers⟩ := List.forall_mem_cons.mp inside
  have here := closed _ (mem_of_lookup found)
  have goes {pc : Nat} (below : pc < f.code.size) : Control.Inside fs { c with pc } :=
    List.forall_mem_cons.mpr ⟨⟨f, found, below⟩, callers⟩
  refine (within_fetch found below).bind fun i read => ?_
  -- Unless it returns or always jumps, an instruction has one behind it.
  have next := here.falls c.pc i read
  have jumps (jumps : i.op.isJump = true) :
      Within fs (do return some { c with pc := ← jumpTarget { c with pc := c.pc + 1 } i } :
        RunM W (Option Control)) fun next => ∀ c' ∈ next, c'.Inside fs := by
    refine (within_jumpTarget here found (Array.mem_of_getElem? read) jumps).bind fun pc below => ?_
    exact .pure (by simpa using goes below)
  dsimp only
  cases op : i.op with
  | ret =>
    refine (within_onCpu Exec.plain_popWord.calm).bind fun _ _ => ?_
    split
    · rename_i function pc rest waiting
      refine .pure ?_
      rintro _ ⟨⟩
      rwa [waiting] at callers
    · exact .pure nofun
  | jmp => exact jumps (by rw [op]; rfl)
  | jcc cond =>
    rw [op] at next
    refine Within.get.bind fun m _ => ?_
    split
    · exact jumps (by rw [op]; rfl)
    · exact .pure (by simpa using goes (next nofun nofun))
  | call | callind =>
    rw [op] at next
    refine (within_callThrough closed (goes (next nofun nofun)) i).bind fun c' there => ?_
    exact .pure (by simpa using there)
  | _ =>
    rw [op] at next
    refine Within.get.bind fun m _ => ?_
    refine (within_onCpu (Exec.calm_execute _ i)).bind fun _ _ => ?_
    exact .pure (by simpa using goes (next nofun nofun))

theorem within_run (closed : ∀ p ∈ fs, p.2.Closed) (fuel : Nat) (inside : c.Inside fs) :
    Within fs (run fuel c : RunM W Unit) fun _ => True := by
  induction fuel generalizing c with
  | zero => exact within_countStep.bind fun _ _ => Within.get.bind fun _ _ => .throw rfl
  | succ fuel ih =>
    refine within_countStep.bind fun _ _ => ?_
    refine (within_step closed inside).bind fun next there => ?_
    cases next with
    | none => exact .pure trivial
    | some c' => exact ih (there c' rfl)

theorem within_call (closed : ∀ p ∈ fs, p.2.Closed) (sym : Symbol) (args : List Value) :
    Within fs (call sym args : RunM W Value) fun _ => True := by
  refine Within.get.bind fun m same => ?_
  split
  · exact .throw rfl
  rename_i f found
  rw [Machine.function?, same] at found
  have inside : (⟨sym, 0, []⟩ : Control).Inside fs :=
    List.forall_mem_singleton.mpr ⟨f, found, (closed _ (mem_of_lookup found)).starts⟩
  dsimp only
  generalize (if f.ret.isStruct = true then f.params.tail else f.params) = params
  split
  · exact .throw (e := .aborted .missingOutput) rfl
  split
  · exact .throw (e := .argCount _ _) rfl
  refine (within_onCpu (Exec.calm_prepareCall _ _ _)).bind fun out _ => ?_
  refine (within_run closed _ inside).bind fun _ _ => ?_
  exact Within.get.bind fun _ _ => .pure trivial

end RunM

/-- A machine whose functions have all been compiled from function definitions. -/
def Machine.Compiled {W : Type} (m : Machine W) : Prop :=
  ∀ p ∈ m.functions, ∃ (d : FunctionDef) (t t' : SymbolTable) (f : LinearFunction)
    (g g' : Generator) (c : CompiledFunction),
    d.lower t = .ok f t' ∧ f.compile g = .ok c g' ∧ p.2 = .ofCompiled c

open Gen Generator

theorem FunctionDef.compile_ends {d : FunctionDef} {t t' : SymbolTable} {f : LinearFunction}
    (lowered : d.lower t = .ok f t') (g : Generator) :
    Gen.Ends f.compile g (fun c _ => c.Closed) fun e _ => e.misshapen = false := by
  have shaped := lower_shaped lowered
  refine (shaped.compile g).imp ?_
  rintro c _ ⟨graph, spells, -⟩
  exact spells.closed shaped

theorem Machine.Compiled.closed {W : Type} {m : Machine W} (compiled : m.Compiled) :
    ∀ p ∈ m.functions, p.2.Closed := by
  intro p inside
  obtain ⟨d, t, t', f, g, g', c, lowered, ok, same⟩ := compiled p inside
  rw [same]
  exact ((d.compile_ends lowered g).ok ok).loaded

/-- The code of every function definition is in order and what is compiled from it is closed: its
flow graph can be built, its labels are placed once and its blocks can be left in order; compilation
never fails for its shape, with blocks pruned or not; and when the function is run, beside any others
that have been compiled like it, control never leaves the code. -/
theorem FunctionDef.compiled_closed {d : FunctionDef} {t t' : SymbolTable} {f : LinearFunction}
    (lowered : d.lower t = .ok f t') :
    (∃ graph, FlowGraph.build f.codes f.exit = .ok graph) ∧
      (f.codes.toList.filterMap Code.label?).Nodup ∧
      (∀ g : Generator, g.frame.levels = [] →
        ∃ g', f.codes.toList.forM shapeFrame g = .ok () g' ∧ g'.frame.levels = []) ∧
      (∀ g e g', f.compile g = .error e g' → e.misshapen = false) ∧
      ∀ g c g', f.compile g = .ok c g' → c.Closed ∧
        ∀ (W : Type) (m : Machine W), m.Compiled → (m.load c).Compiled ∧
          ∀ args e m', RunM.call c.name args (m.load c) = .error e m' → e.strays = false := by
  have shaped := lower_shaped lowered
  refine ⟨shaped.build, shaped.once, fun g empty => ?_, fun g e g' failed => ?_, fun g c g' ok => ?_⟩
  · exact shapeFrames_run (empty ▸ shaped.nests)
  · exact (compile_ends lowered g).error failed
  · refine ⟨(compile_ends lowered g).ok ok, fun W m compiled => ?_⟩
    have loaded : (m.load c).Compiled := List.forall_mem_cons.mpr
      ⟨⟨d, t, t', f, g, g', c, lowered, ok, rfl⟩, compiled⟩
    refine ⟨loaded, fun args e m' failed => ?_⟩
    have within := RunM.within_call loaded.closed c.name args (m.load c) rfl
    rw [failed] at within
    exact within

/-- A loop that is never left: `for (;;) { int x = g(); }`. -/
def FunctionDef.endless : FunctionDef where
  name := ⟨0⟩
  ret := .void
  params := []
  output := none
  body := .while (.const ⟨0, .int⟩ ⟨2⟩)
    (.block [⟨⟨3⟩, some (.call ⟨2, .int⟩ (.addr ⟨1, .pointer⟩ ⟨1⟩) []), false⟩] [])

def SymbolTable.endless : SymbolTable where
  entries := #[⟨"f", .function, .void, none⟩, ⟨"g", .function, .int, none⟩,
    ⟨"1", .intConst 1, .int, none⟩, ⟨"x", .local, .int, none⟩]

/-- The exit of the loop is pruned, and its code ends with the jump back. -/
theorem FunctionDef.endless_closed : ∃ f t' c g', endless.lower .endless = .ok f t' ∧
    f.compile (.init {} t') = .ok c g' ∧ c.Closed ∧ c.instrs.getLast?.map Instr.op = some .jmp := by
  have compiled : ((endless.compiled? {} .endless).map fun c => c.instrs.getLast?.map Instr.op) =
      some (some .jmp) := by decide +kernel
  obtain ⟨c, ran, last⟩ := Option.map_eq_some_iff.mp compiled
  obtain ⟨f, t', g', lowered, ok⟩ := exists_of_compiled? ran
  obtain ⟨-, -, -, -, closed⟩ := compiled_closed lowered
  exact ⟨f, t', c, g', lowered, ok, (closed _ _ _ ok).1, last⟩

end CBackend
