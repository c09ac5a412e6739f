import CBackend.Compile
import CBackend.Proofs.StateError

/-!
Handing out registers does not look at the symbol table, the options or the capacity of the value
table: with others in their place it does the same and leaves them alone.
-/

namespace CBackend

structure Surroundings where
  symbols : SymbolTable
  options : CompileOptions
  capacity : Nat

namespace Generator

def surroundings (g : Generator) : Surroundings := ⟨g.symbols, g.options, g.pool.capacity⟩

def within (g : Generator) (s : Surroundings) : Generator :=
  { g with
    symbols := s.symbols
    options := s.options
    pool := { g.pool with capacity := s.capacity } }

@[simp] theorem within_surroundings (g : Generator) : g.within g.surroundings = g := rfl

@[simp] theorem surroundings_within (g : Generator) (s : Surroundings) :
    (g.within s).surroundings = s := rfl

end Generator

namespace Gen

variable {α β : Type}

def relocate (s : Surroundings) :
    EStateM.Result CompileError Generator α → EStateM.Result CompileError Generator α
  | .ok a g => .ok a (g.within s)
  | .error e g => .error e (g.within s)

structure Detached (x : Gen α) : Prop where
  run : ∀ g s, x (g.within s) = relocate s (x g)

namespace Detached

variable {x : Gen α} {f : α → Gen β} {g g' : Generator}

theorem ok (detached : Detached x) {a : α} (run : x g = .ok a g') (s : Surroundings) :
    x (g.within s) = .ok a (g'.within s) := by
  rw [detached.run, run, relocate]

theorem error (detached : Detached x) {e : CompileError} (run : x g = .error e g')
    (s : Surroundings) : x (g.within s) = .error e (g'.within s) := by
  rw [detached.run, run, relocate]

theorem surroundings_ok (detached : Detached x) {a : α} (run : x g = .ok a g') :
    g'.surroundings = g.surroundings := by
  have same := detached.ok run g.surroundings
  rw [Generator.within_surroundings, run] at same
  rw [(EStateM.Result.ok.inj same).2, Generator.surroundings_within]

theorem surroundings_error (detached : Detached x) {e : CompileError} (run : x g = .error e g') :
    g'.surroundings = g.surroundings := by
  have same := detached.error run g.surroundings
  rw [Generator.within_surroundings, run] at same
  rw [(EStateM.Result.error.inj same).2, Generator.surroundings_within]

theorem pure (a : α) : Detached (pure a) := ⟨fun _ _ => rfl⟩

theorem throw (e : CompileError) : Detached (throw e : Gen α) := ⟨fun _ _ => rfl⟩

theorem andThen (first : Detached x) (rest : ∀ g a g', x g = .ok a g' → Detached (f a)) :
    Detached (x >>= f) := by
  constructor
  intro g s
  change EStateM.bind x f (g.within s) = relocate s (EStateM.bind x f g)
  unfold EStateM.bind
  rw [first.run]
  cases run : x g with
  | ok a g' => exact (rest g a g' run).run g' s
  | error e g' => rfl

theorem bind (first : Detached x) (rest : ∀ a, Detached (f a)) : Detached (x >>= f) :=
  first.andThen fun _ a _ _ => rest a

theorem map {f : α → β} (detached : Detached x) : Detached (f <$> x) := by
  rw [map_eq_pure_bind]
  exact detached.bind fun _ => pure _

theorem get_bind {k : Generator → Gen α} (same : ∀ g s, k (Generator.within g s) = k g)
    (rest : ∀ g, Detached (k g)) : Detached (get >>= k) := by
  constructor
  intro g s
  change k (g.within s) (g.within s) = relocate s (k g g)
  rw [same]
  exact (rest g).run g s

theorem modify {change : Generator → Generator}
    (same : ∀ g s, change (Generator.within g s) = (change g).within s) :
    Detached (modify change) := by
  constructor
  intro g s
  change EStateM.Result.ok () (change (g.within s)) = .ok () ((change g).within s)
  rw [same]

theorem modifyGet {change : Generator → α × Generator}
    (same : ∀ g s, change (Generator.within g s) = ((change g).1, (change g).2.within s)) :
    Detached (modifyGet change) := by
  constructor
  intro g s
  change (let (a, g') := change (g.within s); EStateM.Result.ok a g') =
    relocate s (let (a, g') := change g; EStateM.Result.ok a g')
  rw [same]
  rfl

theorem ofExcept (r : Except CompileError α) : Detached (ofExcept r) := by
  cases r with
  | ok a => exact pure a
  | error e => exact throw e

theorem forM {f : α → Gen PUnit} {as : List α} (round : ∀ a, Detached (f a)) :
    Detached (as.forM f) := by
  induction as with
  | nil => exact pure _
  | cons a as ih => exact (round a).bind fun _ => ih

theorem tryFinally {finalizer : Gen β} (detached : Detached x) (last : Detached finalizer) :
    Detached (tryFinally x finalizer) := by
  constructor
  intro g s
  change EStateM.map Prod.fst (tryFinally' x fun _ => finalizer) (g.within s) =
    relocate s (EStateM.map Prod.fst (tryFinally' x fun _ => finalizer) g)
  simp only [EStateM.map, tryFinally', detached.run]
  cases x g with
  | ok a g' =>
    simp only [relocate, last.run]
    cases finalizer g' <;> rfl
  | error e g' =>
    simp only [relocate, last.run]
    cases finalizer g' <;> rfl

theorem ite {p : Prop} [Decidable p] {y : Gen α} (first : Detached x) (second : Detached y) :
    Detached (if p then x else y) := by
  split
  · exact first
  · exact second

end Detached

theorem detached_node (id : NodeId) : Detached (node id) :=
  .get_bind (fun _ _ => rfl) fun _ => .pure _

theorem detached_modifyStats (change : FunctionStats → FunctionStats) :
    Detached (modifyStats change) := .modify fun _ _ => rfl

theorem detached_onRegs (step : RegisterFile → Except RegisterError RegisterFile) :
    Detached (onRegs step) := by
  apply Detached.get_bind (fun _ _ => rfl)
  intro g
  cases step g.regs with
  | ok regs => exact .modify fun _ _ => rfl
  | error e => exact .throw _

theorem detached_emit (i : Instr) : Detached (emit i) := .modifyGet fun _ _ => rfl

end Gen

end CBackend
