import CBackend.Linear
import CBackend.Proofs.Conditions.Meaning

/-!
What linear code means. A machine runs the codes of a function one at a time: an operator is computed
from the last values of its operands, a jump goes to the place of its label. What loads, stores,
calls and arithmetic do is left to the workings it runs on. The temporaries that lowering makes are
kept apart from the world, as nothing else has their addresses. The machine has ended when it is at
the code that leaves the frame, and is stuck when no step is possible elsewhere.
-/

namespace CBackend

/-- The value of an operator: a word, or the address of a temporary. -/
inductive Item where
  | value (x : Value)
  | temp (sym : Symbol)

def Item.value? : Item → Option Value
  | .value x => some x
  | .temp _ => none

structure Held where
  items : LinId → Item
  temps : Symbol → Value

namespace Held

variable (h : Held)

def values? (n : LinNode) : Option (List Value) := n.kids.mapM fun l => (h.items l).value?

def temp? (n : LinNode) : Option Symbol :=
  match n.kids.head?.map h.items with
  | some (.temp sym) => some sym
  | _ => none

def give (lin : LinId) (i : Item) : Held :=
  { h with items := fun l => if l = lin then i else h.items l }

def setTemp (sym : Symbol) (x : Value) : Held :=
  { h with temps := fun l => if l = sym then x else h.temps l }

end Held

structure State (W : Type) where
  pos : Nat
  held : Held
  world : W

namespace State

variable {W : Type} (s : State W)

def value? (lin : LinId) : Option Value := (s.held.items lin).value?

def next : State W := { s with pos := s.pos + 1 }

end State

namespace LinearFunction

section

variable {W : Type} (σ : Workings W) (t : SymbolTable) (f : LinearFunction)

def place? (l : Symbol) : Option Nat := f.codes.findIdx? fun c => decide (c = .label l)

def leftClass (n : LinNode) : ValueClass :=
  match n.left with
  | some l => (f.node l).ty.valueClass
  | none => .void

def apply (n : LinNode) (h : Held) (w : W) : Option (Item × Held × W) := do
  let (x, w) ← σ.apply { n with left := none, right := none } (← h.values? n) w
  return (.value x, h, w)

def compute (n : LinNode) (h : Held) (w : W) : Option (Item × Held × W) :=
  match n.op with
  | .const => do return (.value (← t.valueAt n.ty.valueClass (← n.sym)), h, w)
  | .addr => do
    let sym ← n.sym
    if t.kind sym = .temp then return (.temp sym, h, w) else apply σ n h w
  | .load =>
    match h.temp? n with
    | some sym => some (.value ((h.temps sym).readAt n.ty.valueClass), h, w)
    | none => apply σ n h w
  | .assign =>
    match h.temp? n, n.right.map h.items with
    | some sym, some (.value x) => some (.value x, h.setTemp sym x, w)
    | _, _ => apply σ n h w
  | .cmp cond =>
    match h.values? n with
    | some [x, y] => some (.value (.ofBool (cond.test (x.order (leftClass f n) y))), h, w)
    | _ => none
  | _ => apply σ n h w

def goto (l : Symbol) (s : State W) : Option (State W) := do return { s with pos := ← f.place? l }

/-- Runs one code; leaving the frame is the end. -/
def step (s : State W) : Option (State W) := do
  match ← f.codes[s.pos]? with
  | .eval lin =>
    let (i, h, w) ← compute σ t f (f.node lin) s.held s.world
    return ⟨s.pos + 1, h.give lin i, w⟩
  | .arg lin => return { s.next with world := ← σ.pass (f.node lin).ty (← s.value? lin) s.world }
  | .jump l => f.goto l s
  | .branch lin l =>
    if (← s.value? lin).isTrue (f.node lin).ty.valueClass then f.goto l s else return s.next
  | .ret lin => f.goto f.exit { s with world := ← σ.answer (← lin.mapM s.value?) s.world }
  | .zeroFill lin bytes => return { s.next with world := ← σ.fill (← s.value? lin) bytes s.world }
  | .frameExit => none
  | .label _ | .blockEnter _ | .blockLeave _ | .declare _ | .frameEnter => return s.next

def Runs : State W → State W → Prop := Relation.ReflTransGen fun s s' => step σ t f s = some s'

def after : (n : Nat) → State W → Option (State W)
  | 0, s => some s
  | n + 1, s => step σ t f s >>= after n

def Ended (s : State W) : Prop := f.codes[s.pos]? = some .frameExit

def Stuck (s : State W) : Prop := ∃ s', Runs σ t f s s' ∧ step σ t f s' = none ∧ ¬f.Ended s'

/-- A run comes to an operator or an argument that fails. -/
def Fails (s : State W) : Prop :=
  ∃ s' lin, Runs σ t f s s' ∧ (f.codes[s'.pos]? = some (.eval lin) ∨
    f.codes[s'.pos]? = some (.arg lin)) ∧ step σ t f s' = none

def Lasts (n : Nat) (s : State W) : Prop := ∃ s', after σ t f n s = some s'

end

variable {W : Type} {σ : Workings W} {t : SymbolTable} {f : LinearFunction} {n : Nat}
  {s s' s₁ s₂ : State W}

theorem step_ended (ended : f.Ended s) : step σ t f s = none := by
  rw [step, show f.codes[s.pos]? = _ from ended]
  rfl

theorem Fails.stuck (fails : Fails σ t f s) : Stuck σ t f s := by
  obtain ⟨s', lin, run, here, last⟩ := fails
  refine ⟨s', run, last, fun ended => ?_⟩
  rcases here with here | here <;> cases here.symm.trans ended

theorem runs_of_after (run : after σ t f n s = some s') : Runs σ t f s s' := by
  induction n generalizing s with
  | zero =>
    obtain rfl := Option.some.inj run
    exact .refl
  | succ n ih =>
    obtain ⟨s₁, first, rest⟩ := Option.bind_eq_some_iff.mp run
    exact .head first (ih rest)

theorem Runs.last_unique (first : Runs σ t f s s₁) (last₁ : step σ t f s₁ = none)
    (second : Runs σ t f s s₂) (last₂ : step σ t f s₂ = none) : s₁ = s₂ := by
  have still {a b : State W} (last : step σ t f a = none) (run : Runs σ t f a b) : a = b := by
    rcases run.cases_head with same | ⟨c, more, -⟩
    · exact same
    · cases last.symm.trans more
  have once : Relator.RightUnique fun s s' => step σ t f s = some s' :=
    fun _ _ _ left right => Option.some.inj (left.symm.trans right)
  rcases first.total_of_right_unique once second with rest | rest
  · exact still last₁ rest
  · exact (still last₂ rest).symm

theorem lasts_succ (step : step σ t f s = some s₁) :
    Lasts σ t f (n + 1) s ↔ Lasts σ t f n s₁ := by
  simp [Lasts, after, step]

theorem Lasts.pred (lasts : Lasts σ t f (n + 1) s) : Lasts σ t f n s := by
  induction n generalizing s with
  | zero => exact ⟨s, rfl⟩
  | succ n ih =>
    obtain ⟨s', run⟩ := lasts
    obtain ⟨s₁, first, rest⟩ := Option.bind_eq_some_iff.mp run
    exact (lasts_succ first).mpr (ih ⟨s', rest⟩)

theorem Lasts.mono {m : Nat} (lasts : Lasts σ t f n s) (less : m ≤ n) : Lasts σ t f m s := by
  induction less with
  | refl => exact lasts
  | step _ ih => exact ih lasts.pred

theorem Lasts.of_runs (run : Runs σ t f s s₁) (lasts : Lasts σ t f n s₁) : Lasts σ t f n s := by
  induction run using Relation.ReflTransGen.head_induction_on with
  | refl => exact lasts
  | head step _ ih => exact Lasts.pred ((lasts_succ step).mpr ih)

theorem Runs.not_lasts (run : Runs σ t f s s₁) (last : step σ t f s₁ = none) :
    ∃ n, ¬Lasts σ t f n s := by
  induction run using Relation.ReflTransGen.head_induction_on with
  | refl => exact ⟨1, fun ⟨_, longer⟩ => by simp [after, last] at longer⟩
  | head step _ ih =>
    obtain ⟨n, short⟩ := ih
    exact ⟨n + 1, fun lasts => short ((lasts_succ step).mp lasts)⟩

end LinearFunction

end CBackend
