import CBackend.Proofs.Conditions.Rules
import CBackend.Proofs.Semantics.Readings

/-!
Runs and executions. A run follows the outcome of an execution: it leads to a state that fits the
result, gets stuck where the execution does, and lasts where the execution runs out of fuel. The code
of an expression follows its evaluation, because it follows its reading.
-/

namespace CBackend

open LinearFunction

section Leads

variable {M α β : Type} {σ : Setting M} {t : SymbolTable} {f : LinearFunction} {fuel : Nat}
  {s s₁ : State (Activation M)} {outcome : Except Halt α} {fits : α → State (Activation M) → Prop}

/-- A run follows the outcome of an execution: it leads to a state that fits the result, gets stuck
where the execution does, and has at least `fuel` steps if the execution ran out of fuel. -/
def LinearFunction.Leads (σ : Setting M) (t : SymbolTable) (f : LinearFunction) (fuel : Nat)
    (s : State (Activation M)) (outcome : Except Halt α)
    (fits : α → State (Activation M) → Prop) : Prop :=
  match outcome with
  | .ok a => ∃ s', f.Runs σ.workings t s s' ∧ fits a s'
  | .error .stuck => f.Stuck σ.workings t s
  | .error .timeout => f.Lasts σ.workings t fuel s

namespace LinearFunction.Leads

theorem done {a : α} (here : fits a s) : f.Leads σ t fuel s (.ok a) fits := ⟨s, .refl, here⟩

theorem of_runs (run : f.Runs σ.workings t s s₁) (rest : f.Leads σ t fuel s₁ outcome fits) :
    f.Leads σ t fuel s outcome fits := by
  match outcome, rest with
  | .ok a, ⟨s', rest, here⟩ => exact ⟨s', run.trans rest, here⟩
  | .error .stuck, ⟨s', rest, last⟩ => exact ⟨s', run.trans rest, last⟩
  | .error .timeout, rest => exact Lasts.of_runs run rest

theorem bind {next : α → Except Halt β} {fits' : β → State (Activation M) → Prop}
    (first : f.Leads σ t fuel s outcome fits)
    (rest : ∀ a s', fits a s' → f.Leads σ t fuel s' (next a) fits') :
    f.Leads σ t fuel s (outcome >>= next) fits' := by
  match outcome, first with
  | .ok a, ⟨s', run, here⟩ => exact (rest a s' here).of_runs run
  | .error .stuck, stuck => exact stuck
  | .error .timeout, lasts => exact lasts

theorem then_runs {fits' : α → State (Activation M) → Prop}
    (leads : f.Leads σ t fuel s outcome fits)
    (rest : ∀ a s', fits a s' → ∃ s'', f.Runs σ.workings t s' s'' ∧ fits' a s'') :
    f.Leads σ t fuel s outcome fits' := by
  match outcome, leads with
  | .ok a, ⟨s', run, here⟩ =>
    obtain ⟨s'', more, there⟩ := rest a s' here
    exact ⟨s'', run.trans more, there⟩
  | .error .stuck, stuck => exact stuck
  | .error .timeout, lasts => exact lasts

theorem imp {fits' : α → State (Activation M) → Prop} (leads : f.Leads σ t fuel s outcome fits)
    (weaker : ∀ a s', fits a s' → fits' a s') : f.Leads σ t fuel s outcome fits' :=
  leads.then_runs fun a s' here => ⟨s', .refl, weaker a s' here⟩

theorem mono {less : Nat} (leads : f.Leads σ t fuel s outcome fits) (fewer : less ≤ fuel) :
    f.Leads σ t less s outcome fits := by
  match outcome, leads with
  | .ok a, leads => exact leads
  | .error .stuck, stuck => exact stuck
  | .error .timeout, lasts => exact Lasts.mono lasts fewer

theorem head (step : f.step σ.workings t s = some s₁)
    (rest : f.Leads σ t fuel s₁ outcome fits) : f.Leads σ t (fuel + 1) s outcome fits := by
  match outcome, rest with
  | .ok a, ⟨s', rest, here⟩ => exact ⟨s', .head step rest, here⟩
  | .error .stuck, ⟨s', rest, last⟩ => exact ⟨s', .head step rest, last⟩
  | .error .timeout, rest => exact (lasts_succ step).mpr rest

end LinearFunction.Leads

/-- The effect of a run on what was there before a part: it arrives at a position, in a world, with
a result for the function. -/
structure Arrives (d : Draft) (s : State (Activation M)) (pos : Nat) (world : World M)
    (result : Option Word) (s' : State (Activation M)) : Prop where
  kept : Kept d s.held s'.held
  pos : s'.pos = pos
  stack : s'.world.stack = s.world.stack
  world : s'.world.world = world
  result : s'.world.result = result

namespace Arrives

variable {d d₁ : Draft} {s₂ : State (Activation M)} {p p' : Nat} {w w' : World M}
  {r r' : Option Word}

theorem refl (d : Draft) (s : State (Activation M)) :
    Arrives d s s.pos s.world.world s.world.result s := ⟨.refl d _, rfl, rfl, rfl, rfl⟩

theorem trans (first : Arrives d s p w r s₁) (second : Arrives d₁ s₁ p' w' r' s₂)
    (grows : d.Grows d₁) : Arrives d s p' w' r' s₂ :=
  ⟨first.kept.trans second.kept grows, second.pos, second.stack.trans first.stack, second.world,
    second.result⟩

theorem seq (first : Arrives d s p w s.world.result s₁)
    (second : Arrives d₁ s₁ p' w' s₁.world.result s₂) (grows : d.Grows d₁) :
    Arrives d s p' w' s.world.result s₂ := first.result ▸ first.trans second grows

theorem move (arrives : Arrives d s p w r s₁) (p' : Nat) :
    Arrives d s p' w r { s₁ with pos := p' } :=
  ⟨arrives.kept, rfl, arrives.stack, arrives.world, arrives.result⟩

theorem weaken (arrives : Arrives d₁ s p w r s₁) (grows : d.Grows d₁) : Arrives d s p w r s₁ :=
  ⟨arrives.kept.weaken grows, arrives.pos, arrives.stack, arrives.world, arrives.result⟩

end Arrives

end Leads

def Action.Calm {M α : Type} (act : Action M α) : Prop := ∀ w, act w ≠ .error .timeout

namespace Action.Calm

variable {M α β : Type}

theorem pure (a : α) : Calm (Pure.pure a : Action M α) := fun _ => nofun

theorem ofOption (o : Option α) : Calm (Action.ofOption o : Action M α) := fun w => by
  cases o with
  | none => nofun
  | some a => nofun

theorem onMemory (step : M → Option M) : Calm (Action.onMemory step) := fun w => by
  rw [Action.onMemory]
  cases step w.memory with
  | none => nofun
  | some m => nofun

theorem bind {x : Action M α} {f : α → Action M β} (first : x.Calm) (rest : ∀ a, (f a).Calm) :
    Calm (x >>= f) := fun w => by
  rw [Action.bind_apply]
  match outcome : x w with
  | .ok (a, w') => exact rest a w'
  | .error .stuck => nofun
  | .error .timeout => exact absurd outcome (first w)

theorem read (σ : Setting M) (ty : CType) (a : Word) : Calm (σ.read ty a) :=
  bind (fun _ => nofun) fun _ => bind (ofOption _) fun _ => pure _

theorem invoke (σ : Setting M) (ty : CType) (c : Call) : Calm (σ.invoke ty c) :=
  bind (fun _ => nofun) fun _ => bind (ofOption _) fun _ =>
    bind (fun _ => nofun) fun _ => bind (fun _ => nofun) fun _ => pure _

theorem ite {p : Prop} [Decidable p] {x y : Action M α} (yes : x.Calm) (no : y.Calm) :
    Calm (if p then x else y) := by
  split
  · exact yes
  · exact no

end Action.Calm

namespace Expr

variable {M : Type} (σ : Setting M) (t : SymbolTable)

mutual

theorem calm_eval : (e : Expr) → (e.eval σ t).Calm
  | const .. => .ofOption _
  | addr .. => .pure _
  | deref _ a => a.calm_eval.bind fun _ => .read _ _ _
  | unary _ _ x => x.calm_eval.bind fun _ => .pure _
  | binary tag op a b => by
    rcases op.cases with ⟨o, arith⟩ | ⟨c, relation⟩ | rfl | rfl
    · rw [eval_arith arith]
      exact a.calm_eval.bind fun _ => b.calm_eval.bind fun _ => .ofOption _
    · rw [eval_relation relation]
      exact a.calm_eval.bind fun _ => b.calm_eval.bind fun _ => .pure _
    · exact a.calm_eval.bind fun _ => .ite (.pure _) (b.calm_eval.bind fun _ => .pure _)
    · exact a.calm_eval.bind fun _ => .ite (.pure _) (b.calm_eval.bind fun _ => .pure _)
  | assign _ a v => a.calm_eval.bind fun _ => v.calm_eval.bind fun _ =>
    .bind (.onMemory _) fun _ => .pure _
  | cond _ c a b => c.calm_eval.bind fun _ => .ite a.calm_eval b.calm_eval
  | call _ callee args => (calm_evalArgs args).bind fun _ => callee.calm_eval.bind fun _ =>
    .invoke _ _ _
  | cast _ x => x.calm_eval.bind fun _ => .pure _
  | comma _ a b => a.calm_eval.bind fun _ => b.calm_eval

theorem calm_evalArgs : (es : List Expr) → (evalArgs σ t es).Calm
  | [] => .pure _
  | e :: es => (calm_evalArgs es).bind fun _ => e.calm_eval.bind fun _ => .pure _

end

variable {σ t}

theorem isStruct_of_typed : (e : Expr) → e.typed t = true → e.ty.isStruct = false
  | comma tag a b, typed => by
    simp only [Expr.typed, Bool.and_eq_true, CType.alike, decide_eq_true_eq] at typed
    have plain := b.isStruct_of_typed typed.1.2
    cases same : tag.ty <;> first | simp [Expr.ty, Expr.tag, same, CType.isStruct]; done | skip
    cases other : b.ty <;> simp_all [CType.valueClass, CType.isStruct]
  | const tag sym, typed => by
    simp only [Expr.typed] at typed
    split at typed
    · simp only [Bool.and_eq_true] at typed
      exact CType.isStruct_of_isPlain (CType.isPlain_of_isInteger typed.1.1)
    · cases typed
  | addr tag _, typed | deref tag _, typed | unary tag _ _, typed | binary tag _ _ _, typed
  | assign tag _ _, typed | cond tag _ _ _, typed | call tag _ _, typed | cast tag _, typed => by
    cases same : tag.ty <;> first | simp [Expr.ty, Expr.tag, same, CType.isStruct]; done | skip
    simp [Expr.typed, same, CType.isInteger, CType.isPlain] at typed

theorem scalar_of_typed : (e : Expr) → e.typed t = true → e.scalar t = true
  | const tag sym, typed => by
    simp only [Expr.typed] at typed
    split at typed
    · simp_all [Expr.scalar, SymbolTable.fits]
    · cases typed
  | addr tag sym, typed => by
    simp only [Expr.typed, Bool.and_eq_true, SymbolTable.names] at typed
    obtain ⟨-, named⟩ := typed
    split at named <;> simp_all [Expr.scalar]
  | deref tag x, typed | unary tag op x, typed | cast tag x, typed => by
    have plain := isStruct_of_typed _ typed
    simp only [Expr.typed, Bool.and_eq_true] at typed
    simp_all [Expr.scalar, Expr.ty, Expr.tag, x.scalar_of_typed]
  | binary tag op a b, typed | assign tag a b, typed | comma tag a b, typed => by
    have plain := isStruct_of_typed _ typed
    simp only [Expr.typed, Bool.and_eq_true] at typed
    simp_all [Expr.scalar, Expr.ty, Expr.tag, a.scalar_of_typed, b.scalar_of_typed]
  | cond tag c a b, typed => by
    have plain := isStruct_of_typed _ typed
    simp only [Expr.typed, Bool.and_eq_true] at typed
    simp_all [Expr.scalar, Expr.ty, Expr.tag, a.scalar_of_typed, b.scalar_of_typed,
      c.scalar_of_typed]
  | call tag callee args, typed => by
    have plain := isStruct_of_typed _ typed
    simp only [Expr.typed, Bool.and_eq_true] at typed
    have all : Expr.allScalar t args = true := Expr.allScalar_iff.mpr fun e inside =>
      e.scalar_of_typed (Expr.typedArgs_iff.mp typed.2 e inside).2
    simp_all [Expr.scalar, Expr.ty, Expr.tag, callee.scalar_of_typed]

end Expr

section

variable {M : Type} (σ : Setting M) (t t' : SymbolTable) (f : LinearFunction)

/-- Runs through the code of an expression follow its evaluation: for its value, which an operator
holds in the end, for its effects, or to one of two places. -/
def Expresses (d d' : Draft) : Task → Prop
  | .value e v => e.ty.isInteger = true → e.typed t = true → v.index < d'.nodes.length ∧
    ∀ fuel s, s.pos = d.codes.length →
    f.Leads σ t' fuel s (e.eval σ t s.world.world) fun r s' =>
      Arrives d s d'.codes.length r.2 s.world.result s' ∧ Conditions.Has v (.int r.1) s'.held
  | .effect e => e.typed t = true → ∀ fuel s, s.pos = d.codes.length →
    f.Leads σ t' fuel s (e.eval σ t s.world.world) fun r s' =>
      Arrives d s d'.codes.length r.2 s.world.result s'
  | .branch e yes no => e.ty.isInteger = true → e.typed t = true →
    ∀ py pn, f.Lands yes d'.codes.length py → f.Lands no d'.codes.length pn →
    ∀ fuel s, s.pos = d.codes.length →
    f.Leads σ t' fuel s (e.eval σ t s.world.world) fun r s' =>
      Arrives d s (if r.1 = 0 then pn else py) r.2 s.world.result s'
  | _ => True

variable {σ t t' f} {p : Nat} {d : Draft} {s : State (Activation M)}

theorem LinearFunction.Leads.of_takes (fuel : Nat) {α β : Type} {act : Action M α} {g : α → β}
    {P : Held → Prop} {goal : β → Nat} {Q : β → Held → Prop}
    (takes : Conditions.Takes σ.workings t' f d p P (act.within >>= fun x => pure (g x)) goal Q)
    (calm : act.Calm) (here : s.pos = p) (start : P s.held) :
    f.Leads σ t' fuel s (act s.world.world) fun r s' =>
      Arrives d s (goal (g r.1)) r.2 s.world.result s' ∧ Q (g r.1) s'.held := by
  subst here
  have run := takes s.held s.world start
  change Conditions.Leads _ _ _ _ _ _ _ (act.within s.world >>= fun r => pure (g r.1, r.2)) at run
  rw [Action.within, Evaluation.ofOption, Activation.perform] at run
  cases outcome : act s.world.world with
  | ok r =>
    rw [outcome] at run
    obtain ⟨h, run, kept, there⟩ := run
    exact ⟨_, run, ⟨kept, rfl, rfl, rfl, rfl⟩, there⟩
  | error halt =>
    cases halt with
    | stuck =>
      rw [outcome] at run
      exact Fails.stuck run
    | timeout => exact absurd outcome (calm _)

theorem Lowers.expresses {output : Option Symbol} {task : Task} {d d' : Draft}
    (run : Lowers output false task d d') (unique : f.LabelsUnique) (base : t.Grows d.symbols)
    (inside : d'.Within t' f) : Expresses σ t t' f d d' task := by
  have simulates : Conditions.Simulates σ.workings t t' f d d' task :=
    Conditions.simulates run unique base inside
  cases task with
  | value e v =>
    intro integer typed
    have gives := simulates (e.scalar_of_typed typed)
    refine ⟨gives.old, fun fuel s here => ?_⟩
    have takes := gives.takes
    rw [(e.reads typed).value (CType.ne_void_of_isInteger integer)] at takes
    exact Leads.of_takes fuel takes (e.calm_eval σ t) here trivial
  | effect e =>
    intro typed fuel s here
    have takes := simulates (e.scalar_of_typed typed)
    rw [Conditions.Does, (e.reads typed).effect] at takes
    exact (Leads.of_takes fuel takes (e.calm_eval σ t) here trivial).imp fun _ _ there => there.1
  | branch e yes no =>
    intro integer typed py pn toYes toNo fuel s here
    have takes := simulates (e.scalar_of_typed typed) py pn toYes toNo
    rw [Conditions.Decides, (e.reads typed).truth integer] at takes
    refine (Leads.of_takes fuel takes (e.calm_eval σ t) here trivial).imp fun r s' there => ?_
    by_cases null : r.1 = 0
    · simpa [null] using there.1
    · simpa [null] using there.1
  | _ => trivial

end

end CBackend
