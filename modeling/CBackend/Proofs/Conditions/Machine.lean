import CBackend.Proofs.Semantics.Segments

/-!
A logic of the runs of linear code: `Moves` says that a run leads from one place to another, `Takes`
that it follows an evaluation on the way.
-/

namespace CBackend.Conditions

open LinearFunction

def Has (l : LinId) (x : Value) (h : Held) : Prop := h.items l = .value x

theorem Has.value?_eq {W : Type} {s : State W} {l : LinId} {x : Value} (has : Has l x s.held) :
    s.value? l = some x := by
  rw [State.value?, show s.held.items l = _ from has]
  rfl

def Stored (sym : Symbol) (x : Value) (h : Held) : Prop := h.temps sym = x

def Lasting (d : Draft) (fact : Held → Prop) : Prop := ∀ h h', Kept d h h' → fact h → fact h'

theorem lasting_has {d : Draft} {l : LinId} (old : l.index < d.nodes.length) (x : Value) :
    Lasting d (Has l x) := fun _ _ kept has => (kept.items l old).trans has

theorem lasting_stored {d : Draft} {sym : Symbol} (old : sym.index < d.symbols.size) (x : Value) :
    Lasting d (Stored sym x) := fun _ _ kept stored => (kept.temps sym old).trans stored

section Logic

variable {W α β : Type} (σ : Workings W) (t : SymbolTable) (f : LinearFunction)

/-- A run comes to a branch that asks for the order of operands that have none. -/
def Disordered (s : State W) : Prop :=
  ∃ s' lin l cond x y, Runs σ t f s s' ∧ f.codes[s'.pos]? = some (.eval lin) ∧
    f.codes[s'.pos + 1]? = some (.branch lin l) ∧ (f.node lin).op = .cmp cond ∧ cond.orders = true ∧
    s'.held.values? (f.node lin) = some [x, y] ∧ x.order (leftClass f (f.node lin)) y = none

/-- A run from one place to another in the same world, which keeps what was held before a draft. -/
def Moves (d : Draft) (p : Nat) (P : Held → Prop) (q : Nat) (Q : Held → Prop) : Prop :=
  ∀ h (w : W), P h → ∃ h', Runs σ t f ⟨p, h, w⟩ ⟨q, h', w⟩ ∧ Kept d h h' ∧ Q h'

/-- A run follows an outcome: it comes to a place that depends on the value, to an operator that
fails, or to a branch on operands without an order. -/
def Leads (d : Draft) (s : State W) (goal : α → Nat) (Q : α → Held → Prop) :
    Except Mishap (α × W) → Prop
  | .ok r => ∃ h, Runs σ t f s ⟨goal r.1, h, r.2⟩ ∧ Kept d s.held h ∧ Q r.1 h
  | .error .failed => Fails σ t f s
  | .error .unordered => Disordered σ t f s

def Takes (d : Draft) (p : Nat) (P : Held → Prop) (act : Evaluation W α) (goal : α → Nat)
    (Q : α → Held → Prop) : Prop :=
  ∀ h w, P h → Leads σ t f d ⟨p, h, w⟩ goal Q (act w)

variable {σ t f} {d d₁ : Draft} {p q r : Nat} {P R Q : Held → Prop}

namespace Leads

variable {s s' : State W} {goal : α → Nat} {after after' : α → Held → Prop}
  {outcome : Except Mishap (α × W)}

theorem of_runs (run : Runs σ t f s s') (kept : Kept d s.held s'.held) (grows : d.Grows d₁)
    (leads : Leads σ t f d₁ s' goal after outcome) : Leads σ t f d s goal after outcome := by
  match outcome, leads with
  | .ok _, ⟨h, more, kept', there⟩ => exact ⟨h, run.trans more, kept.trans kept' grows, there⟩
  | .error .failed, ⟨last, lin, more, here⟩ => exact ⟨last, lin, run.trans more, here⟩
  | .error .unordered, ⟨last, lin, l, cond, x, y, more, here⟩ =>
    exact ⟨last, lin, l, cond, x, y, run.trans more, here⟩

theorem bind {next : α × W → Except Mishap (β × W)} {goal' : β → Nat} {last : β → Held → Prop}
    (first : Leads σ t f d s goal after outcome)
    (rest : ∀ a h w, after a h → Leads σ t f d₁ ⟨goal a, h, w⟩ goal' last (next (a, w)))
    (grows : d.Grows d₁) : Leads σ t f d s goal' last (outcome >>= next) := by
  match outcome, first with
  | .ok (a, w), ⟨h, run, kept, there⟩ => exact (rest a h w there).of_runs run kept grows
  | .error .failed, fails => exact fails
  | .error .unordered, disordered => exact disordered

theorem map (leads : Leads σ t f d₁ s goal after outcome)
    (weaker : ∀ a h, Kept d₁ s.held h → after a h → Kept d s.held h ∧ after' a h) :
    Leads σ t f d s goal after' outcome := by
  match outcome, leads with
  | .ok (a, w), ⟨h, run, kept, there⟩ => exact ⟨h, run, weaker a h kept there⟩
  | .error .failed, fails => exact fails
  | .error .unordered, disordered => exact disordered

end Leads

namespace Moves

theorem refl (d : Draft) (p : Nat) : Moves σ t f d p P p P :=
  fun h _ here => ⟨h, .refl, .refl d h, here⟩

theorem trans (first : Moves σ t f d p P q R) (second : Moves σ t f d₁ q R r Q)
    (grows : d.Grows d₁) : Moves σ t f d p P r Q := by
  intro h w here
  obtain ⟨h₁, run, kept, there⟩ := first h w here
  obtain ⟨h₂, more, kept', last⟩ := second h₁ w there
  exact ⟨h₂, run.trans more, kept.trans kept' grows, last⟩

theorem weaken (moves : Moves σ t f d₁ p P q Q) (grows : d.Grows d₁) :
    Moves σ t f d p P q Q := by
  intro h w here
  obtain ⟨h₁, run, kept, there⟩ := moves h w here
  exact ⟨h₁, run, kept.weaken grows, there⟩

theorem keep (moves : Moves σ t f d p P q Q) {fact : Held → Prop} (lasting : Lasting d fact)
    (start : ∀ h, R h → P h ∧ fact h) : Moves σ t f d p R q fun h => Q h ∧ fact h := by
  intro h w here
  obtain ⟨h₁, run, kept, there⟩ := moves h w (start h here).1
  exact ⟨h₁, run, kept, there, lasting h h₁ kept (start h here).2⟩

theorem takes {act : Evaluation W α} {goal : α → Nat} {after : α → Held → Prop}
    (first : Moves σ t f d p P q R) (rest : Takes σ t f d₁ q R act goal after)
    (grows : d.Grows d₁) : Takes σ t f d p P act goal after := by
  intro h w here
  obtain ⟨h₁, run, kept, there⟩ := first h w here
  exact (rest h₁ w there).of_runs run kept grows

theorem pure {a : α} {goal : α → Nat} {after : α → Held → Prop}
    (moves : Moves σ t f d p P (goal a) (after a)) : Takes σ t f d p P (pure a) goal after :=
  fun h w here => moves h w here

end Moves

namespace Takes

variable {act : Evaluation W α} {goal : α → Nat} {after after' : α → Held → Prop}

theorem pure {a : α} (here : p = goal a) (holds : ∀ h, P h → after a h) :
    Takes σ t f d p P (pure a) goal after := by
  subst here
  exact fun h _ start => ⟨h, .refl, .refl d h, holds h start⟩

theorem bind {k : α → Evaluation W β} {goal' : β → Nat} {last : β → Held → Prop}
    (first : Takes σ t f d p P act goal after)
    (rest : ∀ a, Takes σ t f d₁ (goal a) (after a) (k a) goal' last) (grows : d.Grows d₁) :
    Takes σ t f d p P (act >>= k) goal' last :=
  fun h w here => (first h w here).bind (fun a h w there => rest a h w there) grows

theorem moves {goal' : α → Nat} (first : Takes σ t f d p P act goal after)
    (rest : ∀ a, Moves σ t f d₁ (goal a) (after a) (goal' a) (after' a)) (grows : d.Grows d₁) :
    Takes σ t f d p P act goal' after' := by
  rw [← bind_pure act]
  exact first.bind (fun a => (rest a).pure) grows

theorem weaken (takes : Takes σ t f d₁ p P act goal after) (grows : d.Grows d₁) :
    Takes σ t f d p P act goal after :=
  fun h w here => (takes h w here).map fun _ _ kept there => ⟨kept.weaken grows, there⟩

theorem imp (takes : Takes σ t f d p P act goal after)
    (weaker : ∀ a h, after a h → after' a h) : Takes σ t f d p P act goal after' :=
  fun h w here => (takes h w here).map fun a h kept there => ⟨kept, weaker a h there⟩

theorem keep (takes : Takes σ t f d p P act goal after) {fact : Held → Prop}
    (lasting : Lasting d fact) (start : ∀ h, R h → P h ∧ fact h) :
    Takes σ t f d p R act goal fun a h => after a h ∧ fact h :=
  fun h w here => (takes h w (start h here).1).map fun _ h' kept there =>
    ⟨kept, there, lasting h h' kept (start h here).2⟩

theorem settled {a : α} (takes : Takes σ t f d p P act goal after)
    (value : ∀ w, act w = .ok (a, w)) : Moves σ t f d p P (goal a) (after a) := by
  intro h w here
  have run := takes h w here
  rw [value] at run
  exact run

end Takes

end Logic

end CBackend.Conditions
