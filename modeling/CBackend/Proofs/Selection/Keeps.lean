import CBackend.Proofs.StateError
import CBackend.Selection.Generator

/-!
How steps of code generation end. `Ends` says what holds after a step from one state, whether it
succeeds or fails; `Keeps` says that a step keeps an invariant from every state. Both follow the way
steps are put together.
-/

namespace CBackend.Gen

variable {α β : Type}

/-- A step from a state succeeds with a result and state as in `after`, or fails as in `failed`. -/
def Ends (x : Gen α) (g : Generator) (after : α → Generator → Prop)
    (failed : CompileError → Generator → Prop) : Prop :=
  match x g with
  | .ok a g' => after a g'
  | .error e g' => failed e g'

section Ends

variable {x : Gen α} {g : Generator} {after after' : α → Generator → Prop}
  {failed : CompileError → Generator → Prop}

theorem Ends.ok {a : α} {g' : Generator} (ends : Ends x g after failed) (run : x g = .ok a g') :
    after a g' := by
  rw [Ends, run] at ends
  exact ends

theorem Ends.error {e : CompileError} {g' : Generator} (ends : Ends x g after failed)
    (run : x g = .error e g') : failed e g' := by
  rw [Ends, run] at ends
  exact ends

theorem Ends.of_ok {a : α} {g' : Generator} (run : x g = .ok a g') (here : after a g') :
    Ends x g after failed := by
  rw [Ends, run]
  exact here

theorem Ends.mono {failed' : CompileError → Generator → Prop} (ends : Ends x g after failed)
    (weaker : ∀ a g', after a g' → after' a g') (weaker' : ∀ e g', failed e g' → failed' e g') :
    Ends x g after' failed' := by
  unfold Ends at ends ⊢
  cases run : x g with
  | ok a g' =>
    rw [run] at ends
    exact weaker a g' ends
  | error e g' =>
    rw [run] at ends
    exact weaker' e g' ends

theorem Ends.imp (ends : Ends x g after failed) (weaker : ∀ a g', after a g' → after' a g') :
    Ends x g after' failed :=
  ends.mono weaker fun _ _ failed => failed

theorem Ends.bind {f : α → Gen β} {after' : β → Generator → Prop} (ends : Ends x g after failed)
    (rest : ∀ a g', after a g' → Ends (f a) g' after' failed) : Ends (x >>= f) g after' failed := by
  change match EStateM.bind x f g with
    | .ok b g' => after' b g'
    | .error e g' => failed e g'
  unfold EStateM.bind
  unfold Ends at ends
  cases run : x g with
  | ok a g' =>
    rw [run] at ends
    exact rest a g' ends
  | error e g' =>
    rw [run] at ends
    exact ends

theorem Ends.after_ok {f : α → Gen β} {after' : β → Generator → Prop} {a : α} {g' : Generator}
    (run : x g = .ok a g') (rest : Ends (f a) g' after' failed) : Ends (x >>= f) g after' failed := by
  have here : Ends x g (fun b g'' => b = a ∧ g'' = g') failed := .of_ok run ⟨rfl, rfl⟩
  exact here.bind fun _ _ ⟨same, there⟩ => same ▸ there ▸ rest

theorem Ends.map {f : α → β} {after' : β → Generator → Prop}
    (ends : Ends x g (fun a g' => after' (f a) g') failed) : Ends (f <$> x) g after' failed := by
  change match EStateM.map f x g with
    | .ok b g' => after' b g'
    | .error e g' => failed e g'
  unfold EStateM.map
  unfold Ends at ends
  cases run : x g with
  | ok a g' =>
    rw [run] at ends
    exact ends
  | error e g' =>
    rw [run] at ends
    exact ends

theorem Ends.forM {f : α → Gen PUnit} {inv : Generator → Prop} {as : List α} (start : inv g)
    (round : ∀ a ∈ as, ∀ g, inv g → Ends (f a) g (fun _ g' => inv g') failed) :
    Ends (as.forM f) g (fun _ g' => inv g') failed := by
  induction as generalizing g with
  | nil => exact start
  | cons a as ih =>
    change Ends (f a >>= fun _ => as.forM f) g _ _
    exact (round a List.mem_cons_self g start).bind fun _ g' next =>
      ih next fun a later => round a (List.mem_cons_of_mem _ later)

theorem Ends.and {failed' : CompileError → Generator → Prop} (first : Ends x g after failed)
    (second : Ends x g after' failed') :
    Ends x g (fun a g' => after a g' ∧ after' a g') fun e g' => failed e g' ∧ failed' e g' := by
  unfold Ends at first second ⊢
  cases run : x g with
  | ok a g' =>
    rw [run] at first second
    exact ⟨first, second⟩
  | error e g' =>
    rw [run] at first second
    exact ⟨first, second⟩

theorem Ends.tryFinally {finalizer : Gen β} {between : CompileError → Generator → Prop}
    {middle : α → Generator → Prop} (ends : Ends x g middle between)
    (last : ∀ a g', middle a g' → Ends finalizer g' (fun _ g'' => after a g'') failed)
    (lastFailed : ∀ e g', between e g' → Ends finalizer g' (fun _ g'' => failed e g'') failed) :
    Ends (tryFinally x finalizer) g after failed := by
  unfold Ends at ends ⊢
  change match EStateM.map Prod.fst (tryFinally' x fun _ => finalizer) g with
    | .ok b g' => after b g'
    | .error e g' => failed e g'
  simp only [EStateM.map, tryFinally']
  cases run : x g with
  | ok a g' =>
    rw [run] at ends
    have ended := last a g' ends
    unfold Ends at ended
    cases done : finalizer g' <;> simp only [done] at ended ⊢ <;> exact ended
  | error e g' =>
    rw [run] at ends
    have ended := lastFailed e g' ends
    unfold Ends at ended
    cases done : finalizer g' <;> simp only [done] at ended ⊢ <;> exact ended

theorem checkFrame_run (g : Generator) : checkFrame g =
    if g.frame.overflowed then .error (.invariant (.aborted .frameOverflow)) g else .ok () g := by
  change (if g.frame.overflowed then throw (.invariant (.aborted .frameOverflow)) else pure () :
    Gen Unit) g = _
  split <;> rfl

theorem checked_run (x : Gen α) (g : Generator) : tryFinally x checkFrame g =
    match x g with
    | .ok a g' =>
      if g'.frame.overflowed then .error (.invariant (.aborted .frameOverflow)) g' else .ok a g'
    | .error e g' =>
      .error (if g'.frame.overflowed then .invariant (.aborted .frameOverflow) else e) g' := by
  change EStateM.map Prod.fst (tryFinally' x fun _ => checkFrame) g = _
  simp only [EStateM.map, tryFinally']
  cases x g with
  | ok a g' => cases full : g'.frame.overflowed <;> simp [checkFrame_run, full]
  | error e g' => cases full : g'.frame.overflowed <;> simp [checkFrame_run, full]

theorem checked_ends {between : CompileError → Generator → Prop} (ends : Ends x g after between)
    (error : ∀ e g', between e g' → g'.frame.overflowed = false → failed e g')
    (abort : ∀ g', (∃ a, after a g') ∨ (∃ e, between e g') → g'.frame.overflowed = true →
      failed (.invariant (.aborted .frameOverflow)) g') :
    Ends (tryFinally x checkFrame) g (fun a g' => after a g' ∧ g'.frame.overflowed = false)
      failed := by
  unfold Ends at ends ⊢
  rw [checked_run]
  cases run : x g with
  | ok a g' =>
    rw [run] at ends
    cases full : g'.frame.overflowed with
    | true => simpa [full] using abort g' (.inl ⟨a, ends⟩) full
    | false => simpa [full] using ends
  | error e g' =>
    rw [run] at ends
    cases full : g'.frame.overflowed with
    | true => simpa [full] using abort g' (.inr ⟨e, ends⟩) full
    | false => simpa [full] using error e g' ends full

end Ends

/-- From every state that satisfies an invariant, a step leads to one that does with a result as
expected, or fails as expected. -/
structure Keeps (inv : Generator → Prop) (failed : CompileError → Generator → Prop) (x : Gen α)
    (result : α → Prop) : Prop where
  ends : ∀ g, inv g → Ends x g (fun a g' => inv g' ∧ result a) failed

namespace Keeps

variable {inv : Generator → Prop} {failed : CompileError → Generator → Prop} {x : Gen α}
  {result result' : α → Prop}

theorem pure {a : α} (here : result a) : Keeps inv failed (pure a) result :=
  ⟨fun _ start => ⟨start, here⟩⟩

theorem throw {e : CompileError} (here : ∀ g, inv g → failed e g) :
    Keeps inv failed (throw e) result :=
  ⟨here⟩

theorem imp (keeps : Keeps inv failed x result) (weaker : ∀ a, result a → result' a) :
    Keeps inv failed x result' :=
  ⟨fun g start => (keeps.ends g start).imp fun a _ ⟨kept, here⟩ => ⟨kept, weaker a here⟩⟩

theorem bind {f : α → Gen β} {result' : β → Prop} (keeps : Keeps inv failed x result)
    (rest : ∀ a, result a → Keeps inv failed (f a) result') :
    Keeps inv failed (x >>= f) result' :=
  ⟨fun g start => (keeps.ends g start).bind fun a g' ⟨kept, here⟩ => (rest a here).ends g' kept⟩

theorem get : Keeps inv failed get inv := ⟨fun _ start => ⟨start, start⟩⟩

theorem modify {f : Generator → Generator} (kept : ∀ g, inv g → inv (f g)) :
    Keeps inv failed (modify f) fun _ => True :=
  ⟨fun g start => ⟨kept g start, trivial⟩⟩

theorem modifyGet {f : Generator → α × Generator}
    (kept : ∀ g, inv g → inv (f g).2 ∧ result (f g).1) : Keeps inv failed (modifyGet f) result :=
  ⟨fun g start => kept g start⟩

theorem forM {f : α → Gen PUnit} {as : List α}
    (round : ∀ a ∈ as, Keeps inv failed (f a) fun _ => True) :
    Keeps inv failed (as.forM f) fun _ => True := by
  refine ⟨fun g start => ?_⟩
  refine (Ends.forM start fun a inside g kept => ?_).imp fun _ _ kept => ⟨kept, trivial⟩
  exact ((round a inside).ends g kept).imp fun _ _ ⟨kept, _⟩ => kept

theorem ofExcept {r : Except CompileError α}
    (here : ∀ e g, r = .error e → inv g → failed e g) :
    Keeps inv failed (Gen.ofExcept r) fun _ => True := by
  cases r with
  | ok a => exact pure trivial
  | error e => exact throw fun g => here e g rfl

theorem mapM {f : α → Gen β} {as : List α}
    (round : ∀ a ∈ as, Keeps inv failed (f a) fun _ => True) :
    Keeps inv failed (as.mapM f) fun _ => True := by
  induction as with
  | nil => exact pure trivial
  | cons a as ih =>
    rw [List.mapM_cons]
    refine (round a List.mem_cons_self).bind fun b _ => ?_
    refine (ih fun a later => round a (List.mem_cons_of_mem _ later)).bind fun bs _ => ?_
    exact pure trivial

theorem allM {test : α → Gen Bool} {as : List α}
    (round : ∀ a ∈ as, Keeps inv failed (test a) fun _ => True) :
    Keeps inv failed (as.allM test) fun _ => True := by
  induction as with
  | nil => exact pure trivial
  | cons a as ih =>
    rw [List.allM]
    refine (round a List.mem_cons_self).bind fun b _ => ?_
    cases b with
    | true => exact ih fun a later => round a (List.mem_cons_of_mem _ later)
    | false => exact pure trivial

theorem tryFinally {finalizer : Gen β} (keeps : Keeps inv failed x result)
    (last : Keeps inv failed finalizer fun _ => True)
    (lastFailed : ∀ e g, failed e g → Ends finalizer g (fun _ g' => failed e g') failed) :
    Keeps inv failed (tryFinally x finalizer) result := by
  refine ⟨fun g start => ?_⟩
  refine (keeps.ends g start).tryFinally (fun a g' ⟨kept, here⟩ => ?_) lastFailed
  exact (last.ends g' kept).imp fun _ _ ⟨kept, _⟩ => ⟨kept, here⟩

end Keeps

end CBackend.Gen
