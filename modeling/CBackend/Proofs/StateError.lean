/-!
Runs of computations that carry a state and may fail: how a run that succeeds is taken apart.
-/

namespace CBackend

variable {ε σ α β : Type} {x : EStateM ε σ α} {s s' : σ} {f : α → Except ε β} {a : α} {e : ε}
  {b : β}

theorem bind_run {f : α → EStateM ε σ β} {s₁ : σ} (run : x s = .ok a s₁) :
    (x >>= f) s = f a s₁ := by
  change EStateM.bind x f s = _
  simp only [EStateM.bind, run]

theorem bind_eq_ok {f : α → EStateM ε σ β} :
    (x >>= f) s = .ok b s' ↔ ∃ a s₁, x s = .ok a s₁ ∧ f a s₁ = .ok b s' := by
  change EStateM.bind x f s = _ ↔ _
  unfold EStateM.bind
  cases x s with
  | ok a s₁ =>
    constructor
    · intro run
      exact ⟨a, s₁, rfl, run⟩
    · rintro ⟨_, _, ⟨⟩, run⟩
      exact run
  | error e s₁ => simp

theorem map_eq_ok {f : α → β} : (f <$> x) s = .ok b s' ↔ ∃ a, x s = .ok a s' ∧ f a = b := by
  change EStateM.map f x s = _ ↔ _
  unfold EStateM.map
  cases x s with
  | ok a s₁ =>
    constructor
    · rintro ⟨⟩
      exact ⟨a, rfl, rfl⟩
    · rintro ⟨_, ⟨⟩, rfl⟩
      rfl
  | error e s₁ => simp

theorem pure_eq_ok {b : α} : (pure a : EStateM ε σ α) s = .ok b s' ↔ a = b ∧ s = s' := by
  change EStateM.Result.ok a s = _ ↔ _
  simp

theorem throw_ne_ok : (throw e : EStateM ε σ α) s ≠ .ok a s' := by
  change EStateM.Result.error e s ≠ _
  simp

theorem get_eq_ok {a : σ} : (get : EStateM ε σ σ) s = .ok a s' ↔ s = a ∧ s = s' := by
  change EStateM.Result.ok s s = _ ↔ _
  simp

theorem modify_eq_ok {f : σ → σ} {u : PUnit} :
    (modify f : EStateM ε σ PUnit) s = .ok u s' ↔ f s = s' := by
  change EStateM.Result.ok PUnit.unit (f s) = _ ↔ _
  simp

theorem modifyGet_eq_ok {f : σ → α × σ} :
    (modifyGet f : EStateM ε σ α) s = .ok a s' ↔ f s = (a, s') := by
  change EStateM.modifyGet f s = _ ↔ _
  unfold EStateM.modifyGet
  split
  rename_i equal
  rw [equal]
  simp

theorem exists_of_run' (done : x.run' s = some a) : ∃ s', x s = .ok a s' := by
  unfold EStateM.run' EStateM.run at done
  cases run : x s with
  | ok b s' =>
    rw [run] at done
    cases done
    exact ⟨s', rfl⟩
  | error e s' =>
    rw [run] at done
    cases done

theorem tryFinally_eq_ok {finalizer : EStateM ε σ β} :
    (tryFinally x finalizer) s = .ok a s' ↔ ∃ b s₁, x s = .ok a s₁ ∧ finalizer s₁ = .ok b s' := by
  unfold tryFinally
  rw [map_eq_ok]
  simp only [tryFinally', Prod.exists, exists_and_right, exists_eq_right]
  cases x s with
  | ok c s₁ =>
    simp only [EStateM.Result.ok.injEq]
    constructor
    · rintro ⟨b, ran⟩
      cases run : finalizer s₁ with
      | ok b' s₂ =>
        simp only [run, EStateM.Result.ok.injEq, Prod.mk.injEq] at ran
        exact ⟨b', s₁, ⟨ran.1.1, rfl⟩, run.trans (by rw [ran.2])⟩
      | error e s₂ => simp [run] at ran
    · rintro ⟨b, _, ⟨rfl, rfl⟩, run⟩
      exact ⟨b, by simp [run]⟩
  | error e s₁ => cases run : finalizer s₁ <;> simp [run]

theorem except_bind_eq_ok {x : Except ε α} : (x >>= f) = .ok b ↔ ∃ a, x = .ok a ∧ f a = .ok b := by
  cases x with
  | ok a => simp [bind, Except.bind]
  | error e => simp [bind, Except.bind]

theorem except_bind_eq_error {x : Except ε α} (failed : (x >>= f) = .error e) :
    x = .error e ∨ ∃ a, f a = .error e := by
  cases x with
  | ok a => exact .inr ⟨a, failed⟩
  | error e' =>
    cases failed
    exact .inl rfl

theorem mapM_eq_ok {xs : List α} {ys : List β} (ok : xs.mapM f = .ok ys) :
    ys.length = xs.length ∧
      ∀ (i : Nat) (y : β), ys[i]? = some y → ∃ x, xs[i]? = some x ∧ f x = .ok y := by
  induction xs generalizing ys with
  | nil =>
    cases ok
    simp
  | cons x rest ih =>
    rw [List.mapM_cons] at ok
    obtain ⟨y, here, ok⟩ := except_bind_eq_ok.mp ok
    obtain ⟨later, there, ok⟩ := except_bind_eq_ok.mp ok
    cases ok
    obtain ⟨size, each⟩ := ih there
    refine ⟨by simp [size], fun i z found => ?_⟩
    cases i with
    | zero =>
      cases found
      exact ⟨x, rfl, here⟩
    | succ i => exact each i z found

theorem mapM_eq_error {xs : List α} (failed : xs.mapM f = .error e) : ∃ x ∈ xs, f x = .error e := by
  induction xs with
  | nil => cases failed
  | cons x rest ih =>
    rw [List.mapM_cons] at failed
    rcases except_bind_eq_error failed with here | ⟨y, failed⟩
    · exact ⟨x, List.mem_cons_self, here⟩
    · rcases except_bind_eq_error failed with later | ⟨ys, made⟩
      · obtain ⟨x', inside, failed⟩ := ih later
        exact ⟨x', List.mem_cons_of_mem _ inside, failed⟩
      · cases made

end CBackend
