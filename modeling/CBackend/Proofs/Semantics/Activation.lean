import CBackend.Proofs.Conditions.Meaning
import CBackend.Proofs.Semantics.Typing

/-!
What the machine of linear code works on when it runs a function over integers: the memory, the calls
and the arithmetic that the meaning of trees is made of, with the arguments pushed for calls. An
action of trees is an evaluation in these workings, and so is each operator.
-/

namespace CBackend

/-- What a function acts on while it runs: the world, the arguments pushed for calls and what it
answers. -/
structure Activation (M : Type) where
  world : World M
  stack : List (Nat × Word)
  result : Option Word

def takeArgs : (bytes : Nat) → List (Nat × Word) → Option (List Word × List (Nat × Word))
  | 0, stack => some ([], stack)
  | _ + 1, [] => none
  | bytes + 1, (size, w) :: stack =>
    if size ≤ bytes + 1 then
      (fun r => (w :: r.1, r.2)) <$> takeArgs (bytes + 1 - size) stack
    else none

section

variable {M α : Type} (a : Activation M)

def Activation.perform (act : Action M α) : Option (α × Activation M) :=
  match act a.world with
  | .ok (x, world) => some (x, { a with world })
  | .error _ => none

def Activation.number (act : Action M Word) : Option (Value × Activation M) :=
  a.perform (do return .int (← act))

/-- The workings of a setting: an argument is pushed, and a call takes as many as it has bytes
for. -/
def Setting.workings (σ : Setting M) : Workings (Activation M) where
  apply n xs a :=
    match n.op, n.sym, xs.map Value.toWord with
    | .addr, some sym, [] => a.number (return σ.address sym)
    | .load, _, [p] => a.number (σ.read n.ty p)
    | .assign, _, [p, x] => a.number (do σ.write n.ty p x; return x)
    | .call, _, [callee] => do
      let (args, stack) ← takeArgs n.aux.toNat a.stack
      { a with stack }.number (σ.invoke n.ty ⟨callee, args⟩)
    | op, _, [x] => a.number (.ofOption (op.word₁ n.ty.valueClass x))
    | op, _, [x, y] => a.number (.ofOption (op.word₂ n.ty.valueClass x y))
    | _, _, _ => none
  pass ty x a := some { a with stack := (roundToSlot ty.size, x.toWord) :: a.stack }
  fill p bytes a := Prod.snd <$> a.perform (σ.fill p.toWord bytes)
  answer x a := some { a with result := Value.toWord <$> x }

def Action.within (act : Action M α) : Evaluation (Activation M) α := .ofOption (·.perform act)

def Activation.push (pushed : List (Nat × Word)) : Evaluation (Activation M) Unit :=
  modify fun a => { a with stack := pushed ++ a.stack }

end

namespace Action

variable {M α β : Type} {act : Action M α}

@[simp] theorem within_pure (x : α) : (pure x : Action M α).within = pure x := rfl

@[simp] theorem within_bind (act : Action M α) (f : α → Action M β) :
    (act >>= f).within = act.within >>= fun x => (f x).within := by
  funext a
  change _ = act.within a >>= fun r => (f r.1).within r.2
  simp only [within, Evaluation.ofOption, Activation.perform, bind_apply]
  cases act a.world with
  | ok r => rfl
  | error e => rfl

@[simp] theorem within_map (f : α → β) (act : Action M α) :
    (f <$> act).within = f <$> act.within := by
  rw [map_eq_pure_bind, within_bind, map_eq_pure_bind]
  rfl

theorem within_congr {k k' : α → Evaluation (Activation M) β}
    (same : ∀ {w w' : World M} {x : α}, act w = .ok (x, w') → k x = k' x) :
    act.within >>= k = act.within >>= k' := by
  funext a
  change (act.within a >>= fun r => k r.1 r.2) = act.within a >>= fun r => k' r.1 r.2
  simp only [within, Evaluation.ofOption, Activation.perform]
  cases outcome : act a.world with
  | ok r => exact congrFun (same outcome) _
  | error e => rfl

theorem push_within (pushed : List (Nat × Word)) (k : α → Evaluation (Activation M) β) :
    (Activation.push pushed >>= fun _ => act.within >>= k) =
      act.within >>= fun x => Activation.push pushed >>= fun _ => k x := by
  funext a
  change ((act.within { a with stack := pushed ++ a.stack }) >>= fun r => k r.1 r.2) =
    act.within a >>= fun r => k r.1 { r.2 with stack := pushed ++ r.2.stack }
  simp only [within, Evaluation.ofOption, Activation.perform]
  cases act a.world with
  | ok r => rfl
  | error e => rfl

end Action

theorem Activation.push_push {M : Type} (xs ys : List (Nat × Word)) :
    (Activation.push xs >>= fun _ => Activation.push ys : Evaluation (Activation M) Unit) =
      Activation.push (ys ++ xs) := by
  funext a
  change Except.ok _ = Except.ok _
  simp

theorem takeArgs_append {pushed : List (Nat × Word)} (stack : List (Nat × Word))
    (sizes : ∀ x ∈ pushed, 0 < x.1) :
    takeArgs (pushed.map Prod.fst).sum (pushed ++ stack) =
      some (pushed.map Prod.snd, stack) := by
  induction pushed with
  | nil => simp [takeArgs]
  | cons x rest ih =>
    obtain ⟨size, w⟩ := x
    have some_ : 0 < size := sizes _ List.mem_cons_self
    obtain ⟨bytes, total⟩ : ∃ bytes, size + (rest.map Prod.fst).sum = bytes + 1 :=
      ⟨size + (rest.map Prod.fst).sum - 1, by omega⟩
    have left : bytes + 1 - size = (rest.map Prod.fst).sum := by omega
    simp only [List.map_cons, List.sum_cons, total, List.cons_append, takeArgs,
      if_pos (show size ≤ bytes + 1 by omega), left,
      ih fun x inside => sizes x (List.mem_cons_of_mem _ inside)]
    rfl

theorem CType.ne_void_of_isInteger {ty : CType} (integer : ty.isInteger = true) : ty ≠ .void := by
  rintro rfl
  cases integer

theorem CType.isFloat_of_isInteger {ty : CType} (integer : ty.isInteger = true) :
    ty.valueClass.isFloat = false := by
  cases ty <;> first | rfl | cases integer

theorem CType.slot_pos (ty : CType) : 0 < roundToSlot ty.size := by
  cases ty <;> simp [roundToSlot, CType.size]

theorem BinaryOp.word₂_eq {op : BinaryOp} {o : Op} (arith : op.arith? = some o) :
    o.word₂ = op.word := by
  funext c a b
  cases op <;> first | (obtain rfl := Option.some.inj arith; rfl) | cases arith

theorem BinaryOp.relates_eq {op : BinaryOp} {cond : Cond} (relation : op.cond? = some cond)
    (c : ValueClass) (a b : Word) : op.relates c a b = cond.holds (compareWords c a b) := by
  cases op <;> first | (obtain rfl := Option.some.inj relation; rfl) | cases relation

namespace Setting

variable {M : Type} {σ : Setting M} {ty : CType} {o : Op}

theorem perform_number {n : LinNode} {xs : List Value} (act : Action M Word)
    (applied : ∀ a, σ.workings.apply n xs a = a.number act) :
    σ.workings.perform n xs = act.within >>= fun x => pure (.int x) := by
  have same : σ.workings.perform n xs = (act >>= fun x => pure (.int x)).within :=
    congrArg Evaluation.ofOption (funext applied)
  exact same.trans (Action.within_bind _ _)

@[simp] theorem perform_addr (sym : Symbol) :
    σ.workings.perform { op := .addr, ty := .pointer, sym := some sym } [] =
      pure (.int (σ.address sym)) := by
  rw [perform_number (pure (σ.address sym)) fun _ => rfl, Action.within_pure, pure_bind]

@[simp] theorem perform_load (p : Value) : σ.workings.perform { op := .load, ty } [p] =
    (σ.read ty p.toWord).within >>= fun x => pure (.int x) :=
  perform_number _ fun _ => rfl

@[simp] theorem perform_assign (p x : Value) : σ.workings.perform { op := .assign, ty } [p, x] =
    (σ.write ty p.toWord x.toWord).within >>= fun _ => pure (.int x.toWord) := by
  rw [perform_number _ fun _ => rfl]
  simp

@[simp] theorem perform_cvt (x : Value) : σ.workings.perform { op := .cvt, ty } [x] =
    pure (.int (x.toWord.extend ty.valueClass)) := by
  rw [perform_number (pure _) fun _ => rfl]
  simp

theorem perform_unary {op : UnaryOp} (arith : op.arith? = some o) (x : Value) :
    σ.workings.perform { op := o, ty } [x] = pure (.int (op.word ty.valueClass x.toWord)) := by
  have applied : ∀ a, σ.workings.apply { op := o, ty } [x] a =
      a.number (pure (op.word ty.valueClass x.toWord)) := by
    intro a
    cases op <;> first | (obtain rfl := Option.some.inj arith; rfl) | cases arith
  rw [perform_number _ applied]
  simp

theorem perform_binary {op : BinaryOp} (arith : op.arith? = some o) (x y : Value) :
    σ.workings.perform { op := o, ty } [x, y] =
      (Action.ofOption (op.word ty.valueClass x.toWord y.toWord)).within >>= fun x =>
        pure (.int x) := by
  refine perform_number _ fun a => ?_
  rw [← BinaryOp.word₂_eq arith]
  cases op <;> first | (obtain rfl := Option.some.inj arith; rfl) | cases arith

theorem perform_call (σ : Setting M) (ty : CType) {pushed : List (Nat × Word)}
    (sizes : ∀ x ∈ pushed, 0 < x.1) (callee : Value) :
    (Activation.push pushed >>= fun _ => σ.workings.perform
      { op := .call, ty, aux := ((pushed.map Prod.fst).sum : Nat) } [callee]) =
      (σ.invoke ty ⟨callee.toWord, pushed.map Prod.snd⟩).within >>= fun x => pure (.int x) := by
  have same : (Activation.push pushed >>= fun _ => σ.workings.perform
      { op := .call, ty, aux := ((pushed.map Prod.fst).sum : Nat) } [callee]) =
      (σ.invoke ty ⟨callee.toWord, pushed.map Prod.snd⟩ >>= fun x => pure (.int x)).within := by
    funext a
    have taken := takeArgs_append a.stack sizes
    change Evaluation.ofOption (fun a : Activation M => do
      let (args, stack) ← takeArgs (((pushed.map Prod.fst).sum : Nat) : Int).toNat a.stack
      { a with stack }.number (σ.invoke ty ⟨callee.toWord, args⟩))
      { a with stack := pushed ++ a.stack } = _
    simp only [Evaluation.ofOption, Int.toNat_natCast, taken]
    rfl
  exact same.trans (Action.within_bind _ _)

end Setting

end CBackend
