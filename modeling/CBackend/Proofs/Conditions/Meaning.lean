import CBackend.Machine.Execute
import CBackend.Proofs.Lowering.Outline
import CBackend.Proofs.Semantics.Words

/-!
What conditions over integers and floating numbers mean. Comparisons are decided as the reference
machine decides them, so operands may be unordered, and of those only inequality holds. What the
other operators do, and what they do it to, is left open.
-/

namespace CBackend

namespace Cond

def orders : Cond → Bool
  | eq | ne => false
  | lt | le | gt | ge => true

theorem orders_negate (c : Cond) : c.negate.orders = c.orders := by
  cases c with
  | _ => rfl

theorem test_negate_iff (c : Cond) (o : Option Ordering) :
    c.negate.test o = (!c.test o) ↔ (o = none → c.orders = false) := by
  cases o with
  | none => cases c <;> decide
  | some o => simp [test, holds_negate]

end Cond

theorem Double.compare?_zero (d : Double) : d.compare? .zero = some .eq ↔ d.isZero = true := by
  have plain : Double.zero.isNaN = false := by decide
  have zero : Double.zero.rank = 0 := by decide
  rw [compare?, plain, Bool.or_false, zero, isZero, beq_iff_eq]
  by_cases nan : d.isNaN = true
  · have large : infinityMagnitude < d.magnitude := of_decide_eq_true nan
    have positive : d.magnitude ≠ 0 := Nat.ne_of_gt (Nat.lt_of_le_of_lt (Nat.zero_le _) large)
    simp [nan, positive]
  · rw [if_neg nan, Option.some_inj, compare_eq_iff_eq, rank]
    split <;> omega

theorem compareWords_eq_iff (c : ValueClass) (a b : Word) : compareWords c a b = .eq ↔ a = b := by
  unfold compareWords
  split
  · rw [compare_eq_iff_eq, BitVec.toNat_inj]
  · rw [compare_eq_iff_eq, BitVec.toInt_inj]

namespace Value

def ofBool (b : Bool) : Value := .int (if b then 1 else 0)

def order (c : ValueClass) (x y : Value) : Option Ordering :=
  if c.isFloat then x.toDouble.compare? y.toDouble else some (compareWords c x.toWord y.toWord)

def isTrue (c : ValueClass) (x : Value) : Bool :=
  if c.isFloat then !x.toDouble.isZero else x.toWord != 0

def readAt (c : ValueClass) (x : Value) : Value :=
  if c.isFloat then .float (x.toDouble.narrow c) else .int (x.toWord.extend c)

def IsZero (x : Value) : Prop := x.toWord = 0 ∧ x.toDouble = .zero

@[simp] theorem isTrue_ofBool (b : Bool) : (ofBool b).isTrue .i32 = b := by cases b <;> decide

@[simp] theorem readAt_ofBool (b : Bool) : (ofBool b).readAt .i32 = ofBool b := by
  cases b <;> decide

theorem order_zero {z : Value} (zero : z.IsZero) (c : ValueClass) (x : Value) :
    x.order c z = some .eq ↔ x.isTrue c = false := by
  unfold order isTrue
  split
  · rw [zero.2, Double.compare?_zero, Bool.not_eq_false']
  · rw [zero.1, Option.some_inj, compareWords_eq_iff, bne_eq_false_iff_eq]

theorem test_zero {z : Value} (zero : z.IsZero) (c : ValueClass) (x : Value) :
    Cond.eq.test (x.order c z) = (!x.isTrue c) ∧ Cond.ne.test (x.order c z) = x.isTrue c := by
  have equal := order_zero zero c x
  generalize x.order c z = o at equal
  cases o with
  | none =>
    have differs : x.isTrue c = true := by simpa using equal
    exact ⟨by rw [differs]; rfl, differs.symm⟩
  | some o =>
    cases o with
    | eq =>
      have same : x.isTrue c = false := equal.mp rfl
      exact ⟨by rw [same]; rfl, same.symm⟩
    | lt | gt =>
      have differs : x.isTrue c = true := by simpa using equal
      exact ⟨by rw [differs]; rfl, differs.symm⟩

end Value

namespace SymbolTable

def valueAt (t : SymbolTable) (c : ValueClass) (sym : Symbol) : Option Value :=
  match t.kind sym with
  | .intConst v => some (.int (Word.extend (.ofInt 64 v) c))
  | .floatConst d => some (.float d)
  | _ => none

def fits (t : SymbolTable) (ty : CType) (sym : Symbol) : Bool :=
  match t.kind sym with
  | .intConst v => ty.isInteger && ty.holds v
  | .floatConst _ => ty.isFloat
  | _ => false

theorem isTrue_valueAt {t : SymbolTable} {ty : CType} {sym : Symbol} (fits : t.fits ty sym = true) :
    ∃ x, t.valueAt ty.valueClass sym = some x ∧ x.isTrue ty.valueClass = t.isTrue sym := by
  unfold SymbolTable.fits at fits
  cases kind : t.kind sym with
  | intConst v =>
    simp only [kind, Bool.and_eq_true] at fits
    have plain : ty.valueClass.isFloat = false := by
      cases ty <;> first | rfl | cases fits.1
    have null := Word.ofInt_eq_zero fits.1 fits.2
    refine ⟨_, by rw [valueAt, kind], ?_⟩
    rw [Word.extend_ofInt fits.1 fits.2, Value.isTrue, plain, isTrue, kind, Bool.eq_iff_iff]
    simpa [Value.toWord] using not_congr null
  | floatConst d =>
    simp only [kind] at fits
    have floating : ty.valueClass.isFloat = true := by
      cases ty <;> first | rfl | cases fits
    refine ⟨_, by rw [valueAt, kind], ?_⟩
    simp [Value.isTrue, floating, isTrue, kind, Value.toDouble]
  | _ => simp [kind] at fits

end SymbolTable

/-- Why an evaluation has no value: an operator fails, or operands without an order are asked for
it. -/
inductive Mishap where
  | failed | unordered
  deriving DecidableEq

abbrev Evaluation (W : Type) := StateT W (Except Mishap)

/-- What operators other than comparisons do: a load, a store, a call or arithmetic has a value and
changes the world, and so do passing an argument, filling a variable with zeros and giving an
answer. -/
structure Workings (W : Type) where
  apply : LinNode → List Value → W → Option (Value × W)
  pass : CType → Value → W → Option W
  fill : (address : Value) → (bytes : Nat) → W → Option W
  answer : Option Value → W → Option W

namespace Evaluation

variable {W : Type}

def ofOption {α : Type} (step : W → Option (α × W)) : Evaluation W α := fun w =>
  match step w with
  | some r => .ok r
  | none => .error .failed

def judge (cond : Cond) (o : Option Ordering) : Evaluation W Bool := fun w =>
  if o = none ∧ cond.orders = true then .error .unordered else .ok (cond.test o, w)

def choose {α : Type} (test : Evaluation W Bool) (yes no : Evaluation W α) : Evaluation W α := do
  if ← test then yes else no

/-- An evaluation is as another one, or stops at operands without an order. -/
def Agrees {α : Type} (x y : Evaluation W α) : Prop := ∀ w, x w = .error .unordered ∨ x w = y w

namespace Agrees

variable {α β : Type} {x y : Evaluation W α}

theorem of_eq (same : x = y) : x.Agrees y := fun w => .inr (congrFun same w)

theorem bind_left (agrees : x.Agrees y) (k : α → Evaluation W β) : (x >>= k).Agrees (y >>= k) := by
  intro w
  change (x w >>= _) = _ ∨ (x w >>= _) = (y w >>= _)
  rcases agrees w with unordered | same
  · exact .inl (by rw [unordered]; rfl)
  · exact .inr (by rw [same])

theorem bind_right {k k' : α → Evaluation W β} (agrees : ∀ a, (k a).Agrees (k' a)) :
    (x >>= k).Agrees (x >>= k') := by
  intro w
  change (x w >>= fun r => k r.1 r.2) = _ ∨
    (x w >>= fun r => k r.1 r.2) = (x w >>= fun r => k' r.1 r.2)
  cases x w with
  | error => exact .inr rfl
  | ok r => exact agrees r.1 r.2

theorem judge (cond : Cond) (o : Option Ordering) :
    (Evaluation.judge cond o : Evaluation W Bool).Agrees (pure (cond.test o)) := by
  intro w
  unfold Evaluation.judge
  split
  · exact .inl rfl
  · exact .inr rfl

end Agrees

end Evaluation

namespace Workings

variable {W : Type} (σ : Workings W)

def perform (n : LinNode) (xs : List Value) : Evaluation W Value := .ofOption (σ.apply n xs)

def push (ty : CType) (x : Value) : Evaluation W Unit :=
  .ofOption fun w => (fun w' => ((), w')) <$> σ.pass ty x w

end Workings

def Expr.argsSize (args : List Expr) : Nat := (args.map fun e => roundToSlot e.ty.size).sum

/-- What an expression does where its value is wanted, where a branch depends on it, and where only
its effects are. -/
structure Reading (W : Type) where
  value : Evaluation W Value
  truth : Evaluation W Bool
  effect : Evaluation W Unit

def Reading.ofValue {W : Type} (c : ValueClass) (value : Evaluation W Value) : Reading W where
  value := value
  truth := do return (← value).isTrue c
  effect := do let _ ← value

section

variable {W : Type} (σ : Workings W) (t : SymbolTable)

mutual

/-- Reads an expression: operands are evaluated left to right, arguments last to first, then the
callee. -/
def Expr.reading : Expr → Reading W
  | .const tag sym => .ofValue tag.ty.valueClass <|
    .ofOption fun w => (fun x => (x, w)) <$> t.valueAt tag.ty.valueClass sym
  | .addr _ sym => .ofValue CType.pointer.valueClass <|
    σ.perform { op := .addr, ty := .pointer, sym := some sym } []
  | .deref tag a => .ofValue tag.ty.valueClass do
    σ.perform { op := .load, ty := tag.ty } [← a.reading.value]
  | .unary tag op x =>
    match op.arith? with
    | some o => .ofValue tag.ty.valueClass do
      σ.perform { op := o, ty := tag.ty } [← x.reading.value]
    | none =>
      let value := do return .ofBool !((← x.reading.value).isTrue x.linearType.valueClass)
      { Reading.ofValue .i32 value with truth := do return !(← x.reading.truth) }
  | .binary tag op a b =>
    match op with
    | .logAnd =>
      let truth := .choose a.reading.truth b.reading.truth (pure false)
      ⟨do return .ofBool (← truth), truth, .choose a.reading.truth b.reading.effect (pure ())⟩
    | .logOr =>
      let truth := .choose a.reading.truth (pure true) b.reading.truth
      ⟨do return .ofBool (← truth), truth, .choose a.reading.truth (pure ()) b.reading.effect⟩
    | op =>
      match op.cond?, op.arith? with
      | some c, _ =>
        let value := do
          let x ← a.reading.value
          let y ← b.reading.value
          return .ofBool (c.test (x.order a.linearType.valueClass y))
        { Reading.ofValue .i32 value with
          truth := do
            let x ← a.reading.value
            let y ← b.reading.value
            .judge c (x.order a.linearType.valueClass y) }
      | none, some o => .ofValue tag.ty.valueClass do
        σ.perform { op := o, ty := tag.ty } [← a.reading.value, ← b.reading.value]
      | none, none => .ofValue .void (throw .failed)
  | .assign tag a v =>
    let narrow := narrows tag.ty v.ty
    .ofValue (if narrow then tag.ty else v.linearType).valueClass do
      let x ← a.reading.value
      let y ← v.reading.value
      let _ ← σ.perform { op := .assign, ty := tag.ty } [x, y]
      if narrow then σ.perform { op := .cvt, ty := tag.ty } [y] else return y
  | .cond tag c a b =>
    let effect := .choose c.reading.truth a.reading.effect b.reading.effect
    let value := if tag.ty = .void then effect >>= fun _ => pure (.ofBool false)
      else .choose c.reading.truth a.reading.value b.reading.value >>= fun x =>
        pure (x.readAt tag.ty.valueClass)
    { Reading.ofValue (if tag.ty = .void then .int else tag.ty).valueClass value with effect }
  | .call tag callee args => .ofValue tag.ty.valueClass do
    Expr.passing args
    let x ← callee.reading.value
    σ.perform { op := .call, ty := tag.ty, aux := Expr.argsSize args } [x]
  | .cast tag x =>
    if tag.ty = .void ∨ x.ty.valueClass = tag.ty.valueClass then
      .ofValue x.linearType.valueClass x.reading.value
    else .ofValue tag.ty.valueClass do σ.perform { op := .cvt, ty := tag.ty } [← x.reading.value]
  | .comma _ a b =>
    ⟨a.reading.effect >>= fun _ => b.reading.value, a.reading.effect >>= fun _ => b.reading.truth,
      a.reading.effect >>= fun _ => b.reading.effect⟩

def Expr.passing : List Expr → Evaluation W Unit
  | [] => return
  | e :: es => do
    Expr.passing es
    σ.push e.linearType (← e.reading.value)

end

mutual

/-- A scalar expression: there are no structs in it, its constants are values of their types, and
its variables and functions have names of their own. -/
def Expr.scalar : Expr → Bool
  | .const tag sym => decide (sym.index < t.size) && t.fits tag.ty sym
  | .addr _ sym => decide (sym.index < t.size) && decide (t.kind sym ≠ .temp)
  | .deref tag x | .unary tag _ x | .cast tag x => !tag.ty.isStruct && x.scalar
  | .binary tag _ a b | .assign tag a b | .comma tag a b =>
    !tag.ty.isStruct && a.scalar && b.scalar
  | .cond tag c a b => !tag.ty.isStruct && c.scalar && a.scalar && b.scalar
  | .call tag callee args => !tag.ty.isStruct && callee.scalar && Expr.allScalar args

def Expr.allScalar : List Expr → Bool
  | [] => true
  | e :: es => e.scalar && Expr.allScalar es

end

variable {t} in
theorem Expr.allScalar_iff {es : List Expr} :
    Expr.allScalar t es = true ↔ ∀ e ∈ es, e.scalar t = true := by
  induction es with
  | nil => simp [Expr.allScalar]
  | cons e es ih => simp [Expr.allScalar, ih]

end

namespace Expr

variable {W : Type} {σ : Workings W} {t : SymbolTable} {tag : NodeTag} {op : BinaryOp}
  {a b c e : Expr}

theorem value_const {sym : Symbol} {x : Value} (value : t.valueAt tag.ty.valueClass sym = some x) :
    ((const tag sym).reading σ t).value = pure x := by
  funext w
  simp only [reading, Reading.ofValue, Evaluation.ofOption, value]
  rfl

theorem truth_const {sym : Symbol} {x : Value} (value : t.valueAt tag.ty.valueClass sym = some x) :
    ((const tag sym).reading σ t).truth = pure (x.isTrue tag.ty.valueClass) := by
  have plain : ((const tag sym).reading σ t).truth =
    (do return (← ((const tag sym).reading σ t).value).isTrue tag.ty.valueClass) := rfl
  rw [plain, value_const value, pure_bind]

theorem value_arith {o : Op} (arith : op.arith? = some o) :
    ((binary tag op a b).reading σ t).value = (do
      σ.perform { op := o, ty := tag.ty } [← (a.reading σ t).value, ← (b.reading σ t).value]) := by
  cases op <;> first | (obtain rfl := Option.some.inj arith; rfl) | cases arith

theorem value_relation {cond : Cond} (relation : op.cond? = some cond) :
    ((binary tag op a b).reading σ t).value = (do
      let x ← (a.reading σ t).value
      let y ← (b.reading σ t).value
      return .ofBool (cond.test (x.order a.linearType.valueClass y))) := by
  cases op <;> first | (obtain rfl := Option.some.inj relation; rfl) | cases relation

theorem truth_relation {cond : Cond} (relation : op.cond? = some cond) :
    ((binary tag op a b).reading σ t).truth = (do
      let x ← (a.reading σ t).value
      let y ← (b.reading σ t).value
      .judge cond (x.order a.linearType.valueClass y)) := by
  cases op <;> first | (obtain rfl := Option.some.inj relation; rfl) | cases relation

theorem value_logical (logical : op.isLogical = true) :
    ((binary tag op a b).reading σ t).value =
      (do return .ofBool (← ((binary tag op a b).reading σ t).truth)) := by
  cases op <;> first | rfl | cases logical

theorem truth_of_value (plain : e.truthByValue = true) :
    (e.reading σ t).truth =
      (do return (← (e.reading σ t).value).isTrue e.linearType.valueClass) := by
  cases e with
  | const | comma => cases plain
  | unary tag op x => cases op <;> first | rfl | cases plain
  | binary tag op a b => cases op <;> first | rfl | cases plain
  | cast tag x =>
    rw [reading, linearType]
    split <;> rfl
  | _ => rfl

theorem effect_of_value (plain : e.effectByValue = true) :
    (e.reading σ t).effect = (do let _ ← (e.reading σ t).value) := by
  cases e with
  | cond | comma => cases plain
  | unary tag op x => cases op <;> rfl
  | binary tag op a b => cases op <;> first | rfl | cases plain
  | cast tag x =>
    rw [reading]
    split <;> rfl
  | _ => rfl

theorem passing_append (xs ys : List Expr) :
    passing σ t (xs ++ ys) = passing σ t ys >>= fun _ => passing σ t xs := by
  induction xs with
  | nil => simp [passing]
  | cons x xs ih => simp [passing, ih]

theorem truth_agrees : (e : Expr) → (e.reading σ t).truth.Agrees
    (do return (← (e.reading σ t).value).isTrue e.linearType.valueClass)
  | unary tag op x => by
    cases op with
    | not =>
      have operand := (truth_agrees x).bind_left fun b => pure !b
      simpa [reading, UnaryOp.arith?, Reading.ofValue, linearType, CType.valueClass] using operand
    | _ => exact .of_eq (truth_of_value rfl)
  | binary tag op a b => by
    by_cases arith : op.arith?.isSome = true
    · exact .of_eq (truth_of_value arith)
    have int : (binary tag op a b).linearType.valueClass = .i32 := by
      rw [linearType, if_neg arith]
      rfl
    rw [int]
    by_cases logical : op.isLogical = true
    · rw [value_logical logical]
      exact .of_eq (by simp)
    · obtain ⟨cond, relation⟩ : ∃ cond, op.cond? = some cond := by
        cases op <;> simp_all [BinaryOp.arith?, BinaryOp.isLogical, BinaryOp.cond?]
      rw [truth_relation relation, value_relation relation]
      simp only [bind_assoc, pure_bind, Value.isTrue_ofBool]
      exact .bind_right fun x => .bind_right fun y => .judge cond _
  | comma tag a b => by
    have last := truth_agrees b
    simp only [reading, linearType, bind_assoc]
    exact .bind_right fun _ => last
  | const .. => .of_eq rfl
  | addr .. | deref .. | assign .. | cond .. | call .. | cast .. => .of_eq (truth_of_value rfl)

end Expr

end CBackend
