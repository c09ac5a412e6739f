import CBackend.Proofs.Semantics.Activation

/-!
Expressions over integers mean to the machine what they mean as trees: the reading of an expression
is its evaluation, for its value, for its effects and as a condition.
-/

namespace CBackend

/-- An expression is read as it is evaluated. -/
structure Expr.Reads {M : Type} (σ : Setting M) (t : SymbolTable) (e : Expr) : Prop where
  value : e.ty ≠ .void → (e.reading σ.workings t).value =
    (e.eval σ t).within >>= fun x => pure (.int x)
  dropped : ((e.reading σ.workings t).value >>= fun _ => pure ()) =
    (e.eval σ t).within >>= fun _ => pure ()
  effect : (e.reading σ.workings t).effect = (e.eval σ t).within >>= fun _ => pure ()
  truth : e.ty.isInteger = true → (e.reading σ.workings t).truth =
    (e.eval σ t).within >>= fun x => pure (x != 0)

section

variable {M : Type} {σ : Setting M} {t : SymbolTable}

theorem Expr.linearType_alike : (e : Expr) → e.typed t = true → e.ty ≠ .void →
    e.linearType.valueClass = e.ty.valueClass
  | .const .., _, _ | .deref .., _, _ | .call .., _, _ => rfl
  | .addr tag sym, typed, _ => by
    simp only [Expr.typed, Bool.and_eq_true, decide_eq_true_eq] at typed
    simp [linearType, Expr.ty, Expr.tag, typed.1]
  | .unary tag op x, typed, _ => by
    simp only [Expr.typed, Bool.and_eq_true] at typed
    rw [linearType]
    split
    · simp_all [Expr.ty, Expr.tag]
    · rfl
  | .binary tag op a b, typed, _ => by
    simp only [Expr.typed, Bool.and_eq_true] at typed
    rw [linearType]
    split
    · rfl
    · cases op <;> simp_all [Expr.ty, Expr.tag, BinaryOp.arith?, BinaryOp.isRelational,
        BinaryOp.cond?, BinaryOp.isLogical]
  | .assign tag a v, typed, valued => by
    simp only [Expr.typed, Bool.and_eq_true, Bool.or_eq_true, CType.alike,
      decide_eq_true_eq] at typed
    rw [linearType]
    split
    · rfl
    · have alike := typed.2.resolve_right ‹_›
      exact (v.linearType_alike typed.1.2 (CType.ne_void_of_alike alike valued)).trans alike
  | .cond tag c a b, _, valued => congrArg CType.valueClass (if_neg valued)
  | .cast tag x, typed, valued => by
    simp only [Expr.typed, Bool.and_eq_true] at typed
    rw [linearType]
    split
    · have alike := Or.resolve_left ‹_› valued
      exact (x.linearType_alike typed.1 (CType.ne_void_of_alike alike valued)).trans alike
    · rfl
  | .comma tag a b, typed, valued => by
    simp only [Expr.typed, Bool.and_eq_true, CType.alike, decide_eq_true_eq] at typed
    exact (b.linearType_alike typed.1.2 (CType.ne_void_of_alike typed.2 valued)).trans typed.2

theorem Expr.isTrue_int {e : Expr} (typed : e.typed t = true) (integer : e.ty.isInteger = true)
    (x : Word) : (Value.int x).isTrue e.linearType.valueClass = (x != 0) := by
  rw [e.linearType_alike typed (CType.ne_void_of_isInteger integer), Value.isTrue,
    CType.isFloat_of_isInteger integer]
  rfl

theorem Expr.Reads.of_value {e : Expr} (typed : e.typed t = true)
    (value : (e.reading σ.workings t).value = (e.eval σ t).within >>= fun x => pure (.int x))
    (effect : (e.reading σ.workings t).effect =
      (do let _ ← (e.reading σ.workings t).value))
    (truth : (e.reading σ.workings t).truth =
      (do return (← (e.reading σ.workings t).value).isTrue e.linearType.valueClass)) :
    e.Reads σ t where
  value _ := value
  dropped := by simp [value]
  effect := by simp [effect, value]
  truth integer := by simp [truth, value, isTrue_int typed integer]

theorem Expr.Reads.of_truth {e : Expr} (test : Evaluation (Activation M) Bool)
    (whole : (e.eval σ t).within = test >>= fun b => pure (Word.ofBool b))
    (value : (e.reading σ.workings t).value = test >>= fun b => pure (.ofBool b))
    (effect : (e.reading σ.workings t).effect = (e.eval σ t).within >>= fun _ => pure ())
    (truth : (e.reading σ.workings t).truth = test) : e.Reads σ t where
  value _ := by
    rw [value, whole, bind_assoc]
    simp only [pure_bind]
    rfl
  dropped := by simp [value, whole]
  effect := effect
  truth _ := by
    have back (b : Bool) : (Word.ofBool b != 0) = b := by cases b <;> decide
    rw [truth, whole, bind_assoc]
    simp only [pure_bind, back, bind_pure]

namespace Expr

variable {tag : NodeTag} {a b c x v : Expr} {op : BinaryOp}

theorem reads_const {sym : Symbol} (typed : (const tag sym).typed t = true) :
    (const tag sym).Reads σ t := by
  refine .of_value typed ?_ rfl rfl
  simp only [Expr.typed] at typed
  split at typed
  · rename_i v kind
    simp only [Bool.and_eq_true] at typed
    have found : t.valueAt tag.ty.valueClass sym = some (.int (.ofInt 64 v)) := by
      simp only [SymbolTable.valueAt, kind, Word.extend_ofInt typed.1.1 typed.1.2]
    have constant : t.constant? sym = some (.ofInt 64 v) := by rw [SymbolTable.constant?, kind]
    rw [value_const found, eval, constant]
    rfl
  · cases typed

theorem reads_deref (address : a.Reads σ t) (typed : (deref tag a).typed t = true) :
    (deref tag a).Reads σ t := by
  refine .of_value typed ?_ rfl rfl
  simp only [Expr.typed, Bool.and_eq_true] at typed
  simp [reading, Reading.ofValue, eval, address.value (CType.ne_void_of_isInteger typed.1.2),
    Value.toWord]

theorem reads_unary {op : UnaryOp} (operand : x.Reads σ t)
    (typed : (unary tag op x).typed t = true) : (unary tag op x).Reads σ t := by
  have parts := typed
  simp only [Expr.typed, Bool.and_eq_true] at parts
  obtain ⟨⟨-, integer⟩, typedX⟩ := parts
  have value := operand.value (CType.ne_void_of_isInteger integer)
  cases arith : op.arith? with
  | some o =>
    refine .of_value typed ?_ (effect_of_value rfl) (truth_of_value ?_)
    · simp [reading, arith, Reading.ofValue, eval, value, Setting.perform_unary arith, Value.toWord]
    · cases op <;> first | rfl | cases arith
  | none =>
    obtain rfl : op = .not := by cases op <;> first | rfl | cases arith
    refine .of_truth ((x.eval σ t).within >>= fun y => pure (y == 0)) ?_ ?_ ?_ ?_
    · simp [eval, UnaryOp.word]
    · simp [reading, UnaryOp.arith?, Reading.ofValue, value, isTrue_int typedX integer, bne]
    · simp [reading, UnaryOp.arith?, Reading.ofValue, value, eval]
    · simp [reading, UnaryOp.arith?, operand.truth integer, bne]

theorem reads_arith {o : Op} (arith : op.arith? = some o) (left : a.Reads σ t)
    (right : b.Reads σ t) (typed : (binary tag op a b).typed t = true) :
    (binary tag op a b).Reads σ t := by
  have plain : (binary tag op a b).truthByValue = true ∧
      (binary tag op a b).effectByValue = true := by
    cases op <;> first | exact ⟨rfl, rfl⟩ | cases arith
  refine .of_value typed ?_ (effect_of_value plain.2) (truth_of_value plain.1)
  simp only [Expr.typed, Bool.and_eq_true] at typed
  obtain ⟨⟨⟨⟨-, integerA⟩, -⟩, integerB⟩, -⟩ := typed
  simp [value_arith arith, eval_arith arith, left.value (CType.ne_void_of_isInteger integerA),
    right.value (CType.ne_void_of_isInteger integerB), Setting.perform_binary arith, Value.toWord]

theorem reads_relation {cond : Cond} (relation : op.cond? = some cond) (left : a.Reads σ t)
    (right : b.Reads σ t) (typed : (binary tag op a b).typed t = true) :
    (binary tag op a b).Reads σ t := by
  simp only [Expr.typed, Bool.and_eq_true] at typed
  obtain ⟨⟨⟨⟨-, integerA⟩, typedA⟩, integerB⟩, -⟩ := typed
  have valuedA := CType.ne_void_of_isInteger integerA
  have ordered (x y : Word) : (Value.int x).order a.linearType.valueClass (.int y) =
      some (compareWords a.ty.valueClass x y) := by
    rw [a.linearType_alike typedA valuedA, Value.order, CType.isFloat_of_isInteger integerA]
    rfl
  have valueA := left.value valuedA
  have valueB := right.value (CType.ne_void_of_isInteger integerB)
  refine .of_truth ((a.eval σ t).within >>= fun x => (b.eval σ t).within >>= fun y =>
    pure (op.relates a.ty.valueClass x y)) ?_ ?_ ?_ ?_
  · simp [eval_relation relation]
  · simp [value_relation relation, valueA, valueB, ordered, BinaryOp.relates_eq relation, Cond.test]
  · have plain : (binary tag op a b).effectByValue = true := by
      cases op <;> first | rfl | cases relation
    simp [effect_of_value plain, value_relation relation, eval_relation relation, valueA, valueB]
  · have decided (o : Ordering) : (Evaluation.judge cond (some o) : Evaluation (Activation M) Bool) =
        pure (cond.holds o) := by
      funext w
      simp [Evaluation.judge, Cond.test, pure, StateT.pure, Except.pure]
    simp [truth_relation relation, valueA, valueB, ordered, decided, BinaryOp.relates_eq relation]

theorem reads_logical (logical : op.isLogical = true) (left : a.Reads σ t) (right : b.Reads σ t)
    (typed : (binary tag op a b).typed t = true) : (binary tag op a b).Reads σ t := by
  simp only [Expr.typed, Bool.and_eq_true] at typed
  obtain ⟨⟨⟨⟨-, integerA⟩, -⟩, integerB⟩, -⟩ := typed
  refine .of_truth _ ?_ (value_logical logical) ?_ rfl
  all_goals
    cases op <;> cases logical
    all_goals
      simp only [eval, reading, Evaluation.choose, left.truth integerA, right.truth integerB,
        right.effect, Action.within_bind, bind_assoc, pure_bind]
      refine bind_congr fun x => ?_
      by_cases zero : x = 0#64 <;> simp [zero]

theorem reads_assign (address : a.Reads σ t) (value : v.Reads σ t)
    (typed : (assign tag a v).typed t = true) : (assign tag a v).Reads σ t := by
  refine .of_value typed ?_ rfl (truth_of_value rfl)
  simp only [Expr.typed, Bool.and_eq_true, Bool.or_eq_true, CType.alike,
    decide_eq_true_eq] at typed
  obtain ⟨⟨⟨⟨⟨-, integerA⟩, -⟩, integerV⟩, typedV⟩, fits⟩ := typed
  have valued := CType.ne_void_of_isInteger integerV
  simp only [reading, Reading.ofValue, eval, address.value (CType.ne_void_of_isInteger integerA),
    value.value valued, Action.within_bind, bind_assoc, pure_bind, Setting.perform_assign,
    Setting.perform_cvt, Value.toWord, Action.within_pure]
  refine bind_congr fun p => Action.within_congr fun ok => bind_congr fun _ => ?_
  split
  · rfl
  · have normal := v.eval_normal typedV valued ok
    rw [← fits.resolve_right ‹_›, normal]

theorem value_readAt {ty : CType} (arm : a.Reads σ t) (typed : a.typed t = true)
    (integer : ty.isInteger = true) (alike : a.ty.valueClass = ty.valueClass) :
    ((a.reading σ.workings t).value >>= fun x => pure (x.readAt ty.valueClass)) =
      (a.eval σ t).within >>= fun x => pure (.int x) := by
  have valued := CType.ne_void_of_alike alike (CType.ne_void_of_isInteger integer)
  rw [arm.value valued, bind_assoc]
  refine Action.within_congr fun ok => ?_
  have normal := a.eval_normal typed valued ok
  rw [alike] at normal
  simp [Value.readAt, CType.isFloat_of_isInteger integer, Value.toWord, normal]

theorem reads_cond (test : c.Reads σ t) (arm : a.Reads σ t) (other : b.Reads σ t)
    (typed : (cond tag c a b).typed t = true) : (cond tag c a b).Reads σ t := by
  have parts := typed
  simp only [Expr.typed, Bool.and_eq_true, Bool.or_eq_true, decide_eq_true_eq, CType.alike] at parts
  obtain ⟨⟨⟨⟨integer, -⟩, typedA⟩, typedB⟩, shape⟩ := parts
  have effect : ((cond tag c a b).reading σ.workings t).effect =
      ((cond tag c a b).eval σ t).within >>= fun _ => pure () := by
    simp only [reading, Evaluation.choose, eval, test.truth integer, arm.effect, other.effect,
      Action.within_bind, bind_assoc, pure_bind]
    refine bind_congr fun x => ?_
    by_cases zero : x = 0#64 <;> simp [zero]
  rcases shape with void | ⟨⟨plain, left⟩, right⟩
  · refine ⟨fun valued => absurd void valued, ?_, effect, fun integer => ?_⟩
    · rw [← effect]
      simp [reading, Reading.ofValue, void]
    · exact absurd void (CType.ne_void_of_isInteger integer)
  · have valued := CType.ne_void_of_isInteger plain
    have value : ((cond tag c a b).reading σ.workings t).value =
        ((cond tag c a b).eval σ t).within >>= fun x => pure (.int x) := by
      simp only [reading, Reading.ofValue, if_neg valued, Evaluation.choose, eval,
        test.truth integer, Action.within_bind, bind_assoc, pure_bind]
      refine bind_congr fun x => ?_
      by_cases zero : x = 0#64
      · simpa [zero] using value_readAt other typedB plain right
      · simpa [zero] using value_readAt arm typedA plain left
    refine ⟨fun _ => value, by simp [value], effect, fun integer => ?_⟩
    simp [truth_of_value (e := cond tag c a b) rfl, value, isTrue_int typed integer]

theorem reads_cast (operand : x.Reads σ t) (typed : (cast tag x).typed t = true) :
    (cast tag x).Reads σ t := by
  have parts := typed
  simp only [Expr.typed, Bool.and_eq_true, Bool.or_eq_true, decide_eq_true_eq] at parts
  obtain ⟨typedX, void | ⟨plain, integer⟩⟩ := parts
  · have dropped : (((cast tag x).reading σ.workings t).value >>= fun _ => pure ()) =
        ((cast tag x).eval σ t).within >>= fun _ => pure () := by
      simpa [reading, Reading.ofValue, void, eval] using operand.dropped
    refine ⟨fun valued => absurd void valued, dropped, ?_, fun integer => ?_⟩
    · rw [effect_of_value rfl, dropped]
    · exact absurd void (CType.ne_void_of_isInteger integer)
  · have valued := CType.ne_void_of_isInteger integer
    refine .of_value typed ?_ (effect_of_value rfl) (truth_of_value rfl)
    simp only [reading, eval, Action.within_bind, bind_assoc, Action.within_pure, pure_bind]
    split
    · have alike := Or.resolve_left ‹_› (CType.ne_void_of_isInteger plain)
      rw [Reading.ofValue, operand.value valued]
      refine Action.within_congr fun ok => ?_
      rw [← alike, x.eval_normal typedX valued ok]
    · simp [Reading.ofValue, operand.value valued, Value.toWord]

theorem reads_comma (first : a.Reads σ t) (second : b.Reads σ t)
    (typed : (comma tag a b).typed t = true) : (comma tag a b).Reads σ t := by
  simp only [Expr.typed, Bool.and_eq_true, CType.alike, decide_eq_true_eq] at typed
  refine ⟨fun valued => ?_, ?_, ?_, fun integer => ?_⟩
  · have value := second.value (CType.ne_void_of_alike typed.2 valued)
    simp [reading, eval, first.effect, value]
  · simp only [reading, eval, first.effect, bind_assoc, pure_bind, second.dropped,
      Action.within_bind]
  · simp [reading, eval, first.effect, second.effect]
  · have truth := second.truth ((CType.isInteger_of_alike typed.2).mpr integer)
    simp [reading, eval, first.effect, truth]

def slots (es : List Expr) (xs : List Word) : List (Nat × Word) :=
  (es.map fun e => roundToSlot e.ty.size).zip xs

theorem length_evalArgs {es : List Expr} {w w' : World M} {xs : List Word}
    (ok : evalArgs σ t es w = .ok (xs, w')) : xs.length = es.length := by
  induction es generalizing w w' xs with
  | nil =>
    obtain ⟨rfl, -⟩ := Prod.mk.inj (Action.pure_eq_ok.mp ok)
    rfl
  | cons e es ih =>
    obtain ⟨ys, _, rest, ok⟩ := Action.bind_eq_ok.mp ok
    obtain ⟨y, _, -, ok⟩ := Action.bind_eq_ok.mp ok
    obtain ⟨rfl, -⟩ := Prod.mk.inj (Action.pure_eq_ok.mp ok)
    simp [ih rest]

theorem reads_call {callee : Expr} {args : List Expr} (target : callee.Reads σ t)
    (pushed : passing σ.workings t args = (evalArgs σ t args).within >>= fun xs =>
      Activation.push (slots args xs)) (typed : (call tag callee args).typed t = true) :
    (call tag callee args).Reads σ t := by
  refine .of_value typed ?_ rfl rfl
  simp only [Expr.typed, Bool.and_eq_true] at typed
  obtain ⟨⟨⟨-, integer⟩, -⟩, -⟩ := typed
  simp only [reading, Reading.ofValue, eval, pushed, target.value (CType.ne_void_of_isInteger
    integer), bind_assoc, pure_bind, Action.push_within, Action.within_bind]
  refine Action.within_congr fun ok => bind_congr fun f => ?_
  rename_i xs
  have length := length_evalArgs ok
  have first : (slots args xs).map Prod.fst = args.map fun e => roundToSlot e.ty.size :=
    List.map_fst_zip (by simp [length])
  have second : (slots args xs).map Prod.snd = xs := List.map_snd_zip (by simp [length])
  have sizes : ∀ x ∈ slots args xs, 0 < x.1 := by
    intro x inside
    have member := List.mem_map_of_mem (f := Prod.fst) inside
    rw [first] at member
    obtain ⟨e, -, size⟩ := List.mem_map.mp member
    exact size ▸ e.ty.slot_pos
  have called := Setting.perform_call σ tag.ty sizes (.int f)
  rwa [first, second] at called

mutual

theorem reads : (e : Expr) → e.typed t = true → e.Reads σ t
  | const .., typed => reads_const typed
  | addr tag sym, typed => .of_value typed (by simp [reading, Reading.ofValue, eval]) rfl rfl
  | deref tag a, typed =>
    reads_deref (a.reads (by simp only [Expr.typed, Bool.and_eq_true] at typed; exact typed.2)) typed
  | unary tag op x, typed =>
    reads_unary (x.reads (by simp only [Expr.typed, Bool.and_eq_true] at typed; exact typed.2)) typed
  | binary tag op a b, typed => by
    have parts := typed
    simp only [Expr.typed, Bool.and_eq_true] at parts
    have left := a.reads parts.1.1.2
    have right := b.reads parts.2
    rcases op.cases with ⟨o, arith⟩ | ⟨c, relation⟩ | rfl | rfl
    · exact reads_arith arith left right typed
    · exact reads_relation relation left right typed
    · exact reads_logical rfl left right typed
    · exact reads_logical rfl left right typed
  | assign tag a v, typed => by
    have parts := typed
    simp only [Expr.typed, Bool.and_eq_true] at parts
    exact reads_assign (a.reads parts.1.1.1.2) (v.reads parts.1.2) typed
  | cond tag c a b, typed => by
    have parts := typed
    simp only [Expr.typed, Bool.and_eq_true] at parts
    exact reads_cond (c.reads parts.1.1.1.2) (a.reads parts.1.1.2) (b.reads parts.1.2) typed
  | call tag callee args, typed => by
    have parts := typed
    simp only [Expr.typed, Bool.and_eq_true] at parts
    exact reads_call (callee.reads parts.1.2) (passing_reads args parts.2) typed
  | cast tag x, typed => by
    have parts := typed
    simp only [Expr.typed, Bool.and_eq_true] at parts
    exact reads_cast (x.reads parts.1) typed
  | comma tag a b, typed => by
    have parts := typed
    simp only [Expr.typed, Bool.and_eq_true] at parts
    exact reads_comma (a.reads parts.1.1) (b.reads parts.1.2) typed

theorem passing_reads : (es : List Expr) → typedArgs t es = true →
    passing σ.workings t es = (evalArgs σ t es).within >>= fun xs => Activation.push (slots es xs)
  | [], _ => rfl
  | e :: es, typed => by
    simp only [typedArgs, Bool.and_eq_true] at typed
    obtain ⟨⟨integer, typedE⟩, rest⟩ := typed
    have valued := CType.ne_void_of_isInteger integer
    have size := CType.size_of_alike (e.linearType_alike typedE valued) integer
    have pushes (x : Word) : σ.workings.push e.linearType (.int x) =
        Activation.push [(roundToSlot e.ty.size, x)] := by
      rw [← size]
      rfl
    simp only [passing, passing_reads es rest, (e.reads typedE).value valued, bind_assoc, pure_bind,
      pushes, Action.push_within, Activation.push_push, evalArgs, Action.within_bind,
      Action.within_pure]
    rfl

end

end Expr

end

end CBackend
