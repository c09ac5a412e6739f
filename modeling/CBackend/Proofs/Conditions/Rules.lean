import CBackend.Proofs.Conditions.Steps

/-!
The code of each part of an expression does what the part means. For each rule of lowering, runs
through the code of the parts make up a run through the whole, and so the code of every expression
does what the expression means.
-/

namespace CBackend.Conditions

open LinearFunction

variable {a b x e l r : Expr} {yes no : Option Symbol} {op : BinaryOp} {sym : Symbol} {o : Op}
  {ty : CType}

section

variable {W α : Type} (σ : Workings W) (t t' : SymbolTable) (f : LinearFunction)

/-- Runs through the code between two drafts follow an evaluation. -/
def Does (d d' : Draft) (act : Evaluation W α) : Prop :=
  Takes σ t' f d d.codes.length (fun _ => True) act (fun _ => d'.codes.length) fun _ _ => True

/-- Runs through the code between two drafts follow an evaluation and leave its value with an
operator of a type. -/
structure Gives (d d' : Draft) (v : LinId) (ty : CType) (act : Evaluation W Value) : Prop where
  old : v.index < d'.nodes.length
  node : (f.node v).ty = ty
  takes : Takes σ t' f d d.codes.length (fun _ => True) act (fun _ => d'.codes.length) (Has v)

/-- Runs from the end of a draft come to one of two places, as an evaluation says. -/
def Decides (d : Draft) (py pn : Nat) (act : Evaluation W Bool) : Prop :=
  Takes σ t' f d d.codes.length (fun _ => True) act (fun b => if b then py else pn) fun _ _ => True

/-- Runs through the code between two drafts do what a part of an expression means. -/
def Simulates (d d' : Draft) : Task → Prop
  | .value e v | .compute e v => e.scalar t = true →
    Gives σ t' f d d' v e.linearType (e.reading σ t).value
  | .effect e => e.scalar t = true → Does σ t' f d d' (e.reading σ t).effect
  | .choose c a b => c.scalar t = true → a.scalar t = true → b.scalar t = true →
    Does σ t' f d d'
      (.choose (c.reading σ t).truth (a.reading σ t).effect (b.reading σ t).effect)
  | .branch e yes no | .jump e yes no => e.scalar t = true → ∀ py pn,
    f.Lands yes d'.codes.length py → f.Lands no d'.codes.length pn →
    Decides σ t' f d py pn (e.reading σ t).truth
  | .args es bytes => (∀ e ∈ es, e.scalar t = true) →
    bytes = Expr.argsSize es ∧ Does σ t' f d d' (Expr.passing σ t es.reverse)
  | _ => True

end

variable {W : Type} {σ : Workings W} {t t' : SymbolTable} {f : LinearFunction}
  {d d₁ d₂ d₃ : Draft} {tag : NodeTag} {v v₁ v₂ : LinId}

theorem Gives.of_emit {n : LinNode} {act : Evaluation W Value} (inside : (d₁.emit n).Within t' f)
    (takes : Takes σ t' f d d.codes.length (fun _ => True) act
      (fun _ => (d₁.emit n).codes.length) (Has d₁.next)) :
    Gives σ t' f d (d₁.emit n) d₁.next n.ty act where
  old := by simp [Draft.emit, Draft.next]
  node := by rw [inside.emit_node]
  takes := takes

theorem Takes.choose {α : Type} {p q r : Nat} {P : Held → Prop} {test : Evaluation W Bool}
    {yes no : Evaluation W α} {goal : α → Nat} {Q : α → Held → Prop}
    (decides : Takes σ t' f d r P test (fun b => if b then p else q) fun _ _ => True)
    (ifTrue : Takes σ t' f d₁ p (fun _ => True) yes goal Q)
    (ifFalse : Takes σ t' f d₁ q (fun _ => True) no goal Q) (grows : d.Grows d₁) :
    Takes σ t' f d r P (.choose test yes no) goal Q := by
  refine decides.bind (fun b => ?_) grows
  cases b with
  | true => exact ifTrue
  | false => exact ifFalse

theorem Simulates.first {number : Nat} (run : Simulates σ t t' f d d₁ (.compute e v)) :
    Simulates σ t t' f d (d₁.settle number v) (.value e v) := by
  intro scalar
  have gives := run scalar
  exact ⟨gives.old, gives.node, gives.takes⟩

theorem Simulates.const (base : t.Grows t')
    (inside : (d.emit { op := .const, ty := tag.ty, sym := some sym }).Within t' f) :
    Simulates σ t t' f d (d.emit { op := .const, ty := tag.ty, sym := some sym })
      (.compute (.const tag sym) d.next) := by
  intro scalar
  simp only [Expr.scalar, Bool.and_eq_true, decide_eq_true_eq] at scalar
  obtain ⟨x, value, -⟩ := SymbolTable.isTrue_valueAt scalar.2
  have known : t'.valueAt tag.ty.valueClass sym = some x := by
    rw [← value, SymbolTable.valueAt, SymbolTable.valueAt, base.kind_eq scalar.1]
  refine .of_emit inside ?_
  rw [Expr.value_const value]
  exact (moves_emit inside fun h w _ => by simp [compute, known]).pure

theorem Simulates.addr (base : t.Grows t') (inside : (d.addr sym).Within t' f) :
    Simulates σ t t' f d (d.addr sym) (.compute (.addr tag sym) d.next) := by
  intro scalar
  simp only [Expr.scalar, Bool.and_eq_true, decide_eq_true_eq] at scalar
  have named : t'.kind sym ≠ .temp := by
    rw [base.kind_eq scalar.1]
    exact scalar.2
  refine .of_emit inside (takes_apply inside (fun h _ => rfl) fun h w _ => ?_)
  simp [compute, named]

theorem Simulates.deref (address : Simulates σ t t' f d d₁ (.value a v)) (grows : d.Grows d₁)
    (inside : (d₁.emit { op := .load, ty := tag.ty, left := some v }).Within t' f) :
    Simulates σ t t' f d (d₁.emit { op := .load, ty := tag.ty, left := some v })
      (.compute (.deref tag a) d₁.next) := by
  intro scalar
  simp only [Expr.scalar, Bool.and_eq_true] at scalar
  refine .of_emit inside ((address scalar.2).takes.bind (fun x => ?_) grows)
  exact takes_perform rfl inside fun h has => values?_one rfl rfl has

theorem UnaryOp.applied {op : UnaryOp} (arith : op.arith? = some o) :
    Conditions.applied o = true := by
  cases op <;> first | (obtain rfl := Option.some.inj arith; rfl) | cases arith

theorem BinaryOp.applied (arith : op.arith? = some o) : Conditions.applied o = true := by
  cases op <;> first | (obtain rfl := Option.some.inj arith; rfl) | cases arith

theorem Simulates.unary {op : UnaryOp} (arith : op.arith? = some o)
    (operand : Simulates σ t t' f d d₁ (.value x v)) (grows : d.Grows d₁)
    (inside : (d₁.emit { op := o, ty := tag.ty, left := some v }).Within t' f) :
    Simulates σ t t' f d (d₁.emit { op := o, ty := tag.ty, left := some v })
      (.compute (.unary tag op x) d₁.next) := by
  intro scalar
  simp only [Expr.scalar, Bool.and_eq_true] at scalar
  have arithmetic : op ≠ .not := by
    rintro rfl
    cases arith
  rw [Expr.linearType, if_neg arithmetic]
  refine .of_emit inside ?_
  simp only [Expr.reading, arith]
  refine (operand scalar.2).takes.bind (fun x => ?_) grows
  exact takes_perform (UnaryOp.applied arith) inside fun h has => values?_one rfl rfl has

theorem Gives.operands {ty₁ ty₂ : CType} {left right : Evaluation W Value} {β : Type}
    {k : Value → Value → Evaluation W β} {goal : β → Nat} {Q : β → Held → Prop}
    (first : Gives σ t' f d d₁ v₁ ty₁ left) (second : Gives σ t' f d₁ d₂ v₂ ty₂ right)
    (grows₁ : d.Grows d₁) (grows₂ : d₁.Grows d₂)
    (rest : ∀ x y, Takes σ t' f d₂ d₂.codes.length (fun h => Has v₂ y h ∧ Has v₁ x h) (k x y)
      goal Q) :
    Takes σ t' f d d.codes.length (fun _ => True)
      (left >>= fun x => right >>= fun y => k x y) goal Q := by
  refine first.takes.bind (fun x => ?_) grows₁
  have kept := second.takes.keep (lasting_has first.old x) (R := Has v₁ x)
    fun _ has => ⟨trivial, has⟩
  exact kept.bind (fun y => rest x y) grows₂

theorem Simulates.binary (arith : op.arith? = some o) (left : Simulates σ t t' f d d₁ (.value l v₁))
    (right : Simulates σ t t' f d₁ d₂ (.value r v₂)) (grows₁ : d.Grows d₁) (grows₂ : d₁.Grows d₂)
    (inside : (d₂.emit { op := o, ty := tag.ty, left := some v₁, right := some v₂ }).Within t' f) :
    Simulates σ t t' f d (d₂.emit { op := o, ty := tag.ty, left := some v₁, right := some v₂ })
      (.compute (.binary tag op l r) d₂.next) := by
  intro scalar
  simp only [Expr.scalar, Bool.and_eq_true] at scalar
  rw [Expr.linearType, arith, Option.isSome_some, if_pos rfl]
  refine .of_emit inside ?_
  rw [Expr.value_arith arith]
  refine (left scalar.1.2).operands (right scalar.2) grows₁ grows₂ fun x y => ?_
  exact takes_perform (BinaryOp.applied arith) inside fun h has =>
    values?_two rfl rfl has.2 has.1

theorem Simulates.not (operand : Simulates σ t t' f d d₁ (.value x v)) (grows : d.Grows d₁)
    (inside : ((d₁.zero x.ty).comparison .eq v d₁.next).Within t' f) :
    Simulates σ t t' f d ((d₁.zero x.ty).comparison .eq v d₁.next)
      (.compute (.unary tag .not x) (d₁.zero x.ty).next) := by
  intro scalar
  simp only [Expr.scalar, Bool.and_eq_true] at scalar
  have value := operand scalar.2
  have zeroed : (d₁.zero x.ty).Within t' f := inside.of_grows ((Draft.Grows.refl _).emit _)
  refine .of_emit inside (value.takes.bind (fun y => ?_) grows)
  have zero := (moves_zero (σ := σ) zeroed).keep (lasting_has value.old y) fun _ has => ⟨has, has⟩
  have compared := moves_comparison (σ := σ) inside
    (P := fun h => Has d₁.next (zeroOf x.ty) h ∧ Has v y h) (fun _ has => has.2) fun _ has => has.1
  rw [(Value.test_zero (isZero_zeroOf x.ty) _ y).1, value.node] at compared
  exact (zero.trans compared ((Draft.Grows.refl _).zero _)).pure

theorem Simulates.relation {cond : Cond} (relational : op.cond? = some cond)
    (left : Simulates σ t t' f d d₁ (.value l v₁)) (right : Simulates σ t t' f d₁ d₂ (.value r v₂))
    (grows₁ : d.Grows d₁) (grows₂ : d₁.Grows d₂) (inside : (d₂.comparison cond v₁ v₂).Within t' f) :
    Simulates σ t t' f d (d₂.comparison cond v₁ v₂) (.compute (.binary tag op l r) d₂.next) := by
  intro scalar
  simp only [Expr.scalar, Bool.and_eq_true] at scalar
  have first := left scalar.1.2
  have int : (Expr.binary tag op l r).linearType = .int := by
    cases op <;> first | rfl | cases relational
  rw [int]
  refine .of_emit inside ?_
  rw [Expr.value_relation relational, ← first.node]
  refine first.operands (right scalar.2) grows₁ grows₂ fun x y => ?_
  exact (moves_comparison inside (fun _ has => has.2) fun _ has => has.1).pure

theorem kind_temp (inside : (d.temp ty).Within t' f) : t'.kind d.fresh = .temp := by
  have known : d.fresh.index < (d.temp ty).symbols.size := by
    simp [Draft.temp, Draft.code, Draft.fresh, SymbolTable.temp, SymbolTable.push, SymbolTable.size]
  rw [inside.symbols.kind_eq known]
  simp [Draft.temp, Draft.code, Draft.fresh, SymbolTable.temp, SymbolTable.push, SymbolTable.kind,
    SymbolTable.entry, SymbolTable.size]

theorem takes_choice {ty₁ ty₂ : CType} {d₄ d₅ d₆ : Draft} {test : Evaluation W Bool}
    {yes no : Evaluation W Value} (unique : f.LabelsUnique) (declared : d₁ = d.temp ty)
    (tests : ∀ p, f.codes[p]? = some (.label d₁.fresh) → Decides σ t' f d₁.label.label
      d₂.codes.length p test) (grows₂ : d₁.label.label.Grows d₂)
    (arm : Gives σ t' f d₂ d₃ v₁ ty₁ yes) (grows₃ : d₂.Grows d₃)
    (first : d₄ = ((d₃.store d.fresh ty v₁).code (.jump d₁.label.fresh)).place d₁.fresh)
    (other : Gives σ t' f d₄ d₅ v₂ ty₂ no) (grows₅ : d₄.Grows d₅)
    (second : d₆ = d₅.store d.fresh ty v₂)
    (inside : ((d₆.place d₁.label.fresh).load d.fresh ty).Within t' f) :
    Gives σ t' f d ((d₆.place d₁.label.fresh).load d.fresh ty)
      ((d₆.place d₁.label.fresh).addr d.fresh).next ty
      (Evaluation.choose test yes no >>= fun x => pure (x.readAt ty.valueClass)) := by
  -- The drafts on the way and the places of the labels.
  have whole : (d₆.place d₁.label.fresh).Within t' f :=
    inside.of_grows ((Draft.Grows.refl _).load _ _)
  have chosen : (d₅.store d.fresh ty v₂).Within t' f :=
    second ▸ whole.of_grows ((Draft.Grows.refl _).place _)
  have middle : d₄.Within t' f := chosen.of_grows (grows₅.store _ _ _)
  rw [first] at middle
  have jumps := middle.of_grows ((Draft.Grows.refl _).place _)
  have stored := jumps.of_grows ((Draft.Grows.refl _).code _)
  have started : d₁.Within t' f := stored.of_grows
    (((((Draft.Grows.refl _).label.label).trans grows₂).trans grows₃).store _ _ _)
  have temp : t'.kind d.fresh = .temp := kind_temp (declared ▸ started)
  have grow₁ : d.Grows d₁ := declared ▸ (Draft.Grows.refl d).temp ty
  have grow₂ : d.Grows d₂ := grow₁.label.label.trans grows₂
  have from₄ : d₁.Grows d₄ := first ▸ (((((Draft.Grows.refl d₁).label.label.trans grows₂).trans
    grows₃).store _ _ _).code _).place _
  have from₆ : d₁.Grows d₆ := second ▸ (from₄.trans grows₅).store _ _ _
  have grow₄ := grow₁.trans from₄
  have opened : Moves σ t' f d d.codes.length (fun _ => True) d₁.codes.length fun _ => True := by
    subst declared
    exact (moves_mark (d := { d with symbols := (d.symbols.temp ty).2 }) started
      rfl).weaken ⟨List.prefix_rfl, List.prefix_rfl, SymbolTable.grows_temp _ ty⟩
  -- Where the arms meet the temporary holds the value.
  have arms : Takes σ t' f d d.codes.length (fun _ => True) (.choose test yes no)
      (fun _ => d₆.codes.length) (Stored d.fresh) := by
    have passed : Moves σ t' f d ((d₃.store d.fresh ty v₁).code
        (.jump d₁.label.fresh)).codes.length (fun _ => True) d₄.codes.length fun _ => True := by
      rw [first]
      exact (moves_mark middle rfl).weaken (((grow₂.trans grows₃).store _ _ _).code _)
    refine opened.takes (((tests _ middle.code_at).weaken grow₁.label.label).choose
      ((arm.takes.weaken grow₂).moves (fun x => ?_) (.refl d))
      (passed.takes ((other.takes.weaken grow₄).moves (fun x => ?_) (.refl d)) (.refl d))
      (.refl d)) (.refl d)
    · have store := moves_store (σ := σ) (x := x) stored temp arm.old (grow₂.trans grows₃)
        (Nat.le_refl _)
      exact store.trans (moves_jump unique jumps whole.code_at) ((grow₂.trans grows₃).store _ _ _)
    · rw [second]
      exact moves_store chosen temp other.old (grow₄.trans grows₅) (Nat.le_refl _)
  have known : d.fresh.index < d₁.symbols.size := by
    simp [declared, Draft.temp, Draft.code, Draft.fresh, SymbolTable.temp, SymbolTable.push,
      SymbolTable.size]
  refine .of_emit inside (arms.bind (fun x => Moves.pure ?_) (grow₁.trans from₆))
  exact (moves_mark whole rfl).trans
    (moves_load inside temp (Nat.lt_of_lt_of_le known from₆.symbols.size_le))
    ((Draft.Grows.refl _).place _)

theorem Gives.one (inside : d.one.Within t' f) :
    Gives σ t' f d d.one d.next .int (pure (.ofBool true)) where
  old := by simp [Draft.one, Draft.constant, Draft.emit, Draft.next]
  node := congrArg LinNode.ty inside.emit_node
  takes := (moves_one inside).pure

theorem Gives.zero (inside : (d.zero ty).Within t' f) :
    Gives σ t' f d (d.zero ty) d.next ty (pure (zeroOf ty)) where
  old := by simp [Draft.zero, Draft.constant, Draft.emit, Draft.next]
  node := congrArg LinNode.ty inside.emit_node
  takes := (moves_zero inside).pure

theorem Simulates.truth {d₄ : Draft} (unique : f.LabelsUnique) (logical : op.isLogical = true)
    (declared : d₁ = d.temp .int)
    (jumps : Simulates σ t t' f d₁.label.label d₂ (.jump (.binary tag op a b) none (some d₁.fresh)))
    (grows : d₁.label.label.Grows d₂)
    (yes : d₃ = ((d₂.one.store d.fresh .int d₂.next).code (.jump d₁.label.fresh)).place d₁.fresh)
    (no : d₄ = ((d₃.zero .int).store d.fresh .int d₃.next).place d₁.label.fresh)
    (inside : (d₄.load d.fresh .int).Within t' f) :
    Simulates σ t t' f d (d₄.load d.fresh .int)
      (.compute (.binary tag op a b) (d₄.addr d.fresh).next) := by
  intro scalar
  subst no
  have zeroed : (d₃.zero .int).Within t' f :=
    inside.of_grows ((((Draft.Grows.refl _).store _ _ _).place _).load _ _)
  have made : d₂.one.Within t' f := by
    have before := zeroed.of_grows ((Draft.Grows.refl d₃).zero _)
    rw [yes] at before
    exact before.of_grows ((((Draft.Grows.refl _).store _ _ _).code _).place _)
  have chosen := takes_choice (σ := σ) unique declared
    (fun p placed => jumps scalar _ p rfl placed) grows (.one made) (Draft.Grows.refl _).one yes
    (.zero zeroed) ((Draft.Grows.refl _).zero _) rfl inside
  have int : (Expr.binary tag op a b).linearType = .int := by
    cases op <;> first | rfl | cases logical
  rw [int, Expr.value_logical logical]
  refine cast (congrArg _ ?_) chosen
  simp only [Evaluation.choose, bind_assoc]
  congr 1
  funext b
  cases b <;> simp [CType.valueClass, zeroOf, CType.isFloat]

theorem Simulates.cond {c : Expr} {d₄ d₅ d₆ : Draft} (unique : f.LabelsUnique)
    (valued : tag.ty ≠ .void) (declared : d₁ = d.temp tag.ty)
    (test : Simulates σ t t' f d₁.label.label d₂ (.branch c none (some d₁.fresh)))
    (grows₂ : d₁.label.label.Grows d₂) (arm : Simulates σ t t' f d₂ d₃ (.value a v₁))
    (grows₃ : d₂.Grows d₃)
    (yes : d₄ = ((d₃.store d.fresh tag.ty v₁).code (.jump d₁.label.fresh)).place d₁.fresh)
    (other : Simulates σ t t' f d₄ d₅ (.value b v₂)) (grows₅ : d₄.Grows d₅)
    (no : d₆ = (d₅.store d.fresh tag.ty v₂).place d₁.label.fresh)
    (inside : (d₆.load d.fresh tag.ty).Within t' f) :
    Simulates σ t t' f d (d₆.load d.fresh tag.ty)
      (.compute (.cond tag c a b) (d₆.addr d.fresh).next) := by
  intro scalar
  simp only [Expr.scalar, Bool.and_eq_true] at scalar
  obtain ⟨⟨⟨-, scalarTest⟩, scalarArm⟩, scalarOther⟩ := scalar
  subst no
  have chosen := takes_choice (σ := σ) unique declared
    (fun p placed => test scalarTest _ p rfl placed) grows₂ (arm scalarArm) grows₃ yes
    (other scalarOther) grows₅ rfl inside
  rw [Expr.linearType, if_neg valued]
  simpa only [Expr.reading, Reading.ofValue, if_neg valued] using chosen

theorem Simulates.condVoid {c : Expr} (void : tag.ty = .void)
    (arms : Simulates σ t t' f d d₁ (.choose c a b)) (inside : (d₁.zero .int).Within t' f)
    (grows : d.Grows d₁) :
    Simulates σ t t' f d (d₁.zero .int) (.compute (.cond tag c a b) d₁.next) := by
  intro scalar
  simp only [Expr.scalar, Bool.and_eq_true] at scalar
  obtain ⟨⟨⟨-, scalarTest⟩, scalarArm⟩, scalarOther⟩ := scalar
  have zero := Gives.zero (σ := σ) inside
  rw [Expr.linearType, if_pos void]
  refine ⟨zero.old, zero.node, ?_⟩
  simp only [Expr.reading, if_pos void]
  exact (arms scalarTest scalarArm scalarOther).bind (fun _ => zero.takes) grows

theorem takes_assign {x y : Value} (old : v₂.index < d.nodes.length)
    (inside : (d.emit { op := .assign, ty, left := some v₁, right := some v₂ }).Within t' f) :
    Takes σ t' f d d.codes.length (fun h => Has v₂ y h ∧ Has v₁ x h)
      (σ.perform { op := .assign, ty } [x, y])
      (fun _ => (d.emit { op := .assign, ty, left := some v₁, right := some v₂ }).codes.length)
      fun _ => Has v₂ y := by
  have performed := takes_perform (σ := σ) rfl inside (P := fun h => Has v₂ y h ∧ Has v₁ x h)
    fun h has => values?_two rfl rfl has.2 has.1
  have kept := performed.keep (lasting_has old y) fun _ has => ⟨has, has.1⟩
  exact kept.imp fun _ _ has => has.2

theorem Simulates.assign (wide : narrows tag.ty e.ty = false)
    (address : Simulates σ t t' f d d₁ (.value a v₁))
    (value : Simulates σ t t' f d₁ d₂ (.value e v₂)) (grows₁ : d.Grows d₁) (grows₂ : d₁.Grows d₂)
    (inside : (d₂.emit { op := .assign, ty := tag.ty, left := some v₁, right := some v₂ }).Within
      t' f) :
    Simulates σ t t' f d
      (d₂.emit { op := .assign, ty := tag.ty, left := some v₁, right := some v₂ })
      (.compute (.assign tag a e) v₂) := by
  intro scalar
  simp only [Expr.scalar, Bool.and_eq_true] at scalar
  have source := value scalar.2
  rw [Expr.linearType, wide, Expr.reading]
  refine ⟨?_, source.node, (address scalar.1.2).operands source grows₁ grows₂ fun x y => ?_⟩
  · exact Nat.lt_of_lt_of_le source.old ((Draft.Grows.refl d₂).emit _).nodes.length_le
  · refine (takes_assign source.old inside).bind (fun _ => ?_) (.refl d₂)
    rw [wide]
    exact Takes.pure rfl fun _ has => has

theorem Simulates.assignNarrow (narrow : narrows tag.ty e.ty = true)
    (address : Simulates σ t t' f d d₁ (.value a v₁))
    (value : Simulates σ t t' f d₁ d₂ (.value e v₂)) (grows₁ : d.Grows d₁) (grows₂ : d₁.Grows d₂)
    (stored : d₃ = d₂.emit { op := .assign, ty := tag.ty, left := some v₁, right := some v₂ })
    (inside : (d₃.emit { op := .cvt, ty := tag.ty, left := some v₂ }).Within t' f) :
    Simulates σ t t' f d (d₃.emit { op := .cvt, ty := tag.ty, left := some v₂ })
      (.compute (.assign tag a e) d₃.next) := by
  intro scalar
  simp only [Expr.scalar, Bool.and_eq_true] at scalar
  have source := value scalar.2
  have before : d₃.Within t' f := inside.of_grows ((Draft.Grows.refl _).emit _)
  have grows₃ : d₂.Grows d₃ := stored ▸ (Draft.Grows.refl d₂).emit _
  rw [Expr.linearType, narrow, if_pos rfl]
  refine .of_emit inside ?_
  rw [Expr.reading]
  refine (address scalar.1.2).operands source grows₁ grows₂ fun x y => ?_
  rw [stored] at before
  refine (takes_assign source.old before).bind (fun _ => ?_) grows₃
  rw [narrow, if_pos rfl, ← stored]
  exact takes_perform rfl inside fun h has => values?_one rfl rfl has

theorem Expr.argsSize_reverse (es : List Expr) : Expr.argsSize es.reverse = Expr.argsSize es := by
  simp [Expr.argsSize, List.sum_reverse]

theorem Simulates.call {callee : Expr} {args : List Expr} {bytes : Nat}
    (pushed : Simulates σ t t' f d d₁ (.args args.reverse bytes))
    (target : Simulates σ t t' f d₁ d₂ (.value callee v)) (grows₁ : d.Grows d₁)
    (grows₂ : d₁.Grows d₂)
    (inside : (d₂.emit { op := .call, ty := tag.ty, left := some v, aux := bytes }).Within t' f) :
    Simulates σ t t' f d (d₂.emit { op := .call, ty := tag.ty, left := some v, aux := bytes })
      (.compute (.call tag callee args) d₂.next) := by
  intro scalar
  simp only [Expr.scalar, Bool.and_eq_true] at scalar
  have all := Expr.allScalar_iff.mp scalar.2
  obtain ⟨size, first⟩ := pushed fun e inside => all e (List.mem_reverse.mp inside)
  rw [Expr.argsSize_reverse] at size
  rw [List.reverse_reverse] at first
  refine .of_emit inside ?_
  rw [Expr.reading]
  refine first.bind (fun _ => (target scalar.1.2).takes.bind (fun x => ?_) grows₂) grows₁
  rw [← size]
  exact takes_perform rfl inside fun h has => values?_one rfl rfl has

theorem Simulates.argsNil : Simulates σ t t' f d d (.args [] 0) :=
  fun _ => ⟨rfl, Takes.pure rfl fun _ here => here⟩

theorem Simulates.argsCons {es : List Expr} {bytes : Nat}
    (head : Simulates σ t t' f d d₁ (.value e v))
    (rest : Simulates σ t t' f (d₁.code (.arg v)) d₂ (.args es bytes)) (grows : d.Grows d₁)
    (inside : (d₁.code (.arg v)).Within t' f) :
    Simulates σ t t' f d d₂ (.args (e :: es) (roundToSlot e.ty.size + bytes)) := by
  intro scalar
  have value := head (scalar e List.mem_cons_self)
  obtain ⟨size, others⟩ := rest fun e inside => scalar e (List.mem_cons_of_mem _ inside)
  refine ⟨by simp [Expr.argsSize, size], ?_⟩
  rw [List.reverse_cons, Expr.passing_append]
  have single : Expr.passing σ t [e] =
      (e.reading σ t).value >>= fun x => σ.push e.linearType x := by
    simp [Expr.passing]
  rw [single]
  have passed := value.takes.bind (fun x => takes_arg (σ := σ) inside value.node) grows
  exact passed.bind (fun _ => others) (grows.code _)

theorem Simulates.castKeep (same : tag.ty = .void ∨ x.ty.valueClass = tag.ty.valueClass)
    (operand : Simulates σ t t' f d d₁ (.value x v)) :
    Simulates σ t t' f d d₁ (.compute (.cast tag x) v) := by
  intro scalar
  simp only [Expr.scalar, Bool.and_eq_true] at scalar
  rw [Expr.linearType, if_pos same, Expr.reading, if_pos same]
  exact operand scalar.2

theorem Simulates.cast (differs : ¬(tag.ty = .void ∨ x.ty.valueClass = tag.ty.valueClass))
    (operand : Simulates σ t t' f d d₁ (.value x v)) (grows : d.Grows d₁)
    (inside : (d₁.emit { op := .cvt, ty := tag.ty, left := some v }).Within t' f) :
    Simulates σ t t' f d (d₁.emit { op := .cvt, ty := tag.ty, left := some v })
      (.compute (.cast tag x) d₁.next) := by
  intro scalar
  simp only [Expr.scalar, Bool.and_eq_true] at scalar
  rw [Expr.linearType, if_neg differs, Expr.reading, if_neg differs]
  refine .of_emit inside ((operand scalar.2).takes.bind (fun y => ?_) grows)
  exact takes_perform rfl inside fun h has => values?_one rfl rfl has

theorem Simulates.comma (first : Simulates σ t t' f d d₁ (.effect a))
    (second : Simulates σ t t' f d₁ d₂ (.value b v)) (grows : d.Grows d₁) :
    Simulates σ t t' f d d₂ (.compute (.comma tag a b) v) := by
  intro scalar
  simp only [Expr.scalar, Bool.and_eq_true] at scalar
  have value := second scalar.2
  rw [Expr.linearType, Expr.reading]
  exact ⟨value.old, value.node, (first scalar.1.2).bind (fun _ => value.takes) grows⟩

theorem Simulates.effectValue (plain : e.effectByValue = true)
    (run : Simulates σ t t' f d d₁ (.value e v)) : Simulates σ t t' f d d₁ (.effect e) := by
  intro scalar
  rw [Expr.effect_of_value plain]
  exact (run scalar).takes.bind (fun _ => Takes.pure rfl fun _ _ => trivial) (.refl d)

theorem Simulates.effectComma (first : Simulates σ t t' f d d₁ (.effect a))
    (second : Simulates σ t t' f d₁ d₂ (.effect b)) (grows : d.Grows d₁) :
    Simulates σ t t' f d d₂ (.effect (.comma tag a b)) := by
  intro scalar
  simp only [Expr.scalar, Bool.and_eq_true] at scalar
  rw [Expr.reading]
  exact (first scalar.1.2).bind (fun _ => second scalar.2) grows

theorem Expr.scalar_binary (scalar : (Expr.binary tag op a b).scalar t = true) :
    a.scalar t = true ∧ b.scalar t = true := by
  simp only [Expr.scalar, Bool.and_eq_true] at scalar
  exact ⟨scalar.1.2, scalar.2⟩

theorem Simulates.effectAnd (first : Simulates σ t t' f d.label d₁ (.branch a none (some d.fresh)))
    (second : Simulates σ t t' f d₁ d₂ (.effect b)) (grows₁ : d.label.Grows d₁)
    (grows₂ : d₁.Grows d₂) (inside : (d₂.place d.fresh).Within t' f) :
    Simulates σ t t' f d (d₂.place d.fresh) (.effect (.binary tag .logAnd a b)) := by
  intro scalar
  obtain ⟨scalarA, scalarB⟩ := Expr.scalar_binary scalar
  have placed := moves_mark (σ := σ) (P := fun _ => True) inside rfl
  have test := first scalarA _ _ rfl inside.code_at
  exact (test.choose ((second scalarB).moves (fun _ => placed) grows₂)
    (placed.weaken grows₂).pure grows₁).weaken (Draft.Grows.refl d).label

theorem Simulates.effectOr (first : Simulates σ t t' f d.label d₁ (.branch a (some d.fresh) none))
    (second : Simulates σ t t' f d₁ d₂ (.effect b)) (grows₁ : d.label.Grows d₁)
    (grows₂ : d₁.Grows d₂) (inside : (d₂.place d.fresh).Within t' f) :
    Simulates σ t t' f d (d₂.place d.fresh) (.effect (.binary tag .logOr a b)) := by
  intro scalar
  obtain ⟨scalarA, scalarB⟩ := Expr.scalar_binary scalar
  have placed := moves_mark (σ := σ) (P := fun _ => True) inside rfl
  have test := first scalarA _ _ inside.code_at rfl
  exact (test.choose (placed.weaken grows₂).pure
    ((second scalarB).moves (fun _ => placed) grows₂) grows₁).weaken
    (Draft.Grows.refl d).label

theorem Simulates.choose {c : Expr} (unique : f.LabelsUnique)
    (test : Simulates σ t t' f d.label.label d₁ (.branch c none (some d.fresh)))
    (arm : Simulates σ t t' f d₁ d₂ (.effect a))
    (other : Simulates σ t t' f ((d₂.code (.jump d.label.fresh)).place d.fresh) d₃ (.effect b))
    (grows₁ : d.label.label.Grows d₁) (grows₂ : d₁.Grows d₂)
    (grows₃ : ((d₂.code (.jump d.label.fresh)).place d.fresh).Grows d₃)
    (inside : (d₃.place d.label.fresh).Within t' f) :
    Simulates σ t t' f d (d₃.place d.label.fresh) (.choose c a b) := by
  intro scalarTest scalarArm scalarOther
  have middle : ((d₂.code (.jump d.label.fresh)).place d.fresh).Within t' f :=
    inside.of_grows (grows₃.place _)
  have jumps : (d₂.code (.jump d.label.fresh)).Within t' f :=
    middle.of_grows ((Draft.Grows.refl _).place _)
  have grows₄ : d₂.Grows d₃ := (((Draft.Grows.refl d₂).code _).place _).trans grows₃
  have met := moves_mark (σ := σ) (P := fun _ => True) inside rfl
  have passed := moves_mark (σ := σ) (P := fun _ => True) middle rfl
  have decided := test scalarTest _ _ rfl middle.code_at
  refine (decided.choose ((arm scalarArm).moves (fun _ => ?_) grows₂) ?_ grows₁).weaken
    (Draft.Grows.refl d).label.label
  · exact (moves_jump unique jumps inside.code_at).trans met grows₄
  · exact (passed.takes ((other scalarOther).moves (fun _ => met) grows₃)
      ((Draft.Grows.refl _).place _)).weaken (grows₂.code _)

theorem Simulates.effectCond {c : Expr} (arms : Simulates σ t t' f d d₁ (.choose c a b)) :
    Simulates σ t t' f d d₁ (.effect (.cond tag c a b)) := by
  intro scalar
  simp only [Expr.scalar, Bool.and_eq_true] at scalar
  rw [Expr.reading]
  exact arms scalar.1.1.2 scalar.1.2 scalar.2

theorem Simulates.jumpConst (unique : f.LabelsUnique) (base : t.Grows d.symbols)
    (inside : (d.jumpTo (if d.symbols.isTrue sym then yes else no)).Within t' f) :
    Simulates σ t t' f d (d.jumpTo (if d.symbols.isTrue sym then yes else no))
      (.jump (.const tag sym) yes no) := by
  intro scalar py pn toYes toNo
  simp only [Expr.scalar, Bool.and_eq_true, decide_eq_true_eq] at scalar
  obtain ⟨x, value, isTrue⟩ := SymbolTable.isTrue_valueAt scalar.2
  have same : d.symbols.isTrue sym = t.isTrue sym := by
    rw [SymbolTable.isTrue, SymbolTable.isTrue, base.kind_eq scalar.1]
  have goes {l : Option Symbol} {p : Nat} (lands : f.Lands l (d.jumpTo l).codes.length p)
      (within : (d.jumpTo l).Within t' f) :
      Moves σ t' f d d.codes.length (fun _ => True) p fun _ => True := by
    cases l with
    | some l => exact moves_jump unique within lands
    | none =>
      obtain rfl := lands
      exact .refl d _
  rw [Expr.truth_const value, isTrue, ← same]
  cases known : d.symbols.isTrue sym with
  | true =>
    rw [known] at inside toYes toNo
    exact (goes toYes inside).pure
  | false =>
    rw [known] at inside toYes toNo
    exact (goes toNo inside).pure

theorem Simulates.jumpNot (run : Simulates σ t t' f d d₁ (.branch x no yes)) :
    Simulates σ t t' f d d₁ (.jump (.unary tag .not x) yes no) := by
  intro scalar py pn toYes toNo
  simp only [Expr.scalar, Bool.and_eq_true] at scalar
  rw [Expr.reading]
  refine (run scalar.2 pn py toNo toYes).bind (fun b => Takes.pure ?_ fun _ here => here) (.refl d)
  cases b with
  | true => rfl
  | false => rfl

theorem Simulates.jumpRelation {cond : Cond} (unique : f.LabelsUnique)
    (relational : op.cond? = some cond) (labelled : yes.isSome ∨ no.isSome)
    (left : Simulates σ t t' f d d₁ (.value l v₁)) (right : Simulates σ t t' f d₁ d₂ (.value r v₂))
    (grows₁ : d.Grows d₁) (grows₂ : d₁.Grows d₂)
    (inside : (d₂.compare cond v₁ v₂ yes no).Within t' f) :
    Simulates σ t t' f d (d₂.compare cond v₁ v₂ yes no) (.jump (.binary tag op l r) yes no) := by
  intro scalar py pn toYes toNo
  obtain ⟨scalarL, scalarR⟩ := Expr.scalar_binary scalar
  have first := left scalarL
  rw [Expr.truth_relation relational, ← first.node]
  refine first.operands (right scalarR) grows₁ grows₂ fun x y => ?_
  exact takes_compare unique inside labelled (fun _ has => has.2) (fun _ has => has.1) toYes toNo

theorem Simulates.jumpAnd {no : Symbol} (first : Simulates σ t t' f d d₁ (.branch a none (some no)))
    (second : Simulates σ t t' f d₁ d₂ (.branch b yes (some no))) (grows : d.Grows d₁) :
    Simulates σ t t' f d d₂ (.jump (.binary tag .logAnd a b) yes (some no)) := by
  intro scalar py pn toYes toNo
  obtain ⟨scalarA, scalarB⟩ := Expr.scalar_binary scalar
  exact (first scalarA _ pn rfl toNo).choose (second scalarB py pn toYes toNo)
    (Takes.pure rfl fun _ here => here) grows

theorem Simulates.jumpOr {yes : Symbol}
    (first : Simulates σ t t' f d d₁ (.branch a (some yes) none))
    (second : Simulates σ t t' f d₁ d₂ (.branch b (some yes) no)) (grows : d.Grows d₁) :
    Simulates σ t t' f d d₂ (.jump (.binary tag .logOr a b) (some yes) no) := by
  intro scalar py pn toYes toNo
  obtain ⟨scalarA, scalarB⟩ := Expr.scalar_binary scalar
  exact (first scalarA py _ toYes rfl).choose (Takes.pure rfl fun _ here => here)
    (second scalarB py pn toYes toNo) grows

theorem lands_before {l : Symbol} {label : Option Symbol} {p : Nat}
    (lands : f.Lands label (d.place l).codes.length p) (inside : (d.place l).Within t' f) :
    ∃ q, f.Lands label d.codes.length q ∧
      Moves σ t' f d q (fun _ => True) p fun _ => True := by
  cases label with
  | some label => exact ⟨p, lands, .refl d p⟩
  | none =>
    obtain rfl := lands
    exact ⟨d.codes.length, rfl, moves_mark inside rfl⟩

theorem Decides.behind {py pn qy qn : Nat} {act : Evaluation W Bool}
    (decides : Decides σ t' f d qy qn act)
    (fromYes : Moves σ t' f d₁ qy (fun _ => True) py fun _ => True)
    (fromNo : Moves σ t' f d₁ qn (fun _ => True) pn fun _ => True) (grows : d.Grows d₁) :
    Decides σ t' f d py pn act := by
  refine decides.moves (fun b => ?_) grows
  cases b with
  | true => exact fromYes
  | false => exact fromNo

theorem Simulates.jumpAndOpen
    (first : Simulates σ t t' f d.label d₁ (.branch a none (some d.fresh)))
    (second : Simulates σ t t' f d₁ d₂ (.branch b yes none)) (grows₁ : d.label.Grows d₁)
    (grows₂ : d₁.Grows d₂) (inside : (d₂.place d.fresh).Within t' f) :
    Simulates σ t t' f d (d₂.place d.fresh) (.jump (.binary tag .logAnd a b) yes none) := by
  intro scalar py pn toYes toNo
  obtain ⟨scalarA, scalarB⟩ := Expr.scalar_binary scalar
  obtain ⟨qy, toYes', fromYes⟩ := lands_before (σ := σ) toYes inside
  obtain ⟨qn, rfl, fromNo⟩ := lands_before (σ := σ) toNo inside
  have test := first scalarA _ _ rfl inside.code_at
  have rest := (second scalarB qy _ toYes' rfl).behind fromYes fromNo grows₂
  exact (test.choose rest (fromNo.weaken grows₂).pure grows₁).weaken (Draft.Grows.refl d).label

theorem Simulates.jumpOrOpen (first : Simulates σ t t' f d.label d₁ (.branch a (some d.fresh) none))
    (second : Simulates σ t t' f d₁ d₂ (.branch b none no)) (grows₁ : d.label.Grows d₁)
    (grows₂ : d₁.Grows d₂) (inside : (d₂.place d.fresh).Within t' f) :
    Simulates σ t t' f d (d₂.place d.fresh) (.jump (.binary tag .logOr a b) none no) := by
  intro scalar py pn toYes toNo
  obtain ⟨scalarA, scalarB⟩ := Expr.scalar_binary scalar
  obtain ⟨qy, rfl, fromYes⟩ := lands_before (σ := σ) toYes inside
  obtain ⟨qn, toNo', fromNo⟩ := lands_before (σ := σ) toNo inside
  have test := first scalarA _ _ inside.code_at rfl
  have rest := (second scalarB _ qn rfl toNo').behind fromYes fromNo grows₂
  exact (test.choose (fromYes.weaken grows₂).pure rest grows₁).weaken (Draft.Grows.refl d).label

theorem Simulates.jumpComma (first : Simulates σ t t' f d d₁ (.effect a))
    (second : Simulates σ t t' f d₁ d₂ (.branch b yes no)) (grows : d.Grows d₁) :
    Simulates σ t t' f d d₂ (.jump (.comma tag a b) yes no) := by
  intro scalar py pn toYes toNo
  simp only [Expr.scalar, Bool.and_eq_true] at scalar
  rw [Expr.reading]
  exact (first scalar.1.2).bind (fun _ => second scalar.2 py pn toYes toNo) grows

theorem Simulates.jumpValue (unique : f.LabelsUnique) (plain : e.truthByValue = true)
    (labelled : yes.isSome ∨ no.isSome) (run : Simulates σ t t' f d d₁ (.value e v))
    (grows : d.Grows d₁) (inside : (d₁.test e.ty v yes no).Within t' f) :
    Simulates σ t t' f d (d₁.test e.ty v yes no) (.jump e yes no) := by
  intro scalar py pn toYes toNo
  have value := run scalar
  rw [Expr.truth_of_value plain]
  refine value.takes.bind (fun x => Moves.pure ?_) grows
  rw [← value.node]
  exact moves_test unique inside labelled value.old toYes toNo

theorem simulates {output : Option Symbol} {task : Task} {d d' : Draft}
    (run : Lowers output false task d d') (unique : f.LabelsUnique) (base : t.Grows d.symbols)
    (inside : d'.Within t' f) : Simulates σ t t' f d d' task := by
  have refl := Draft.Grows.refl
  induction run with
  | reuse shared | effectKnown shared | branchKnown shared => cases shared
  | first _ _ ih => exact .first (ih base ⟨inside.codes, inside.nodes, inside.symbols⟩)
  | const => exact .const (base.trans (inside.of_grows ((refl _).emit _)).symbols) inside
  | addr => exact .addr (base.trans (inside.of_grows ((refl _).emit _)).symbols) inside
  | deref address ih =>
    exact .deref (ih base (inside.of_grows ((refl _).emit _))) address.grows inside
  | unary arith operand ih =>
    exact .unary arith (ih base (inside.of_grows ((refl _).emit _))) operand.grows inside
  | not operand ih =>
    exact .not (ih base (inside.of_grows (((refl _).zero _).emit _))) operand.grows inside
  | binary arith left right ih₁ ih₂ =>
    have before := inside.of_grows ((refl _).emit _)
    exact .binary arith (ih₁ base (before.of_grows right.grows))
      (ih₂ (base.trans left.grows.symbols) before) left.grows right.grows inside
  | relation relational left right ih₁ ih₂ =>
    have before := inside.of_grows ((refl _).emit _)
    exact .relation relational (ih₁ base (before.of_grows right.grows))
      (ih₂ (base.trans left.grows.symbols) before) left.grows right.grows inside
  | truth logical declared jumps yes no ih =>
    subst declared yes no
    have more := base.trans ((refl _).temp .int).label.label.symbols
    have before := inside.of_grows ((((((((refl _).one.store _ _ _).code _).place _).zero _).store
      _ _ _).place _).load _ _)
    exact .truth unique logical rfl (ih more before) jumps.grows rfl rfl inside
  | assign wide address value ih₁ ih₂ =>
    have before := inside.of_grows ((refl _).emit _)
    exact .assign wide (ih₁ base (before.of_grows value.grows))
      (ih₂ (base.trans address.grows.symbols) before) address.grows value.grows inside
  | assignNarrow narrow address value stored ih₁ ih₂ =>
    subst stored
    have before := inside.of_grows (((refl _).emit _).emit _)
    exact .assignNarrow narrow (ih₁ base (before.of_grows value.grows))
      (ih₂ (base.trans address.grows.symbols) before) address.grows value.grows rfl inside
  | condVoid void arms ih =>
    exact .condVoid void (ih base (inside.of_grows ((refl _).zero _))) inside arms.grows
  | @cond tag c a b v w d d₁ d₂ d₃ d₄ d₅ d₆ valued declared test arm yes other no ih₁ ih₂ ih₃ =>
    subst declared yes no
    have begins := ((refl d).temp tag.ty).label.label
    have last := inside.of_grows ((((refl _).store _ _ _).place _).load _ _)
    have middle := last.of_grows ((((refl _).store _ _ _).code _).place _ |>.trans other.grows)
    have grows := (begins.trans test.grows).trans arm.grows
    exact .cond unique valued rfl
      (ih₁ (base.trans begins.symbols) (middle.of_grows arm.grows)) test.grows
      (ih₂ (base.trans (begins.trans test.grows).symbols) middle) arm.grows rfl
      (ih₃ (base.trans (((grows.store _ _ _).code _).place _).symbols) last) other.grows rfl inside
  | call _ pushed target ih₁ ih₂ =>
    have before := inside.of_grows ((refl _).emit _)
    exact .call (ih₁ base (before.of_grows target.grows))
      (ih₂ (base.trans pushed.grows.symbols) before) pushed.grows target.grows inside
  | callStruct struct =>
    intro scalar
    simp [Expr.scalar, struct] at scalar
  | castKeep same operand ih => exact .castKeep same (ih base inside)
  | cast differs operand ih =>
    exact .cast differs (ih base (inside.of_grows ((refl _).emit _))) operand.grows inside
  | comma first second ih₁ ih₂ =>
    exact .comma (ih₁ base (inside.of_grows second.grows))
      (ih₂ (base.trans first.grows.symbols) inside) first.grows
  | effectValue plain run ih => exact .effectValue plain (ih base inside)
  | @effectAnd tag a b d d₁ d₂ unknown first second ih₁ ih₂ =>
    have before := inside.of_grows ((refl _).place _)
    have begins := (refl d).label
    exact .effectAnd (ih₁ (base.trans begins.symbols) (before.of_grows second.grows))
      (ih₂ (base.trans (begins.trans first.grows).symbols) before) first.grows second.grows inside
  | @effectOr tag a b d d₁ d₂ unknown first second ih₁ ih₂ =>
    have before := inside.of_grows ((refl _).place _)
    have begins := (refl d).label
    exact .effectOr (ih₁ (base.trans begins.symbols) (before.of_grows second.grows))
      (ih₂ (base.trans (begins.trans first.grows).symbols) before) first.grows second.grows inside
  | effectCond unknown arms ih => exact .effectCond (ih base inside)
  | effectComma first second ih₁ ih₂ =>
    exact .effectComma (ih₁ base (inside.of_grows second.grows))
      (ih₂ (base.trans first.grows.symbols) inside) first.grows
  | @choose c a b d d₁ d₂ d₃ test arm other ih₁ ih₂ ih₃ =>
    have last := inside.of_grows ((refl _).place _)
    have middle := last.of_grows (((refl _).code _).place _ |>.trans other.grows)
    have begins := (refl d).label.label
    have grows := (begins.trans test.grows).trans arm.grows
    exact .choose unique (ih₁ (base.trans begins.symbols) (middle.of_grows arm.grows))
      (ih₂ (base.trans (begins.trans test.grows).symbols) middle)
      (ih₃ (base.trans ((grows.code _).place _).symbols) last) test.grows arm.grows other.grows
      inside
  | branch _ unknown run ih => exact ih base inside
  | jumpConst => exact .jumpConst unique base inside
  | jumpNot run ih => exact .jumpNot (ih base inside)
  | jumpRelation relational labelled left right ih₁ ih₂ =>
    have before := inside.of_grows ((refl _).compare _ _ _ _ _)
    exact .jumpRelation unique relational labelled (ih₁ base (before.of_grows right.grows))
      (ih₂ (base.trans left.grows.symbols) before) left.grows right.grows inside
  | jumpAnd first second ih₁ ih₂ =>
    exact .jumpAnd (ih₁ base (inside.of_grows second.grows))
      (ih₂ (base.trans first.grows.symbols) inside) first.grows
  | @jumpAndOpen tag a b yes d d₁ d₂ first second ih₁ ih₂ =>
    have before := inside.of_grows ((refl _).place _)
    have begins := (refl d).label
    exact .jumpAndOpen (ih₁ (base.trans begins.symbols) (before.of_grows second.grows))
      (ih₂ (base.trans (begins.trans first.grows).symbols) before) first.grows second.grows inside
  | jumpOr first second ih₁ ih₂ =>
    exact .jumpOr (ih₁ base (inside.of_grows second.grows))
      (ih₂ (base.trans first.grows.symbols) inside) first.grows
  | @jumpOrOpen tag a b no d d₁ d₂ first second ih₁ ih₂ =>
    have before := inside.of_grows ((refl _).place _)
    have begins := (refl d).label
    exact .jumpOrOpen (ih₁ (base.trans begins.symbols) (before.of_grows second.grows))
      (ih₂ (base.trans (begins.trans first.grows).symbols) before) first.grows second.grows inside
  | jumpComma first second ih₁ ih₂ =>
    exact .jumpComma (ih₁ base (inside.of_grows second.grows))
      (ih₂ (base.trans first.grows.symbols) inside) first.grows
  | jumpValue plain labelled run ih =>
    exact .jumpValue unique plain labelled (ih base (inside.of_grows ((refl _).test _ _ _ _)))
      run.grows inside
  | argsNil => exact .argsNil
  | argsCons head rest ih₁ ih₂ =>
    have before := inside.of_grows rest.grows
    exact .argsCons (ih₁ base (before.of_grows ((refl _).code _)))
      (ih₂ (base.trans head.grows.symbols) inside) head.grows before
  | _ => trivial

end CBackend.Conditions
