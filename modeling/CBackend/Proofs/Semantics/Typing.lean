import CBackend.Proofs.Semantics.Source

/-!
Trees over integer, pointer and `void` types whose conversions are all written out, and what follows
for their values: each is a word of the class of its expression.
-/

namespace CBackend

def SymbolTable.names (t : SymbolTable) (sym : Symbol) : Bool :=
  match t.kind sym with
  | .global | .function | .param | .local => decide (sym.index < t.size)
  | _ => false

namespace CType

variable {a b : CType}

def isPlain (ty : CType) : Bool := ty.isInteger || decide (ty = .void)

theorem isPlain_of_isInteger {ty : CType} (integer : ty.isInteger = true) : ty.isPlain = true := by
  simp [isPlain, integer]

theorem isStruct_of_isPlain {ty : CType} (plain : ty.isPlain = true) : ty.isStruct = false := by
  cases ty <;> first | rfl | cases plain

def alike (a b : CType) : Bool := decide (a.valueClass = b.valueClass)

theorem ne_void_of_alike (alike : a.valueClass = b.valueClass) (valued : b ≠ .void) :
    a ≠ .void := by
  rintro rfl
  cases b <;> simp [valueClass] at alike valued

theorem isInteger_of_alike (alike : a.valueClass = b.valueClass) :
    a.isInteger = true ↔ b.isInteger = true := by
  cases a <;> cases b <;> simp [valueClass, isInteger] at alike ⊢

theorem size_of_alike (alike : a.valueClass = b.valueClass) (integer : b.isInteger = true) :
    a.size = b.size := by
  cases a <;> cases b <;> simp [valueClass, isInteger] at alike integer <;> rfl

end CType

section

variable (t : SymbolTable)

mutual

/-- An expression over integer types with its conversions written out: constants are in range, a
stored value has the class of its target or is narrowed, and the arms of a choice have its class. -/
def Expr.typed : Expr → Bool
  | .const tag sym =>
    match t.kind sym with
    | .intConst v => tag.ty.isInteger && tag.ty.holds v && decide (sym.index < t.size)
    | _ => false
  | .addr tag sym => decide (tag.ty = .pointer) && t.names sym
  | .deref tag a => tag.ty.isInteger && a.ty.isInteger && a.typed
  | .unary tag op x =>
    (if op = .not then decide (tag.ty = .int) else tag.ty.isInteger) && x.ty.isInteger && x.typed
  | .binary tag op a b =>
    (if op.isRelational || op.isLogical then decide (tag.ty = .int) else tag.ty.isInteger) &&
      a.ty.isInteger && a.typed && b.ty.isInteger && b.typed
  | .assign tag a v =>
    tag.ty.isInteger && a.ty.isInteger && a.typed && v.ty.isInteger && v.typed &&
      (v.ty.alike tag.ty || narrows tag.ty v.ty)
  | .cond tag c a b =>
    c.ty.isInteger && c.typed && a.typed && b.typed &&
      (decide (tag.ty = .void) || tag.ty.isInteger && a.ty.alike tag.ty && b.ty.alike tag.ty)
  | .call tag callee args =>
    tag.ty.isPlain && callee.ty.isInteger && callee.typed && Expr.typedArgs args
  | .cast tag x => x.typed && (decide (tag.ty = .void) || tag.ty.isInteger && x.ty.isInteger)
  | .comma tag a b => a.typed && b.typed && b.ty.alike tag.ty

def Expr.typedArgs : List Expr → Bool
  | [] => true
  | e :: es => e.ty.isInteger && e.typed && Expr.typedArgs es

end

variable {t} in
theorem Expr.typedArgs_iff {es : List Expr} :
    Expr.typedArgs t es = true ↔ ∀ e ∈ es, e.ty.isInteger = true ∧ e.typed t = true := by
  induction es with
  | nil => simp [Expr.typedArgs]
  | cons e es ih => simp [Expr.typedArgs, ih]

def Decl.typed (d : Decl) : Bool :=
  t.names d.sym && (t.ty d.sym).isInteger && d.init.all fun e => e.ty.isInteger && e.typed t

mutual

def Stmt.typed : Stmt → Bool
  | .expr e => e.typed t
  | .when c body | .while c body => c.ty.isInteger && c.typed t && body.typed
  | .ifElse c a b => c.ty.isInteger && c.typed t && a.typed && b.typed
  | .block decls body => decls.all (Decl.typed t) && Stmt.typedAll body
  | .ret (some e) => e.ty.isInteger && e.typed t
  | .ret none | .break | .continue => true

def Stmt.typedAll : List Stmt → Bool
  | [] => true
  | s :: ss => s.typed && Stmt.typedAll ss

end

end

def FunctionDef.Typed (d : FunctionDef) (t : SymbolTable) : Prop := d.body.typed t = true

instance (d : FunctionDef) (t : SymbolTable) : Decidable (d.Typed t) :=
  inferInstanceAs (Decidable (d.body.typed t = true))

namespace Action

variable {M α β : Type} {w : World M}

theorem bind_apply (x : Action M α) (f : α → Action M β) (w : World M) :
    (x >>= f) w = x w >>= fun r => f r.1 r.2 := rfl

theorem bind_eq_ok {x : Action M α} {f : α → Action M β} {r : β × World M} :
    (x >>= f) w = .ok r ↔ ∃ a w', x w = .ok (a, w') ∧ f a w' = .ok r := by
  rw [bind_apply]
  cases x w with
  | ok a => exact ⟨fun ok => ⟨a.1, a.2, rfl, ok⟩, fun ⟨b, w', same, ok⟩ => by
      obtain rfl := Except.ok.inj same
      exact ok⟩
  | error e => exact ⟨nofun, fun ⟨_, _, failed, _⟩ => nomatch failed⟩

theorem pure_eq_ok {a : α} {r : α × World M} : (pure a : Action M α) w = .ok r ↔ (a, w) = r := by
  constructor
  · exact Except.ok.inj
  · exact congrArg _

theorem ofOption_eq_ok {o : Option α} {r : α × World M} :
    (ofOption o : Action M α) w = .ok r ↔ o = some r.1 ∧ w = r.2 := by
  cases o with
  | none => simp [ofOption]
  | some a => simp [ofOption, Prod.ext_iff]

end Action

section Normal

variable {M : Type} {σ : Setting M} {t : SymbolTable} {op : BinaryOp} {ty : CType}

theorem Setting.read_normal {a x : Word} {w w' : World M} (ok : σ.read ty a w = .ok (x, w')) :
    x.extend ty.valueClass = x := by
  obtain ⟨_, _, -, ok⟩ := Action.bind_eq_ok.mp ok
  obtain ⟨y, _, -, ok⟩ := Action.bind_eq_ok.mp ok
  obtain ⟨rfl, -⟩ := Prod.mk.inj (Action.pure_eq_ok.mp ok)
  exact Word.extend_extend y _

theorem Setting.invoke_normal {c : Call} {x : Word} {w w' : World M}
    (ok : σ.invoke ty c w = .ok (x, w')) : x.extend ty.valueClass = x := by
  obtain ⟨_, _, -, ok⟩ := Action.bind_eq_ok.mp ok
  obtain ⟨⟨y, m⟩, _, -, ok⟩ := Action.bind_eq_ok.mp ok
  obtain ⟨_, _, -, ok⟩ := Action.bind_eq_ok.mp ok
  obtain ⟨_, _, -, ok⟩ := Action.bind_eq_ok.mp ok
  obtain ⟨rfl, -⟩ := Prod.mk.inj (Action.pure_eq_ok.mp ok)
  exact Word.extend_extend y _

theorem UnaryOp.word_normal {op : UnaryOp} (a : Word)
    (result : if op = .not then ty = .int else ty.isInteger = true) :
    (op.word ty.valueClass a).extend ty.valueClass = op.word ty.valueClass a := by
  cases op with
  | neg | compl => exact Word.extend_extend _ _
  | not =>
    obtain rfl : ty = .int := result
    exact Word.extend_ofBool _

theorem BinaryOp.word_normal {c : ValueClass} {a b x : Word} (computed : op.word c a b = some x) :
    x.extend c = x := by
  obtain ⟨y, -, rfl⟩ := Option.map_eq_some_iff.mp computed
  exact Word.extend_extend y c

theorem BinaryOp.cases (op : BinaryOp) :
    (∃ o, op.arith? = some o) ∨ (∃ c, op.cond? = some c) ∨ op = .logAnd ∨ op = .logOr := by
  cases op <;> simp [BinaryOp.arith?, BinaryOp.cond?]

theorem Expr.eval_arith {tag : NodeTag} {o : Op} (arith : op.arith? = some o) (a b : Expr) :
    (Expr.binary tag op a b).eval σ t = (do
      let x ← a.eval σ t
      let y ← b.eval σ t
      Action.ofOption (op.word tag.ty.valueClass x y)) := by
  cases op <;> first | rfl | simp [BinaryOp.arith?] at arith

theorem Expr.eval_relation {tag : NodeTag} {c : Cond} (relation : op.cond? = some c) (a b : Expr) :
    (Expr.binary tag op a b).eval σ t = (do
      let x ← a.eval σ t
      let y ← b.eval σ t
      return Word.ofBool (op.relates a.ty.valueClass x y)) := by
  cases op <;> first | rfl | simp [BinaryOp.cond?] at relation

theorem Expr.eval_normal : (e : Expr) → e.typed t = true → e.ty ≠ .void →
    ∀ {w w' : World M} {x : Word}, e.eval σ t w = .ok (x, w') → x.extend e.ty.valueClass = x
  | .const tag sym, typed, _, w, w', x, ok => by
    have found := (Action.ofOption_eq_ok.mp ok).1
    simp only [Expr.typed] at typed
    simp only [SymbolTable.constant?] at found
    split at typed
    · rename_i v kind
      rw [kind] at found
      obtain rfl := Option.some.inj found
      simp only [Bool.and_eq_true] at typed
      exact Word.extend_ofInt typed.1.1 typed.1.2
    · cases typed
  | .addr tag sym, typed, _, w, w', x, ok => by
    obtain ⟨rfl, -⟩ := Prod.mk.inj (Action.pure_eq_ok.mp ok)
    simp only [Expr.typed, Bool.and_eq_true, decide_eq_true_eq] at typed
    simp [Expr.ty, Expr.tag, typed.1, CType.valueClass, Word.extend, Setting.address]
  | .deref tag a, _, _, w, w', x, ok => by
    obtain ⟨_, _, -, ok⟩ := Action.bind_eq_ok.mp ok
    exact Setting.read_normal ok
  | .unary tag op a, typed, _, w, w', x, ok => by
    obtain ⟨_, _, -, ok⟩ := Action.bind_eq_ok.mp ok
    obtain ⟨rfl, -⟩ := Prod.mk.inj (Action.pure_eq_ok.mp ok)
    simp only [Expr.typed, Bool.and_eq_true] at typed
    exact UnaryOp.word_normal _ (by simpa using typed.1.1)
  | .binary tag op a b, typed, _, w, w', x, ok => by
    simp only [Expr.typed, Bool.and_eq_true] at typed
    have result := typed.1.1.1.1
    rcases op.cases with ⟨o, arith⟩ | ⟨c, relation⟩ | rfl | rfl
    · rw [Expr.eval_arith arith] at ok
      obtain ⟨_, _, -, ok⟩ := Action.bind_eq_ok.mp ok
      obtain ⟨_, _, -, ok⟩ := Action.bind_eq_ok.mp ok
      exact BinaryOp.word_normal (Action.ofOption_eq_ok.mp ok).1
    · have int : tag.ty = .int := by simpa [BinaryOp.isRelational, relation] using result
      rw [Expr.eval_relation relation] at ok
      obtain ⟨_, _, -, ok⟩ := Action.bind_eq_ok.mp ok
      obtain ⟨_, _, -, ok⟩ := Action.bind_eq_ok.mp ok
      obtain ⟨rfl, -⟩ := Prod.mk.inj (Action.pure_eq_ok.mp ok)
      simp only [Expr.ty, Expr.tag, int]
      exact Word.extend_ofBool _
    all_goals
      have int : tag.ty = .int := by simpa [BinaryOp.isLogical] using result
      obtain ⟨y, _, -, ok⟩ := Action.bind_eq_ok.mp ok
      simp only [Expr.ty, Expr.tag, int]
      split at ok
      · obtain ⟨rfl, -⟩ := Prod.mk.inj (Action.pure_eq_ok.mp ok)
        exact Word.extend_ofBool _
      · obtain ⟨_, _, -, ok⟩ := Action.bind_eq_ok.mp ok
        obtain ⟨rfl, -⟩ := Prod.mk.inj (Action.pure_eq_ok.mp ok)
        exact Word.extend_ofBool _
  | .assign tag a v, _, _, w, w', x, ok => by
    obtain ⟨_, _, -, ok⟩ := Action.bind_eq_ok.mp ok
    obtain ⟨y, _, -, ok⟩ := Action.bind_eq_ok.mp ok
    obtain ⟨_, _, -, ok⟩ := Action.bind_eq_ok.mp ok
    obtain ⟨rfl, -⟩ := Prod.mk.inj (Action.pure_eq_ok.mp ok)
    exact Word.extend_extend y _
  | .cond tag c a b, typed, valued, w, w', x, ok => by
    simp only [Expr.typed, Bool.and_eq_true, Bool.or_eq_true, decide_eq_true_eq,
      CType.alike] at typed
    obtain ⟨⟨⟨_, first⟩, second⟩, void | ⟨⟨integer, left⟩, right⟩⟩ := typed
    · exact absurd void valued
    · obtain ⟨y, _, -, ok⟩ := Action.bind_eq_ok.mp ok
      have arm {e : Expr} (alike : e.ty.valueClass = tag.ty.valueClass) : e.ty ≠ .void :=
        CType.ne_void_of_alike alike valued
      split at ok
      · exact left ▸ a.eval_normal first (arm left) ok
      · exact right ▸ b.eval_normal second (arm right) ok
  | .call tag callee args, _, _, w, w', x, ok => by
    obtain ⟨_, _, -, ok⟩ := Action.bind_eq_ok.mp ok
    obtain ⟨_, _, -, ok⟩ := Action.bind_eq_ok.mp ok
    exact Setting.invoke_normal ok
  | .cast tag a, _, _, w, w', x, ok => by
    obtain ⟨y, _, -, ok⟩ := Action.bind_eq_ok.mp ok
    obtain ⟨rfl, -⟩ := Prod.mk.inj (Action.pure_eq_ok.mp ok)
    exact Word.extend_extend y _
  | .comma tag a b, typed, valued, w, w', x, ok => by
    obtain ⟨_, _, -, ok⟩ := Action.bind_eq_ok.mp ok
    simp only [Expr.typed, Bool.and_eq_true, decide_eq_true_eq, CType.alike] at typed
    exact typed.2 ▸ b.eval_normal typed.1.2 (CType.ne_void_of_alike typed.2 valued) ok

end Normal

end CBackend
