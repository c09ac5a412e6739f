import CBackend.Proofs.Conditions.Machine

/-!
Runs through the pieces that lowering puts together: operators, constants, temporaries, comparisons
and branches. A branch without a true label tests the negated condition, which is the same thing as
long as the operands have an order or are not asked for it.
-/

namespace CBackend.Conditions

open LinearFunction

variable {W : Type} {σ : Workings W} {t : SymbolTable} {f : LinearFunction} {d d₀ : Draft}
  {P : Held → Prop} {n : LinNode} {h h' : Held} {w w' : W} {xs : List Value} {v : LinId}

theorem step_eval {s : State W} {l : LinId} (here : f.codes[s.pos]? = some (.eval l)) :
    step σ t f s = (compute σ t f (f.node l) s.held s.world).map fun r =>
      ⟨s.pos + 1, r.2.1.give l r.1, r.2.2⟩ := by
  rw [step, here, Option.map_eq_bind]
  rfl

theorem kept_give (d : Draft) (h : Held) (i : Item) : Kept d h (h.give d.next i) where
  items l old := if_neg (by rintro rfl; exact Nat.lt_irrefl _ old)
  temps _ _ := rfl

theorem runs_emit {i : Item} (inside : (d.emit n).Within t f)
    (computes : compute σ t f n h w = some (i, h', w')) :
    Runs σ t f ⟨d.codes.length, h, w⟩ ⟨(d.emit n).codes.length, h'.give d.next i, w'⟩ := by
  refine Relation.ReflTransGen.single ?_
  rw [step_eval (s := ⟨d.codes.length, h, w⟩) inside.emit_at, inside.emit_node, computes]
  simp [Draft.emit]

theorem moves_emit {i : Item} (inside : (d.emit n).Within t f)
    (computes : ∀ h (w : W), P h → compute σ t f n h w = some (i, h, w)) :
    Moves σ t f d d.codes.length P (d.emit n).codes.length fun h => h.items d.next = i :=
  fun h w here => ⟨_, runs_emit inside (computes h w here), kept_give d h i, if_pos rfl⟩

/-- Operators that are left to the workings when their operands are values. -/
def applied : Op → Bool
  | .const | .addr | .cmp _ => false
  | _ => true

theorem temp?_eq_none (values : h.values? n = some xs) : h.temp? n = none := by
  unfold Held.values? at values
  unfold Held.temp?
  cases kids : n.kids with
  | nil => rfl
  | cons l ls =>
    rw [kids, List.mapM_cons] at values
    obtain ⟨x, value, -⟩ := Option.bind_eq_some_iff.mp values
    cases item : h.items l with
    | value x => simp [item]
    | temp sym => simp [item, Item.value?] at value

theorem compute_applied (plain : applied n.op = true) (values : h.values? n = some xs) :
    compute σ t f n h w = apply σ n h w := by
  have none_ := temp?_eq_none values
  unfold compute
  cases op : n.op <;> simp_all [applied]

theorem apply_eq (values : h.values? n = some xs) :
    apply σ n h w = (σ.apply { n with left := none, right := none } xs w).map fun r =>
      (.value r.1, h, r.2) := by
  rw [apply, values, Option.map_eq_bind]
  rfl

theorem takes_code {α : Type} {act : W → Option (α × W)} {q : Nat} {next : α → Held → Held}
    {Q : α → Held → Prop} {lin : LinId}
    (here : f.codes[d.codes.length]? = some (.eval lin) ∨
      f.codes[d.codes.length]? = some (.arg lin))
    (stepped : ∀ h w, P h → step σ t f ⟨d.codes.length, h, w⟩ =
      (act w).map fun r => ⟨q, next r.1 h, r.2⟩)
    (kept : ∀ a h, Kept d h (next a h)) (last : ∀ a h, Q a (next a h)) :
    Takes σ t f d d.codes.length P (.ofOption act) (fun _ => q) Q := by
  intro h w start
  have taken := stepped h w start
  unfold Evaluation.ofOption
  cases outcome : act w with
  | some r =>
    rw [outcome] at taken
    exact ⟨_, .single taken, kept r.1 h, last r.1 h⟩
  | none =>
    rw [outcome] at taken
    exact ⟨_, lin, .refl, here, taken⟩

theorem takes_apply (inside : (d.emit n).Within t f) (values : ∀ h, P h → h.values? n = some xs)
    (computes : ∀ h (w : W), P h → compute σ t f n h w = apply σ n h w) :
    Takes σ t f d d.codes.length P (σ.perform { n with left := none, right := none } xs)
      (fun _ => (d.emit n).codes.length) fun x => Has d.next x := by
  refine takes_code (.inl inside.emit_at) (fun h w here => ?_)
    (fun x h => kept_give d h (.value x)) (fun _ _ => if_pos rfl)
  rw [step_eval inside.emit_at, inside.emit_node, computes h w here, apply_eq (values h here),
    Option.map_map]
  simp [Draft.emit, Function.comp_def]

theorem takes_perform (plain : applied n.op = true) (inside : (d.emit n).Within t f)
    (values : ∀ h, P h → h.values? n = some xs) :
    Takes σ t f d d.codes.length P (σ.perform { n with left := none, right := none } xs)
      (fun _ => (d.emit n).codes.length) fun x => Has d.next x :=
  takes_apply inside values fun h _ here => compute_applied plain (values h here)

theorem values?_one {x : Value} (left : n.left = some v) (right : n.right = none) (has : Has v x h) :
    h.values? n = some [x] := by
  simp [Held.values?, LinNode.kids, left, right, show h.items v = _ from has, Item.value?]

theorem values?_two {u : LinId} {x y : Value} (left : n.left = some v) (right : n.right = some u)
    (first : Has v x h) (second : Has u y h) : h.values? n = some [x, y] := by
  simp [Held.values?, LinNode.kids, left, right, show h.items v = _ from first,
    show h.items u = _ from second, Item.value?]

theorem moves_mark {c : Code} (inside : (d.code c).Within t f) (mark : marks c = true) :
    Moves σ t f d d.codes.length P (d.code c).codes.length P :=
  fun h _ here => ⟨h, runs_mark inside rfl mark, .refl d h, here⟩

theorem moves_jump (unique : f.LabelsUnique) {l : Symbol} {p : Nat}
    (inside : (d.code (.jump l)).Within t f) (placed : f.codes[p]? = some (.label l)) :
    Moves σ t f d d.codes.length P p P :=
  fun h _ here => ⟨h, runs_jump unique inside rfl placed, .refl d h, here⟩

theorem moves_branch (unique : f.LabelsUnique) {l : Symbol} {b : Bool} {p : Nat}
    (inside : (d.code (.branch v l)).Within t f) (truth : (f.node v).ty = .int)
    (placed : f.codes[p]? = some (.label l)) :
    Moves σ t f d d.codes.length (Has v (.ofBool b))
      (if b then p else (d.code (.branch v l)).codes.length) fun _ => True := by
  intro h w here
  refine ⟨h, Relation.ReflTransGen.single ?_, .refl d h, trivial⟩
  rw [step, inside.code_at]
  simp only [Option.bind_eq_bind, Option.bind_some, Has.value?_eq (s := ⟨_, h, w⟩) here, truth,
    CType.valueClass, Value.isTrue_ofBool, goto_eq unique placed]
  cases b with
  | true => rfl
  | false => simp [Draft.code, State.next]

section Constants

variable {intern : SymbolTable → Symbol × SymbolTable} {ty : CType} {kind : SymbolKind} {x : Value}

theorem moves_constant (inside : (d.constant intern ty).Within t f)
    (grows : d.symbols.Grows (intern d.symbols).2)
    (made : (intern d.symbols).2.kind (intern d.symbols).1 = kind)
    (known : (intern d.symbols).1.index < (intern d.symbols).2.size)
    (value : ∀ t' : SymbolTable, t'.kind (intern d.symbols).1 = kind →
      t'.valueAt ty.valueClass (intern d.symbols).1 = some x) :
    Moves σ t f d d.codes.length P (d.constant intern ty).codes.length (Has d.next x) := by
  have found := value t ((inside.symbols.kind_eq known).trans made)
  have moves : Moves σ t f _ _ P _ _ := moves_emit (σ := σ) (i := .value x) inside
    fun h w _ => by simp [compute, found]
  exact moves.weaken ⟨List.prefix_rfl, List.prefix_rfl, grows⟩

def zeroOf (ty : CType) : Value := if ty.isFloat then .float .zero else .ofBool false

theorem isZero_zeroOf (ty : CType) : (zeroOf ty).IsZero := by
  unfold zeroOf Value.IsZero
  split
  · decide
  · decide

theorem moves_zero (inside : (d.zero ty).Within t f) :
    Moves σ t f d d.codes.length P (d.zero ty).codes.length (Has d.next (zeroOf ty)) := by
  unfold Draft.zero at inside ⊢
  cases floating : ty.isFloat with
  | true =>
    simp only [floating, if_true] at inside ⊢
    have made := d.symbols.kind_intern (Double.zero.render Double.constantName)
      (.floatConst .zero) ty
    refine moves_constant inside (SymbolTable.grows_intern _ _ _ _) made.1 made.2 fun t' kind => ?_
    simp [SymbolTable.valueAt, kind, zeroOf, floating]
  | false =>
    simp only [floating, if_false, Bool.false_eq_true] at inside ⊢
    have made := d.symbols.kind_intern (toString (0 : Int)) (.intConst 0) ty
    refine moves_constant inside (SymbolTable.grows_intern _ _ _ _) made.1 made.2 fun t' kind => ?_
    simp only [SymbolTable.valueAt, kind, zeroOf, floating]
    cases ty <;> rfl

theorem moves_one (inside : d.one.Within t f) :
    Moves σ t f d d.codes.length P d.one.codes.length (Has d.next (.ofBool true)) := by
  have made := d.symbols.kind_intern (toString (1 : Int)) (.intConst 1) .int
  refine moves_constant inside (SymbolTable.grows_intern _ _ _ _) made.1 made.2 fun t' kind => ?_
  simp only [SymbolTable.valueAt, kind]
  rfl

end Constants

section Temporaries

variable {sym : Symbol} {ty : CType} {x : Value}

theorem moves_temp (inside : (d.addr sym).Within t f) (temp : t.kind sym = .temp) :
    Moves σ t f d d.codes.length P (d.addr sym).codes.length
      fun h => h.items d.next = .temp sym :=
  moves_emit inside fun h w _ => by simp [compute, temp]

theorem moves_store (inside : (d.store sym ty v).Within t f) (temp : t.kind sym = .temp)
    (old : v.index < d.nodes.length) (grows : d₀.Grows d) (new : d₀.symbols.size ≤ sym.index) :
    Moves σ t f d₀ d.codes.length (Has v x) (d.store sym ty v).codes.length (Stored sym x) := by
  have addressed : (d.addr sym).Within t f := inside.of_grows ((Draft.Grows.refl _).emit _)
  intro h w here
  obtain ⟨h₁, run, kept, address, has⟩ := (moves_temp addressed temp).keep (lasting_has old x)
    (fun _ here => ⟨here, here⟩) h w here
  have computes : compute σ t f { op := .assign, ty, left := some d.next, right := some v } h₁ w =
      some (.value x, h₁.setTemp sym x, w) := by
    simp [compute, Held.temp?, LinNode.kids, address, show h₁.items v = _ from has]
  refine ⟨_, run.trans (runs_emit inside computes), ⟨fun l before => ?_, fun k before => ?_⟩,
    if_pos rfl⟩
  · have below := Nat.lt_of_lt_of_le before grows.nodes.length_le
    have other : l ≠ (d.addr sym).next := by
      rintro rfl
      exact absurd below (by simp [Draft.addr, Draft.emit, Draft.next])
    exact (if_neg other).trans (kept.items l below)
  · have other : k ≠ sym := by
      rintro rfl
      exact Nat.not_le_of_lt before new
    exact (if_neg other).trans
      (kept.temps k (Nat.lt_of_lt_of_le before grows.symbols.size_le))

theorem moves_load (inside : (d.load sym ty).Within t f) (temp : t.kind sym = .temp)
    (old : sym.index < d.symbols.size) :
    Moves σ t f d d.codes.length (Stored sym x) (d.load sym ty).codes.length
      (Has (d.addr sym).next (x.readAt ty.valueClass)) := by
  have addressed : (d.addr sym).Within t f := inside.of_grows ((Draft.Grows.refl _).emit _)
  have first := (moves_temp (σ := σ) addressed temp).keep (lasting_stored old x)
    fun _ here => ⟨here, here⟩
  refine first.trans (moves_emit inside fun h w here => ?_) ((Draft.Grows.refl _).emit _)
  simp [compute, Held.temp?, LinNode.kids, here.1, show h.temps sym = _ from here.2]

end Temporaries

theorem takes_arg {ty : CType} {x : Value} (inside : (d.code (.arg v)).Within t f)
    (node : (f.node v).ty = ty) :
    Takes σ t f d d.codes.length (Has v x) (σ.push ty x)
      (fun _ => (d.code (.arg v)).codes.length) fun _ _ => True := by
  refine takes_code (.inr inside.code_at) (fun h w here => ?_)
    (fun (_ : Unit) h => Kept.refl d h) (fun _ _ => trivial)
  rw [step, inside.code_at]
  simp only [Option.bind_eq_bind, Option.bind_some, Has.value?_eq (s := ⟨_, h, w⟩) here, node]
  cases σ.pass ty x w with
  | none => rfl
  | some w' => simp [Draft.code, State.next]

section Comparisons

variable {cond : Cond} {l r : LinId} {x y : Value}

theorem judge_negate (cond : Cond) (o : Option Ordering) :
    (Evaluation.judge cond o : Evaluation W Bool) = do return !(← .judge cond.negate o) := by
  funext w
  change Evaluation.judge cond o w = Evaluation.judge cond.negate o w >>= fun r => .ok (!r.1, r.2)
  unfold Evaluation.judge
  rw [cond.orders_negate]
  split
  · rfl
  · rename_i decided
    have negated := (cond.test_negate_iff o).mpr fun unordered => by simpa [unordered] using decided
    rw [negated]
    simp [Bind.bind, Except.bind]

theorem moves_comparison (inside : (d.comparison cond l r).Within t f)
    (left : ∀ h, P h → Has l x h) (right : ∀ h, P h → Has r y h) :
    Moves σ t f d d.codes.length P (d.comparison cond l r).codes.length
      (Has d.next (.ofBool (cond.test (x.order (f.node l).ty.valueClass y)))) := by
  refine moves_emit inside fun h w here => ?_
  have values : h.values? { op := .cmp cond, ty := .int, left := some l, right := some r } =
      some [x, y] := values?_two rfl rfl (left h here) (right h here)
  simp only [compute, values]
  rfl

theorem takes_judge (unique : f.LabelsUnique) {target : Symbol} {p : Nat}
    (inside : ((d.comparison cond l r).code (.branch d.next target)).Within t f)
    (left : ∀ h, P h → Has l x h) (right : ∀ h, P h → Has r y h)
    (placed : f.codes[p]? = some (.label target)) :
    Takes σ t f d d.codes.length P (.judge cond (x.order (f.node l).ty.valueClass y))
      (fun b => if b then p else
        ((d.comparison cond l r).code (.branch d.next target)).codes.length) fun _ _ => True := by
  have compared := inside.of_grows ((Draft.Grows.refl _).code (.branch d.next target))
  have node : f.node d.next = _ := compared.emit_node
  have grows : d.Grows (d.comparison cond l r) := (Draft.Grows.refl d).emit _
  have run := (moves_comparison (σ := σ) compared left right).trans
    (moves_branch unique inside (by rw [node]) placed) grows
  intro h w here
  unfold Evaluation.judge
  split
  · rename_i unordered
    have next : f.codes[d.codes.length + 1]? = some (.branch d.next target) := by
      have there := inside.code_at
      simpa [Draft.comparison, Draft.emit] using there
    refine ⟨_, d.next, target, cond, x, y, .refl, compared.emit_at, next, ?_, unordered.2, ?_, ?_⟩
    · rw [node]
    · rw [node]
      exact values?_two rfl rfl (left h here) (right h here)
    · rw [node]
      exact unordered.1
  · exact run h w here

theorem takes_compare (unique : f.LabelsUnique) {yes no : Option Symbol} {py pn : Nat}
    (inside : (d.compare cond l r yes no).Within t f) (labelled : yes.isSome ∨ no.isSome)
    (left : ∀ h, P h → Has l x h) (right : ∀ h, P h → Has r y h)
    (toYes : f.Lands yes (d.compare cond l r yes no).codes.length py)
    (toNo : f.Lands no (d.compare cond l r yes no).codes.length pn) :
    Takes σ t f d d.codes.length P (.judge cond (x.order (f.node l).ty.valueClass y))
      (fun b => if b then py else pn) fun _ _ => True := by
  match yes, no with
  | some y', some n' =>
    have branched := inside.of_grows ((Draft.Grows.refl _).code (.jump n'))
    have grows : d.Grows ((d.comparison cond l r).code (.branch d.next y')) :=
      ((Draft.Grows.refl d).emit _).code _
    refine (takes_judge unique branched left right toYes).moves (fun b => ?_) grows
    cases b with
    | true => exact .refl _ _
    | false => exact moves_jump unique inside toNo
  | some y', none =>
    obtain rfl := toNo
    exact takes_judge unique inside left right toYes
  | none, some n' =>
    obtain rfl := toYes
    rw [judge_negate]
    refine (takes_judge unique inside left right toNo).bind
      (fun b => Takes.pure ?_ fun _ _ => trivial) (.refl d)
    cases b with
    | true => rfl
    | false => rfl
  | none, none => simp at labelled

theorem moves_test (unique : f.LabelsUnique) {ty : CType} {yes no : Option Symbol} {py pn : Nat}
    (inside : (d.test ty v yes no).Within t f) (labelled : yes.isSome ∨ no.isSome)
    (old : v.index < d.nodes.length) (toYes : f.Lands yes (d.test ty v yes no).codes.length py)
    (toNo : f.Lands no (d.test ty v yes no).codes.length pn) :
    Moves σ t f d d.codes.length (Has v x)
      (if x.isTrue (f.node v).ty.valueClass then py else pn) fun _ => True := by
  have zeroed := inside.of_grows ((Draft.Grows.refl _).compare .ne v d.next yes no)
  have zero := (moves_zero (σ := σ) zeroed).keep (lasting_has old x) fun _ here => ⟨here, here⟩
  refine zero.trans ?_ ((Draft.Grows.refl d).zero ty)
  have compared := takes_compare (σ := σ) (P := fun h => Has d.next (zeroOf ty) h ∧ Has v x h)
    unique inside labelled (fun _ here => here.2) (fun _ here => here.1) toYes toNo
  exact compared.settled fun w => by
    simp [Evaluation.judge, Cond.orders, (Value.test_zero (isZero_zeroOf ty) _ x).2]

end Comparisons

end CBackend.Conditions
