import CBackend.Proofs.Lowering.Structure
import CBackend.Proofs.Selection.ValueTypes
import CBackend.Proofs.Semantics.Typing

/-!
Trees over scalar types, and the types of the linear nodes they become. Where a value is needed in a
register it must not be the address of a variable under another type than a pointer; lowering adds
no such place of its own.
-/

namespace CBackend

/-- The value is the address of a variable that no operator has loaded. -/
def Expr.isAddress : Expr → Bool
  | .addr .. => true
  | .assign _ _ x | .comma _ _ x => x.isAddress
  | .cast tag x => tag.ty.isInteger && decide (tag.ty.size ≤ x.ty.size) && x.isAddress
  | _ => false

def Expr.loads (e : Expr) : Bool :=
  e.ty.valueClass.isScalar && (!e.isAddress || decide (e.ty.valueClass = .u32))

def CType.cutsFrom (ty srcTy : CType) : Bool :=
  ty.isInteger && srcTy.isInteger && decide (ty.size ≤ srcTy.size)

/-- The type of what an operator gives: one it computes in, or that of a truth value. -/
def CType.resultsFrom (ty : CType) : Option Op → Bool
  | some o => o.computesIn ty.valueClass
  | none => decide (ty = .int)

mutual

/-- An expression over scalar types: operators are used at types that have them, a stored value has
the class of its target or is narrowed, and values that are computed with can be loaded. -/
def Expr.selectable : Expr → Bool
  | .const tag _ => tag.ty.valueClass.isScalar
  | .addr tag _ => decide (tag.ty.valueClass = .u32)
  | .deref tag a => tag.ty.valueClass.isScalar && a.ty.isInteger && a.selectable
  | .unary tag op x => tag.ty.resultsFrom op.arith? && x.loads && x.selectable
  | .binary tag op a b =>
    tag.ty.resultsFrom op.arith? && a.loads && a.selectable && b.loads && b.selectable
  | .assign tag a v =>
    tag.ty.valueClass.isScalar && a.ty.isInteger && a.selectable && v.loads && v.selectable &&
      (v.ty.alike tag.ty || narrows tag.ty v.ty)
  | .cond tag c a b =>
    c.loads && c.selectable && a.selectable && b.selectable &&
      (decide (tag.ty = .void) || tag.ty.valueClass.isScalar && a.loads && b.loads)
  | .call tag callee args =>
    (decide (tag.ty = .void) || tag.ty.valueClass.isScalar) && callee.ty.isInteger &&
      callee.selectable && Expr.selectableArgs args
  | .cast tag x =>
    x.selectable && (decide (tag.ty = .void) || tag.ty.valueClass.isScalar &&
      x.ty.valueClass.isScalar && (x.loads || tag.ty.cutsFrom x.ty))
  | .comma tag a b => a.selectable && b.selectable && b.ty.alike tag.ty

def Expr.selectableArgs : List Expr → Bool
  | [] => true
  | e :: es => e.loads && e.selectable && Expr.selectableArgs es

end

theorem Expr.selectableArgs_iff {es : List Expr} :
    Expr.selectableArgs es = true ↔ ∀ e ∈ es, e.loads = true ∧ e.selectable = true := by
  induction es with
  | nil => simp [Expr.selectableArgs]
  | cons e es ih => simp [Expr.selectableArgs, ih]

section

variable (t : SymbolTable)

def Decl.selectable (d : Decl) : Bool :=
  d.init.all fun e => (t.ty d.sym).valueClass.isScalar && e.loads && e.selectable

mutual

def Stmt.selectable : Stmt → Bool
  | .expr e => e.selectable
  | .when c body | .while c body => c.loads && c.selectable && body.selectable
  | .ifElse c a b => c.loads && c.selectable && a.selectable && b.selectable
  | .block decls body => decls.all (Decl.selectable t) && Stmt.selectableAll body
  | .ret (some e) => e.loads && e.selectable
  | .ret none | .break | .continue => true

def Stmt.selectableAll : List Stmt → Bool
  | [] => true
  | s :: ss => s.selectable && Stmt.selectableAll ss

end

end

def FunctionDef.Selectable (d : FunctionDef) (t : SymbolTable) : Prop := d.body.selectable t = true

instance (d : FunctionDef) (t : SymbolTable) : Decidable (d.Selectable t) :=
  inferInstanceAs (Decidable (d.body.selectable t = true))

def Loadable (keys : List ValueKey) (l : LinId) : Prop :=
  ∃ ty b, HasType keys ⟨l.index⟩ ty b ∧ ty.Loads b

theorem Loadable.mono {keys keys' : List ValueKey} {l : LinId} (loadable : Loadable keys l)
    (grown : keys <+: keys') : Loadable keys' l := by
  obtain ⟨ty, b, typed, loads⟩ := loadable
  exact ⟨ty, b, typed.mono grown, loads⟩

theorem HasType.loadable {keys : List ValueKey} {l : LinId} {ty : CType}
    (typed : HasType keys ⟨l.index⟩ ty false) (scalar : ty.valueClass.isScalar = true) :
    Loadable keys l :=
  ⟨ty, false, typed, scalar, fun no => absurd no (by decide)⟩

/-- The operands of a code have types that the code takes. -/
def Code.Fits (keys : List ValueKey) : Code → Prop
  | .eval l => HasType.Stores keys ⟨l.index⟩ ∨ ∃ ty b, HasType keys ⟨l.index⟩ ty b
  | .arg l | .ret (some l) => Loadable keys l
  | .branch l _ => ∃ ty b, HasType keys ⟨l.index⟩ ty b
  | .zeroFill l _ => ∃ ty b, HasType keys ⟨l.index⟩ ty b ∧ ty.valueClass.isScalar = true
  | _ => True

theorem Code.Fits.mono {keys keys' : List ValueKey} {c : Code} (fits : c.Fits keys)
    (grown : keys <+: keys') : c.Fits keys' := by
  unfold Code.Fits at fits ⊢
  split
  · rcases fits with stores | ⟨ty, b, typed⟩
    · exact .inl (stores.mono grown)
    · exact .inr ⟨ty, b, typed.mono grown⟩
  · exact Loadable.mono fits grown
  · exact Loadable.mono fits grown
  · obtain ⟨ty, b, typed⟩ := fits
    exact ⟨ty, b, typed.mono grown⟩
  · obtain ⟨ty, b, typed, scalar⟩ := fits
    exact ⟨ty, b, typed.mono grown, scalar⟩
  · trivial

theorem Expr.loads_iff {e : Expr} : e.loads = true ↔
    e.ty.valueClass.isScalar = true ∧ (e.isAddress = true → e.ty.valueClass = .u32) := by
  rw [Expr.loads, Bool.and_eq_true, Bool.or_eq_true, Bool.not_eq_true', decide_eq_true_eq,
    ← Bool.not_eq_true, imp_iff_not_or]

theorem CType.ne_void_of_isScalar {ty : CType} (scalar : ty.valueClass.isScalar = true) :
    ty ≠ .void := by
  rintro rfl
  cases scalar

theorem CType.cutsFrom_of_narrows {ty srcTy : CType} (narrow : narrows ty srcTy = true) :
    ty.cutsFrom srcTy = true := by
  simp only [narrows, Bool.and_eq_true, decide_eq_true_eq] at narrow
  simp [cutsFrom, narrow.1, Nat.le_of_lt narrow.2]

theorem Expr.isAddress_cast {tag : NodeTag} {x : Expr} (cuts : tag.ty.cutsFrom x.ty = true)
    (address : x.isAddress = true) : (Expr.cast tag x).isAddress = true := by
  simp only [CType.cutsFrom, Bool.and_eq_true] at cuts
  simp [isAddress, cuts.1.1, of_decide_eq_true cuts.2, address]

theorem Expr.loads_of_comma {tag : NodeTag} {a b : Expr} (alike : b.ty.alike tag.ty = true)
    (loads : (Expr.comma tag a b).loads = true) : b.loads = true := by
  have alike : b.ty.valueClass = tag.ty.valueClass := of_decide_eq_true alike
  rw [Expr.loads, isAddress, show (Expr.comma tag a b).ty = tag.ty from rfl, ← alike] at loads
  exact loads

theorem SymbolTable.Grows.ty_of_isScalar {t t' : SymbolTable} {sym : Symbol} (grows : t.Grows t')
    (scalar : (t.ty sym).valueClass.isScalar = true) : t'.ty sym = t.ty sym := by
  refine grows.ty_eq (Nat.lt_of_not_le fun outside => ?_)
  rw [ty, entry, Array.getD_eq_getD_getElem?, Array.getElem?_eq_none outside] at scalar
  cases scalar

def Expr.Delivers (e : Expr) (keys : List ValueKey) (l : LinId) : Prop :=
  ∃ ty b, HasType keys ⟨l.index⟩ ty b ∧
    (e.ty ≠ .void → ty.valueClass = e.ty.valueClass ∧ (b = true → e.isAddress = true))

namespace Expr.Delivers

variable {e : Expr} {keys keys' : List ValueKey} {l : LinId}

theorem mono (delivers : e.Delivers keys l) (grown : keys <+: keys') : e.Delivers keys' l := by
  obtain ⟨ty, b, typed, same⟩ := delivers
  exact ⟨ty, b, typed.mono grown, same⟩

theorem loadable (delivers : e.Delivers keys l) (loads : e.loads = true) : Loadable keys l := by
  obtain ⟨ty, b, typed, same⟩ := delivers
  obtain ⟨scalar, pointer⟩ := Expr.loads_iff.mp loads
  obtain ⟨same, address⟩ := same (CType.ne_void_of_isScalar scalar)
  exact ⟨ty, b, typed, same ▸ scalar, fun unloaded => same ▸ pointer (address unloaded)⟩

theorem pointer (delivers : e.Delivers keys l) (integer : e.ty.isInteger = true) :
    ∃ ty b, HasType keys ⟨l.index⟩ ty b ∧ ty.valueClass.isScalar = true := by
  obtain ⟨ty, b, typed, same⟩ := delivers
  have scalar := CType.isScalar_of_isInteger integer
  exact ⟨ty, b, typed, (same (CType.ne_void_of_isScalar scalar)).1 ▸ scalar⟩

theorem passed {e' : Expr} (delivers : e.Delivers keys l)
    (alike : e.ty.valueClass = e'.ty.valueClass)
    (address : e.isAddress = true → e'.isAddress = true) : e'.Delivers keys l := by
  obtain ⟨ty, b, typed, same⟩ := delivers
  refine ⟨ty, b, typed, fun valued => ?_⟩
  obtain ⟨same, unloaded⟩ := same (CType.ne_void_of_alike alike valued)
  exact ⟨same.trans alike, fun here => address (unloaded here)⟩

theorem cast {tag : NodeTag} (delivers : e.Delivers keys l)
    (kept : tag.ty = .void ∨ e.ty.valueClass = tag.ty.valueClass)
    (converts : (decide (tag.ty = .void) || tag.ty.valueClass.isScalar &&
      e.ty.valueClass.isScalar && (e.loads || tag.ty.cutsFrom e.ty)) = true) :
    (Expr.cast tag e).Delivers keys l := by
  by_cases void : tag.ty = .void
  · obtain ⟨ty, b, typed, -⟩ := delivers
    exact ⟨ty, b, typed, fun valued => absurd void valued⟩
  have alike := kept.resolve_left void
  refine delivers.passed alike fun address => Expr.isAddress_cast ?_ address
  rw [decide_eq_false void, Bool.false_or, Bool.and_eq_true, Bool.or_eq_true] at converts
  refine converts.2.elim (fun loads => ?_) id
  -- An address that is loaded is a pointer, and so is what it is cast to.
  have pointer := (Expr.loads_iff.mp loads).2 address
  have integer : tag.ty.isInteger = true := by
    rw [CType.isInteger_eq, ← alike, pointer]
    rfl
  simp [CType.cutsFrom, integer, (CType.isInteger_of_alike alike).mpr integer,
    CType.size_of_alike alike integer]

end Expr.Delivers

namespace Draft

variable {t : SymbolTable} {tree : List Expr} {d d' : Draft} {l r v : LinId} {sym : Symbol}
  {ty : CType}

def keys (d : Draft) : List ValueKey := d.nodes.map LinNode.key

theorem Grows.keys (grows : d.Grows d') : d.keys <+: d'.keys := grows.nodes.map _

theorem keys_emit (d : Draft) (n : LinNode) : d.keys <+: (d.emit n).keys :=
  ((Grows.refl d).emit n).keys

theorem found_emit (d : Draft) (n : LinNode) : (d.emit n).keys[d.next.index]? = some n.key := by
  simp [keys, emit, next]

structure Fitting (t : SymbolTable) (tree : List Expr) (d : Draft) : Prop where
  table : t.Grows d.symbols
  codes : ∀ c ∈ d.codes, c.Fits d.keys
  noted : ∀ e ∈ tree, ∀ l, d.done.lookup e.number = some l → e.Delivers d.keys l

namespace Fitting

theorem code (fitting : d.Fitting t tree) {c : Code} (fits : c.Fits d.keys) :
    (d.code c).Fitting t tree := by
  refine ⟨fitting.table, fun c' inside => ?_, fitting.noted⟩
  rcases List.mem_append.mp inside with old | new
  · exact fitting.codes c' old
  · cases List.mem_singleton.mp new
    exact fits

theorem emit (fitting : d.Fitting t tree) {n : LinNode}
    (fits : (Code.eval d.next).Fits (d.emit n).keys) : (d.emit n).Fitting t tree := by
  have grown := d.keys_emit n
  refine ⟨fitting.table, fun c inside => ?_, fun e inside l known => ?_⟩
  · rcases List.mem_append.mp inside with old | new
    · exact (fitting.codes c old).mono grown
    · cases List.mem_singleton.mp new
      exact fits
  · exact (fitting.noted e inside l known).mono grown

theorem operator (fitting : d.Fitting t tree) {n : LinNode} {b : Bool}
    (typed : HasType (d.emit n).keys ⟨d.next.index⟩ ty b) : (d.emit n).Fitting t tree :=
  fitting.emit (.inr ⟨ty, b, typed⟩)

theorem enter (fitting : d.Fitting t tree) {symbols : SymbolTable}
    (more : d.symbols.Grows symbols) : Fitting t tree { d with symbols } :=
  ⟨fitting.table.trans more, fitting.codes, fitting.noted⟩

theorem label (fitting : d.Fitting t tree) : d.label.Fitting t tree :=
  fitting.enter (SymbolTable.grows_push _ _ _ _)

theorem temp (fitting : d.Fitting t tree) (ty : CType) : (d.temp ty).Fitting t tree :=
  (fitting.enter (SymbolTable.grows_temp _ ty)).code trivial

theorem place (fitting : d.Fitting t tree) (sym : Symbol) : (d.place sym).Fitting t tree :=
  fitting.code trivial

theorem jumpTo (fitting : d.Fitting t tree) (target : Option Symbol) :
    (d.jumpTo target).Fitting t tree := by
  cases target with
  | none => exact fitting
  | some target => exact fitting.code trivial

theorem settle {e : Expr} (fitting : d.Fitting t tree) (same : SameNodes tree) (within : e ∈ tree)
    (delivers : e.Delivers d.keys l) : (d.settle e.number l).Fitting t tree := by
  refine ⟨fitting.table, fitting.codes, fun x inside l' known => ?_⟩
  rw [lookup_settle] at known
  split at known
  · rename_i equal
    cases known
    rw [same x inside e within equal]
    exact delivers
  · exact fitting.noted x inside l' known

end Fitting

theorem typed_addr (d : Draft) (sym : Symbol) :
    HasType (d.addr sym).keys ⟨d.next.index⟩ .pointer true :=
  .addr (d.found_emit _) rfl

theorem Fitting.addr (fitting : d.Fitting t tree) (sym : Symbol) : (d.addr sym).Fitting t tree :=
  fitting.operator (d.typed_addr sym)

theorem typed_constant (d : Draft) (intern : SymbolTable → Symbol × SymbolTable) (ty : CType) :
    HasType (d.constant intern ty).keys ⟨d.next.index⟩ ty false :=
  .const (found_emit { d with symbols := (intern d.symbols).2 } _) rfl

theorem Fitting.constant (fitting : d.Fitting t tree) {intern : SymbolTable → Symbol × SymbolTable}
    (more : d.symbols.Grows (intern d.symbols).2) (ty : CType) :
    (d.constant intern ty).Fitting t tree :=
  (fitting.enter more).operator (d.typed_constant intern ty)

theorem Fitting.one (fitting : d.Fitting t tree) : d.one.Fitting t tree :=
  fitting.constant (SymbolTable.grows_intern _ _ _ _) .int

theorem typed_zero (d : Draft) (ty : CType) : HasType (d.zero ty).keys ⟨d.next.index⟩ ty false :=
  d.typed_constant _ ty

theorem Fitting.zero (fitting : d.Fitting t tree) (ty : CType) : (d.zero ty).Fitting t tree := by
  refine fitting.constant ?_ ty
  split
  · exact SymbolTable.grows_intern _ _ _ _
  · exact SymbolTable.grows_intern _ _ _ _

theorem typed_load (d : Draft) (sym : Symbol) (ty : CType) :
    HasType (d.load sym ty).keys ⟨(d.addr sym).next.index⟩ ty false :=
  .load ((d.addr sym).found_emit _) rfl rfl ((d.typed_addr sym).mono ((d.addr sym).keys_emit _)) rfl

theorem Fitting.store (fitting : d.Fitting t tree) (sym : Symbol)
    (scalar : ty.valueClass.isScalar = true) (value : Loadable d.keys v) : (d.store sym ty v).Fitting t tree := by
  have grown := (d.addr sym).keys_emit { op := .assign, ty, left := some d.next, right := some v }
  obtain ⟨ty', b, typed, loads⟩ := value
  refine (fitting.addr sym).emit (.inl ?_)
  exact .intro ((d.addr sym).found_emit _) rfl scalar rfl rfl ((d.typed_addr sym).mono grown) rfl
    (typed.mono ((d.keys_emit _).trans grown)) loads

theorem Fitting.assign {a e : Expr} (fitting : d.Fitting t tree)
    (scalar : ty.valueClass.isScalar = true) (address : a.Delivers d.keys l)
    (integer : a.ty.isInteger = true) (value : e.Delivers d.keys v) (loads : e.loads = true) :
    (d.emit { op := .assign, ty, left := some l, right := some v }).Fitting t tree := by
  obtain ⟨ty', b, pointer, plain⟩ := address.pointer integer
  obtain ⟨ty'', b', typed, loads⟩ := value.loadable loads
  refine fitting.emit (.inl ?_)
  exact .intro (d.found_emit _) rfl scalar rfl rfl (pointer.mono (d.keys_emit _)) plain
    (typed.mono (d.keys_emit _)) loads

theorem typed_comparison (cond : Cond) (first : Loadable d.keys l) (second : Loadable d.keys r) :
    HasType (d.comparison cond l r).keys ⟨d.next.index⟩ .int false := by
  obtain ⟨ty, b, typed, loads⟩ := first
  obtain ⟨ty', b', typed', loads'⟩ := second
  exact .cmp (d.found_emit _) rfl rfl rfl rfl (typed.mono (d.keys_emit _)) loads
    (typed'.mono (d.keys_emit _)) loads'

theorem Fitting.compare (fitting : d.Fitting t tree) (cond : Cond) (first : Loadable d.keys l)
    (second : Loadable d.keys r) (yes no : Option Symbol) :
    (d.compare cond l r yes no).Fitting t tree := by
  have branch (cond : Cond) (target : Symbol) :
      ((d.comparison cond l r).code (.branch d.next target)).Fitting t tree := by
    have typed := typed_comparison cond first second
    exact (fitting.operator typed).code ⟨_, _, typed⟩
  match yes, no with
  | some yes, some no => exact (branch cond yes).code trivial
  | some yes, none => exact branch cond yes
  | none, some no => exact branch cond.negate no
  | none, none => exact fitting

theorem Fitting.test {e : Expr} (fitting : d.Fitting t tree) (delivers : e.Delivers d.keys v)
    (loads : e.loads = true) (yes no : Option Symbol) :
    (d.test e.ty v yes no).Fitting t tree := by
  have value := (delivers.loadable loads).mono ((Grows.refl d).zero e.ty).keys
  have zero := (d.typed_zero e.ty).loadable (Expr.loads_iff.mp loads).1
  exact (fitting.zero e.ty).compare .ne value zero yes no

theorem Fitting.declare (fitting : d.Fitting t tree) (sym : Symbol) (zeroFill : Bool) :
    Fitting t tree
      (if zeroFill then (d.code (.declare sym)).clear sym else d.code (.declare sym)) := by
  have declared : (d.code (.declare sym)).Fitting t tree := fitting.code trivial
  cases zeroFill with
  | false => exact declared
  | true => exact (declared.addr sym).code ⟨_, _, typed_addr _ sym, rfl⟩

theorem typed_unary {o : Op} (op : o = .neg ∨ o = .compl)
    (computes : o.computesIn ty.valueClass = true) (operand : Loadable d.keys v) :
    HasType (d.emit { op := o, ty, left := some v }).keys ⟨d.next.index⟩ ty false := by
  obtain ⟨ty', b, typed, loads⟩ := operand
  exact .unary (d.found_emit _) op computes rfl (typed.mono (d.keys_emit _)) loads

theorem typed_binary {o : Op} (op : o.isBinary = true)
    (computes : o.computesIn ty.valueClass = true) (first : Loadable d.keys l)
    (second : Loadable d.keys r) :
    HasType (d.emit { op := o, ty, left := some l, right := some r }).keys ⟨d.next.index⟩ ty
      false := by
  obtain ⟨ty', b, typed, loads⟩ := first
  obtain ⟨ty'', b', typed', loads'⟩ := second
  exact .binary (d.found_emit _) op computes rfl rfl (typed.mono (d.keys_emit _)) loads
    (typed'.mono (d.keys_emit _)) loads'

theorem typed_narrow {x : Expr} (delivers : x.Delivers d.keys v) (cuts : ty.cutsFrom x.ty = true) :
    ∃ b, HasType (d.emit { op := .cvt, ty, left := some v }).keys ⟨d.next.index⟩ ty b ∧
      (b = true → x.isAddress = true) := by
  simp only [CType.cutsFrom, Bool.and_eq_true, decide_eq_true_eq] at cuts
  obtain ⟨⟨target, source⟩, narrower⟩ := cuts
  obtain ⟨ty', b, typed, same⟩ := delivers
  obtain ⟨alike, address⟩ :=
    same (CType.ne_void_of_isScalar (CType.isScalar_of_isInteger source))
  rw [← CType.size_of_alike alike source] at narrower
  refine ⟨b, ?_, address⟩
  exact .narrow (d.found_emit _) rfl rfl (typed.mono (d.keys_emit _))
    ((CType.isInteger_of_alike alike).mpr source) target narrower

theorem typed_convert {x : Expr} (delivers : x.Delivers d.keys v) (loads : x.loads = true)
    (scalar : ty.valueClass.isScalar = true) (differs : x.ty.valueClass ≠ ty.valueClass)
    (widens : ty.cutsFrom x.ty = false) :
    HasType (d.emit { op := .cvt, ty, left := some v }).keys ⟨d.next.index⟩ ty false := by
  obtain ⟨ty', b, typed, same⟩ := delivers
  obtain ⟨source, pointer⟩ := Expr.loads_iff.mp loads
  obtain ⟨alike, address⟩ := same (CType.ne_void_of_isScalar source)
  refine .convert (d.found_emit _) rfl rfl (typed.mono (d.keys_emit _)) ⟨alike ▸ source, ?_⟩ scalar
    (alike ▸ differs) fun integer target => ?_
  · exact fun unloaded => alike ▸ pointer (address unloaded)
  · have source := (CType.isInteger_of_alike alike).mp integer
    change ty.isInteger = true at target
    change ty'.size < ty.size
    rw [CType.size_of_alike alike source]
    simpa [CType.cutsFrom, target, source] using widens

theorem Fitting.compute {e : Expr} {n : LinNode} {b : Bool} (fitting : d.Fitting t tree)
    (typed : HasType (d.emit n).keys ⟨d.next.index⟩ n.ty b) (ty : n.ty = e.ty)
    (address : b = true → e.isAddress = true) :
    (d.emit n).Fitting t tree ∧ e.Delivers (d.emit n).keys d.next :=
  ⟨fitting.operator typed, n.ty, b, typed, fun _ => ⟨ty ▸ rfl, address⟩⟩

theorem Fitting.result {e : Expr} {n : LinNode} (fitting : d.Fitting t tree)
    (typed : HasType (d.emit n).keys ⟨d.next.index⟩ n.ty false) (ty : n.ty = e.ty) :
    (d.emit n).Fitting t tree ∧ e.Delivers (d.emit n).keys d.next :=
  fitting.compute typed ty fun no => absurd no (by decide)

end Draft

theorem UnaryOp.arith?_eq_neg_or_compl {op : UnaryOp} {o : Op} (arith : op.arith? = some o) :
    o = .neg ∨ o = .compl := by
  cases op <;> cases arith
  · exact .inl rfl
  · exact .inr rfl

theorem BinaryOp.isBinary_of_arith? {op : BinaryOp} {o : Op} (arith : op.arith? = some o) :
    o.isBinary = true := by
  cases op <;> cases arith <;> rfl

def Task.Selectable (t : SymbolTable) : Task → Prop
  | .value e _ | .compute e _ | .effect e => e.selectable = true
  | .branch e _ _ | .jump e _ _ => e.loads = true ∧ e.selectable = true
  | .choose c a b =>
    (c.loads = true ∧ c.selectable = true) ∧ a.selectable = true ∧ b.selectable = true
  | .args es _ => ∀ e ∈ es, e.loads = true ∧ e.selectable = true
  | .decls ds => ds.all (Decl.selectable t) = true
  | .stmt _ _ s => s.selectable t = true
  | .stmts _ _ ss => Stmt.selectableAll t ss = true

def Task.Delivers (keys : List ValueKey) : Task → Prop
  | .value e id | .compute e id => e.Delivers keys id
  | _ => True

/-- A part over scalar types is added with types throughout. -/
def Task.Fits (t : SymbolTable) (tree : List Expr) (task : Task) (d d' : Draft) : Prop :=
  task.nodes ⊆ tree → task.Selectable t → d.Fitting t tree →
    d'.Fitting t tree ∧ task.Delivers d'.keys

namespace Task.Fits

variable {t : SymbolTable} {tree : List Expr} {d d₁ d₂ : Draft} {tag : NodeTag} {a b : Expr}
  {v w : LinId}

theorem operands {op : BinaryOp} (left : Task.Fits t tree (.value a v) d d₁)
    (right : Task.Fits t tree (.value b w) d₁ d₂) (grows : d₁.Grows d₂)
    (within : (Expr.binary tag op a b).nodes ⊆ tree)
    (selectable : (Expr.binary tag op a b).selectable = true) (fitting : d.Fitting t tree) :
    d₂.Fitting t tree ∧ Loadable d₂.keys v ∧ Loadable d₂.keys w ∧
      tag.ty.resultsFrom op.arith? = true := by
  simp only [Expr.selectable, Bool.and_eq_true] at selectable
  obtain ⟨⟨⟨⟨result, loads₁⟩, selectable₁⟩, loads₂⟩, selectable₂⟩ := selectable
  obtain ⟨fitting, first⟩ := left (Expr.within_kid within List.mem_cons_self) selectable₁ fitting
  obtain ⟨fitting, second⟩ :=
    right (Expr.within_kid within (by simp [Expr.kids])) selectable₂ fitting
  exact ⟨fitting, (first.loadable loads₁).mono grows.keys, second.loadable loads₂, result⟩

theorem stores (address : Task.Fits t tree (.value a v) d d₁)
    (value : Task.Fits t tree (.value b w) d₁ d₂) (grows : d₁.Grows d₂)
    (within : (Expr.assign tag a b).nodes ⊆ tree)
    (selectable : (Expr.assign tag a b).selectable = true) (fitting : d.Fitting t tree) :
    (d₂.emit { op := .assign, ty := tag.ty, left := some v, right := some w }).Fitting t tree ∧
      b.Delivers (d₂.emit { op := .assign, ty := tag.ty, left := some v, right := some w }).keys w ∧
      (b.ty.alike tag.ty || narrows tag.ty b.ty) = true := by
  simp only [Expr.selectable, Bool.and_eq_true] at selectable
  obtain ⟨⟨⟨⟨⟨scalar, integer⟩, selectable₁⟩, loads⟩, selectable₂⟩, kept⟩ := selectable
  obtain ⟨fitting, first⟩ :=
    address (Expr.within_kid within List.mem_cons_self) selectable₁ fitting
  obtain ⟨fitting, second⟩ :=
    value (Expr.within_kid within (by simp [Expr.kids])) selectable₂ fitting
  exact ⟨fitting.assign scalar (first.mono grows.keys) integer second loads,
    second.mono (d₂.keys_emit _), kept⟩

end Task.Fits

theorem Lowers.fits {output : Option Symbol} {sharing : Bool} {t : SymbolTable} {tree : List Expr}
    {task : Task} {d d' : Draft} (run : Lowers output sharing task d d') (same : SameNodes tree) :
    task.Fits t tree d d' := by
  induction run with
  | reuse _ known =>
    intro within _ fitting
    exact ⟨fitting, fitting.noted _ (within (Expr.self_mem_nodes _)) _ known⟩
  | first _ _ ih =>
    intro within selectable fitting
    obtain ⟨fitting, delivers⟩ := ih within selectable fitting
    exact ⟨fitting.settle same (within (Expr.self_mem_nodes _)) delivers, delivers⟩
  | @const tag sym d =>
    intro _ _ fitting
    exact fitting.result (.const (d.found_emit _) rfl) rfl
  | @addr tag sym d =>
    intro _ selectable fitting
    simp only [Task.Selectable, Expr.selectable, decide_eq_true_eq] at selectable
    exact ⟨fitting.addr sym, _, _, d.typed_addr sym, fun _ => ⟨selectable.symm, fun _ => rfl⟩⟩
  | @deref tag a v d d₁ _ ih =>
    intro within selectable fitting
    simp only [Task.Selectable, Expr.selectable, Bool.and_eq_true] at selectable
    obtain ⟨⟨_, integer⟩, selectable⟩ := selectable
    obtain ⟨fitting, delivers⟩ :=
      ih (Expr.within_kid within List.mem_cons_self) selectable fitting
    obtain ⟨ty, b, typed, scalar⟩ := delivers.pointer integer
    exact fitting.result (.load (d₁.found_emit _) rfl rfl (typed.mono (d₁.keys_emit _)) scalar) rfl
  | unary arith _ ih =>
    intro within selectable fitting
    simp only [Task.Selectable, Expr.selectable, Bool.and_eq_true, arith] at selectable
    obtain ⟨⟨computes, loads⟩, selectable⟩ := selectable
    obtain ⟨fitting, delivers⟩ :=
      ih (Expr.within_kid within List.mem_cons_self) selectable fitting
    exact fitting.result (Draft.typed_unary (UnaryOp.arith?_eq_neg_or_compl arith) computes
      (delivers.loadable loads)) rfl
  | @not tag x v d d₁ _ ih =>
    intro within selectable fitting
    simp only [Task.Selectable, Expr.selectable, Bool.and_eq_true] at selectable
    obtain ⟨⟨truth, loads⟩, selectable⟩ := selectable
    obtain ⟨fitting, delivers⟩ :=
      ih (Expr.within_kid within List.mem_cons_self) selectable fitting
    have operand := (delivers.loadable loads).mono ((Draft.Grows.refl d₁).zero x.ty).keys
    have zero := (d₁.typed_zero x.ty).loadable (Expr.loads_iff.mp loads).1
    exact (fitting.zero x.ty).result (Draft.typed_comparison .eq operand zero)
      (of_decide_eq_true truth).symm
  | binary arith _ right ih₁ ih₂ =>
    intro within selectable fitting
    obtain ⟨fitting, first, second, computes⟩ :=
      ih₁.operands ih₂ right.grows within selectable fitting
    rw [arith] at computes
    exact fitting.result
      (Draft.typed_binary (BinaryOp.isBinary_of_arith? arith) computes first second) rfl
  | relation relational _ right ih₁ ih₂ =>
    intro within selectable fitting
    obtain ⟨fitting, first, second, truth⟩ :=
      ih₁.operands ih₂ right.grows within selectable fitting
    rw [BinaryOp.arith?_of_cond? relational] at truth
    exact fitting.result (Draft.typed_comparison _ first second) (of_decide_eq_true truth).symm
  | @truth tag op a b d d₁ d₂ d₃ d₄ logical declared _ yes no ih =>
    intro within selectable fitting
    subst declared yes no
    have truth : tag.ty = .int := by
      simp only [Task.Selectable, Expr.selectable, Bool.and_eq_true,
        BinaryOp.arith?_of_isLogical logical] at selectable
      exact of_decide_eq_true selectable.1.1.1.1
    have loads : (Expr.binary tag op a b).loads = true :=
      Expr.loads_iff.mpr ⟨(congrArg (·.valueClass.isScalar) truth).trans rfl,
        fun no => absurd no Bool.false_ne_true⟩
    have scalar : CType.int.valueClass.isScalar = true := rfl
    obtain ⟨tested, -⟩ := ih within ⟨loads, selectable⟩ (fitting.temp .int).label.label
    have stored := tested.one.store d.fresh scalar ((d₂.typed_constant _ .int).loadable scalar)
    have yes := (stored.jumpTo (some (d.temp .int).label.fresh)).place (d.temp .int).fresh
    have stored := (yes.zero .int).store d.fresh scalar ((Draft.typed_zero _ .int).loadable scalar)
    have no := stored.place (d.temp .int).label.fresh
    exact (no.addr d.fresh).result (Draft.typed_load _ d.fresh .int) truth.symm
  | assign wide _ value ih₁ ih₂ =>
    intro within selectable fitting
    obtain ⟨fitting, delivers, kept⟩ := ih₁.stores ih₂ value.grows within selectable fitting
    rw [wide, Bool.or_false] at kept
    exact ⟨fitting, delivers.passed (of_decide_eq_true kept) id⟩
  | assignNarrow narrow _ value stored ih₁ ih₂ =>
    intro within selectable fitting
    subst stored
    obtain ⟨fitting, delivers, -⟩ := ih₁.stores ih₂ value.grows within selectable fitting
    obtain ⟨b, typed, address⟩ := Draft.typed_narrow delivers (CType.cutsFrom_of_narrows narrow)
    exact fitting.compute typed rfl address
  | @condVoid tag c a b d d₁ void _ ih =>
    intro within selectable fitting
    simp only [Task.Selectable, Expr.selectable, Bool.and_eq_true] at selectable
    obtain ⟨⟨⟨test, arm⟩, other⟩, -⟩ := selectable
    obtain ⟨fitting, -⟩ := ih (List.cons_subset.mp within).2 ⟨test, arm, other⟩ fitting
    exact ⟨fitting.zero .int, _, _, d₁.typed_zero .int, fun valued => absurd void valued⟩
  | @cond tag c a b v w d d₁ d₂ d₃ d₄ d₅ d₆ valued declared _ _ yes _ no ih₁ ih₂ ih₃ =>
    intro within selectable fitting
    subst declared yes no
    simp only [Task.Selectable, Expr.selectable, Bool.and_eq_true, decide_eq_false valued,
      Bool.false_or] at selectable
    obtain ⟨⟨⟨test, arm⟩, other⟩, ⟨scalar, loads₁⟩, loads₂⟩ := selectable
    obtain ⟨fitting, -⟩ := ih₁ (Expr.within_kid within List.mem_cons_self) test
      (fitting.temp tag.ty).label.label
    obtain ⟨fitting, first⟩ := ih₂ (Expr.within_kid within (by simp [Expr.kids])) arm fitting
    have stored := fitting.store d.fresh scalar (first.loadable loads₁)
    have yes := (stored.jumpTo (some (d.temp tag.ty).label.fresh)).place (d.temp tag.ty).fresh
    obtain ⟨fitting, second⟩ := ih₃ (Expr.within_kid within (by simp [Expr.kids])) other yes
    have no := (fitting.store d.fresh scalar (second.loadable loads₂)).place
      (d.temp tag.ty).label.fresh
    exact (no.addr d.fresh).result (Draft.typed_load _ d.fresh tag.ty) rfl
  | @call tag callee args f bytes d d₁ d₂ _ _ _ ih₁ ih₂ =>
    intro within selectable fitting
    simp only [Task.Selectable, Expr.selectable, Bool.and_eq_true, Bool.or_eq_true,
      decide_eq_true_eq, Expr.selectableArgs_iff] at selectable
    obtain ⟨⟨⟨result, integer⟩, callee⟩, args⟩ := selectable
    obtain ⟨fitting, -⟩ := ih₁ (Expr.within_args within)
      (fun e inside => args e (List.mem_reverse.mp inside)) fitting
    obtain ⟨fitting, delivers⟩ :=
      ih₂ (Expr.within_kid within List.mem_cons_self) callee fitting
    obtain ⟨ty, b, typed, scalar⟩ := delivers.pointer integer
    exact fitting.result
      (.call (d₂.found_emit _) rfl rfl (typed.mono (d₂.keys_emit _)) scalar result) rfl
  | callStruct struct =>
    intro _ selectable _
    simp only [Task.Selectable, Expr.selectable, Bool.and_eq_true, Bool.or_eq_true,
      decide_eq_true_eq] at selectable
    have plain : _ = false :=
      selectable.1.1.1.elim (fun void => void ▸ rfl) CType.isStruct_of_isScalar
    exact absurd (struct.symm.trans plain) (by decide)
  | @castKeep tag x v d d₁ kept _ ih =>
    intro within selectable fitting
    simp only [Task.Selectable, Expr.selectable, Bool.and_eq_true] at selectable
    obtain ⟨selectable, converts⟩ := selectable
    obtain ⟨fitting, delivers⟩ :=
      ih (Expr.within_kid within List.mem_cons_self) selectable fitting
    exact ⟨fitting, delivers.cast kept converts⟩
  | @cast tag x v d d₁ differs _ ih =>
    intro within selectable fitting
    obtain ⟨valued, differs⟩ := not_or.mp differs
    simp only [Task.Selectable, Expr.selectable, Bool.and_eq_true, decide_eq_false valued,
      Bool.false_or] at selectable
    obtain ⟨selectable, ⟨scalar, _⟩, loads⟩ := selectable
    obtain ⟨fitting, delivers⟩ :=
      ih (Expr.within_kid within List.mem_cons_self) selectable fitting
    cases cuts : tag.ty.cutsFrom x.ty with
    | true =>
      obtain ⟨b, typed, address⟩ := Draft.typed_narrow delivers cuts
      exact fitting.compute typed rfl fun unloaded => Expr.isAddress_cast cuts (address unloaded)
    | false =>
      rw [cuts, Bool.or_false] at loads
      exact fitting.result (Draft.typed_convert delivers loads scalar differs cuts) rfl
  | @comma tag a b v d d₁ d₂ _ _ ih₁ ih₂ =>
    intro within selectable fitting
    simp only [Task.Selectable, Expr.selectable, Bool.and_eq_true] at selectable
    obtain ⟨⟨first, second⟩, alike⟩ := selectable
    obtain ⟨fitting, -⟩ := ih₁ (Expr.within_kid within List.mem_cons_self) first fitting
    obtain ⟨fitting, delivers⟩ :=
      ih₂ (Expr.within_kid within (by simp [Expr.kids])) second fitting
    exact ⟨fitting, delivers.passed (of_decide_eq_true alike) id⟩
  | effectValue _ _ ih =>
    intro within selectable fitting
    exact ⟨(ih within selectable fitting).1, trivial⟩
  | effectKnown =>
    intro _ _ fitting
    exact ⟨fitting, trivial⟩
  | @effectAnd tag a b d d₁ d₂ _ _ _ ih₁ ih₂ | @effectOr tag a b d d₁ d₂ _ _ _ ih₁ ih₂ =>
    intro within selectable fitting
    simp only [Task.Selectable, Expr.selectable, Bool.and_eq_true] at selectable
    obtain ⟨⟨⟨⟨_, loads⟩, first⟩, _⟩, second⟩ := selectable
    obtain ⟨fitting, -⟩ :=
      ih₁ (Expr.within_kid within List.mem_cons_self) ⟨loads, first⟩ fitting.label
    obtain ⟨fitting, -⟩ := ih₂ (Expr.within_kid within (by simp [Expr.kids])) second fitting
    exact ⟨fitting.place d.fresh, trivial⟩
  | effectCond _ _ ih =>
    intro within selectable fitting
    simp only [Task.Selectable, Expr.selectable, Bool.and_eq_true] at selectable
    obtain ⟨⟨⟨test, arm⟩, other⟩, -⟩ := selectable
    exact ih (List.cons_subset.mp within).2 ⟨test, arm, other⟩ fitting
  | effectComma _ _ ih₁ ih₂ =>
    intro within selectable fitting
    simp only [Task.Selectable, Expr.selectable, Bool.and_eq_true] at selectable
    obtain ⟨⟨first, second⟩, -⟩ := selectable
    obtain ⟨fitting, -⟩ := ih₁ (Expr.within_kid within List.mem_cons_self) first fitting
    exact ih₂ (Expr.within_kid within (by simp [Expr.kids])) second fitting
  | @choose c a b d d₁ d₂ d₃ _ _ _ ih₁ ih₂ ih₃ =>
    intro within selectable fitting
    obtain ⟨test, within⟩ := List.append_subset.mp within
    obtain ⟨arm, other⟩ := List.append_subset.mp within
    obtain ⟨fitting, -⟩ := ih₁ test selectable.1 fitting.label.label
    obtain ⟨fitting, -⟩ := ih₂ arm selectable.2.1 fitting
    obtain ⟨fitting, -⟩ := ih₃ other selectable.2.2
      ((fitting.jumpTo (some d.label.fresh)).place d.fresh)
    exact ⟨fitting.place d.label.fresh, trivial⟩
  | branchKnown _ _ _ known =>
    intro within selectable fitting
    have delivers := fitting.noted _ (within (Expr.self_mem_nodes _)) _ known
    exact ⟨fitting.test delivers selectable.1 _ _, trivial⟩
  | branch _ _ _ ih =>
    intro within selectable fitting
    exact ih within selectable fitting
  | jumpConst =>
    intro _ _ fitting
    exact ⟨fitting.jumpTo _, trivial⟩
  | jumpNot _ ih =>
    intro within selectable fitting
    simp only [Task.Selectable, Expr.selectable, Bool.and_eq_true] at selectable
    obtain ⟨-, ⟨-, loads⟩, selectable⟩ := selectable
    exact ih (Expr.within_kid within List.mem_cons_self) ⟨loads, selectable⟩ fitting
  | jumpRelation _ _ _ right ih₁ ih₂ =>
    intro within selectable fitting
    obtain ⟨fitting, first, second, -⟩ :=
      ih₁.operands ih₂ right.grows within selectable.2 fitting
    exact ⟨fitting.compare _ first second _ _, trivial⟩
  | jumpAnd _ _ ih₁ ih₂ | jumpOr _ _ ih₁ ih₂ =>
    intro within selectable fitting
    simp only [Task.Selectable, Expr.selectable, Bool.and_eq_true] at selectable
    obtain ⟨-, ⟨⟨⟨-, loads₁⟩, selectable₁⟩, loads₂⟩, selectable₂⟩ := selectable
    obtain ⟨fitting, -⟩ :=
      ih₁ (Expr.within_kid within List.mem_cons_self) ⟨loads₁, selectable₁⟩ fitting
    exact ih₂ (Expr.within_kid within (by simp [Expr.kids])) ⟨loads₂, selectable₂⟩ fitting
  | @jumpAndOpen tag a b t d d₁ d₂ _ _ ih₁ ih₂ | @jumpOrOpen tag a b t d d₁ d₂ _ _ ih₁ ih₂ =>
    intro within selectable fitting
    simp only [Task.Selectable, Expr.selectable, Bool.and_eq_true] at selectable
    obtain ⟨-, ⟨⟨⟨-, loads₁⟩, selectable₁⟩, loads₂⟩, selectable₂⟩ := selectable
    obtain ⟨fitting, -⟩ :=
      ih₁ (Expr.within_kid within List.mem_cons_self) ⟨loads₁, selectable₁⟩ fitting.label
    obtain ⟨fitting, -⟩ :=
      ih₂ (Expr.within_kid within (by simp [Expr.kids])) ⟨loads₂, selectable₂⟩ fitting
    exact ⟨fitting.place d.fresh, trivial⟩
  | @jumpComma tag a b t f d d₁ d₂ _ _ ih₁ ih₂ =>
    intro within selectable fitting
    simp only [Task.Selectable, Expr.selectable, Bool.and_eq_true] at selectable
    obtain ⟨loads, ⟨first, second⟩, alike⟩ := selectable
    obtain ⟨fitting, -⟩ := ih₁ (Expr.within_kid within List.mem_cons_self) first fitting
    have loads := Expr.loads_of_comma alike loads
    exact ih₂ (Expr.within_kid within (by simp [Expr.kids])) ⟨loads, second⟩ fitting
  | jumpValue _ _ _ ih =>
    intro within selectable fitting
    obtain ⟨fitting, delivers⟩ := ih within selectable.2 fitting
    exact ⟨fitting.test delivers selectable.1 _ _, trivial⟩
  | argsNil | declsNil | stmtsNil =>
    intro _ _ fitting
    exact ⟨fitting, trivial⟩
  | argsCons _ _ ih₁ ih₂ =>
    intro within selectable fitting
    obtain ⟨head, rest⟩ := List.append_subset.mp within
    obtain ⟨⟨loads, here⟩, after⟩ := List.forall_mem_cons.mp selectable
    obtain ⟨fitting, delivers⟩ := ih₁ head here fitting
    exact ih₂ rest after (fitting.code (delivers.loadable loads))
  | @declsPlain sym zeroFill ds d d₁ d₂ declared _ ih =>
    intro within selectable fitting
    subst declared
    exact ih within (List.all_cons.symm.trans selectable |> Bool.and_eq_true_iff.mp).2
      (fitting.declare sym zeroFill)
  | @declsInit sym e v zeroFill ds d d₁ d₂ d₃ declared _ _ ih₁ ih₂ =>
    intro within selectable fitting
    subst declared
    obtain ⟨value, rest⟩ := List.append_subset.mp within
    simp only [Task.Selectable, List.all_cons, Decl.selectable, Option.all_some,
      Bool.and_eq_true] at selectable
    obtain ⟨⟨⟨scalar, loads⟩, here⟩, after⟩ := selectable
    have scalar : (d.symbols.ty sym).valueClass.isScalar = true :=
      fitting.table.ty_of_isScalar scalar ▸ scalar
    obtain ⟨fitting, delivers⟩ := ih₁ value here (fitting.declare sym zeroFill)
    exact ih₂ rest after (fitting.store sym scalar (delivers.loadable loads))
  | expr _ ih =>
    intro within selectable fitting
    exact ih within selectable fitting
  | @«when» loops level c body d d₁ d₂ _ _ ih₁ ih₂ =>
    intro within selectable fitting
    obtain ⟨test, inside⟩ := List.append_subset.mp within
    simp only [Task.Selectable, Stmt.selectable, Bool.and_eq_true] at selectable
    obtain ⟨fitting, -⟩ := ih₁ test selectable.1 fitting.label
    obtain ⟨fitting, -⟩ := ih₂ inside selectable.2 fitting
    exact ⟨fitting.place d.fresh, trivial⟩
  | @ifElse loops level c a b d d₁ d₂ d₃ _ _ _ ih₁ ih₂ ih₃ =>
    intro within selectable fitting
    obtain ⟨test, within⟩ := List.append_subset.mp within
    obtain ⟨arm, other⟩ := List.append_subset.mp within
    simp only [Task.Selectable, Stmt.selectable, Bool.and_eq_true] at selectable
    obtain ⟨fitting, -⟩ := ih₁ test selectable.1.1 fitting.label.label
    obtain ⟨fitting, -⟩ := ih₂ arm selectable.1.2 fitting
    obtain ⟨fitting, -⟩ := ih₃ other selectable.2
      ((fitting.jumpTo (some d.label.fresh)).place d.fresh)
    exact ⟨fitting.place d.label.fresh, trivial⟩
  | @«while» loops level c s d d₁ d₂ d₃ labels _ _ ih₁ ih₂ =>
    intro within selectable fitting
    subst labels
    obtain ⟨test, inside⟩ := List.append_subset.mp within
    simp only [Task.Selectable, Stmt.selectable, Bool.and_eq_true] at selectable
    have start := fitting.label.label.label.jumpTo (some d.label.fresh)
    obtain ⟨fitting, -⟩ := ih₁ inside selectable.2 (start.place d.fresh)
    obtain ⟨fitting, -⟩ := ih₂ test selectable.1 (fitting.place d.label.fresh)
    exact ⟨fitting.place d.label.label.fresh, trivial⟩
  | @block loops level decls body d d₁ d₂ _ _ ih₁ ih₂ =>
    intro within selectable fitting
    obtain ⟨heads, inside⟩ := List.append_subset.mp within
    simp only [Task.Selectable, Stmt.selectable, Bool.and_eq_true] at selectable
    obtain ⟨fitting, -⟩ := ih₁ heads selectable.1 (fitting.code trivial)
    obtain ⟨fitting, -⟩ := ih₂ inside selectable.2 fitting
    exact ⟨fitting.code trivial, trivial⟩
  | ret _ _ ih =>
    intro within selectable fitting
    simp only [Task.Selectable, Stmt.selectable, Bool.and_eq_true] at selectable
    obtain ⟨fitting, delivers⟩ := ih within selectable.2 fitting
    exact ⟨fitting.code (delivers.loadable selectable.1), trivial⟩
  | retStruct _ struct =>
    intro _ selectable _
    simp only [Task.Selectable, Stmt.selectable, Bool.and_eq_true] at selectable
    have plain := CType.isStruct_of_isScalar (Expr.loads_iff.mp selectable.1).1
    exact absurd (struct.symm.trans plain) (by decide)
  | retNone | «break» | «continue» =>
    intro _ _ fitting
    exact ⟨fitting.code trivial, trivial⟩
  | stmtsCons _ _ ih₁ ih₂ =>
    intro within selectable fitting
    obtain ⟨head, rest⟩ := List.append_subset.mp within
    simp only [Task.Selectable, Stmt.selectableAll, Bool.and_eq_true] at selectable
    obtain ⟨fitting, -⟩ := ih₁ head selectable.1 fitting
    exact ih₂ rest selectable.2 fitting

theorem FunctionDef.lower_fits {d : FunctionDef} {t t' : SymbolTable} {f : LinearFunction}
    (lowered : d.lower t = .ok f t') (numbered : d.NodesNumbered) (selectable : d.Selectable t) :
    ∀ c ∈ f.codes.toList, c.Fits f.nodeKeys := by
  obtain ⟨body, run, rfl, -⟩ := lower_follows lowered
  have start : (Draft.opening t).Fitting t d.body.nodes := by
    have empty : ({ symbols := t.nextPass.2 } : Draft).Fitting t d.body.nodes :=
      ⟨.refl t, fun _ inside => absurd inside List.not_mem_nil,
        fun _ _ _ known => by cases known⟩
    exact empty.label.code trivial
  obtain ⟨fitting, -⟩ := run.fits numbered (List.Subset.refl _) selectable start
  have whole := (fitting.place ⟨t.size⟩).code (c := .frameExit) trivial
  exact whole.codes

end CBackend
