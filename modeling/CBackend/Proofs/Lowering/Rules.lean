import CBackend.Linear.Lowering

/-!
The rules by which trees become linear code. A rule takes a draft, which holds what has been written
so far, to the draft after one part of a tree has been added. The rules leave out what lowering only
checks, the depth of nesting, and pass the enclosing loops as an argument, so that statements about
the code can be proved by induction on the rules.
-/

namespace CBackend

structure Draft where
  symbols : SymbolTable
  codes : List Code := []
  nodes : List LinNode := []
  done : List (Nat × LinId) := []

def Lowering.draft (s : Lowering) : Draft := ⟨s.symbols, s.codes.toList, s.nodes.toList, s.done⟩

namespace Draft

def next (d : Draft) : LinId := ⟨d.nodes.length⟩

def fresh (d : Draft) : Symbol := ⟨d.symbols.size⟩

def code (d : Draft) (c : Code) : Draft := { d with codes := d.codes ++ [c] }

def place (d : Draft) (label : Symbol) : Draft := d.code (.label label)

def emit (d : Draft) (n : LinNode) : Draft :=
  { d with nodes := d.nodes ++ [n], codes := d.codes ++ [.eval d.next] }

def label (d : Draft) : Draft := { d with symbols := d.symbols.label.2 }

def temp (d : Draft) (ty : CType) : Draft :=
  { d with symbols := (d.symbols.temp ty).2 }.code (.declare d.fresh)

def addr (d : Draft) (sym : Symbol) : Draft :=
  d.emit { op := .addr, ty := .pointer, sym := some sym }

def constant (d : Draft) (intern : SymbolTable → Symbol × SymbolTable) (ty : CType) : Draft :=
  { d with symbols := (intern d.symbols).2 }.emit
    { op := .const, ty, sym := some (intern d.symbols).1 }

def one (d : Draft) : Draft := d.constant (·.intConst 1 .int) .int

def zero (d : Draft) (ty : CType) : Draft :=
  d.constant (fun t => if ty.isFloat then t.floatConst .zero ty else t.intConst 0 ty) ty

def store (d : Draft) (sym : Symbol) (ty : CType) (v : LinId) : Draft :=
  (d.addr sym).emit { op := .assign, ty, left := some d.next, right := some v }

def load (d : Draft) (sym : Symbol) (ty : CType) : Draft :=
  (d.addr sym).emit { op := .load, ty, left := some d.next }

def comparison (d : Draft) (cond : Cond) (l r : LinId) : Draft :=
  d.emit { op := .cmp cond, ty := .int, left := some l, right := some r }

def compare (d : Draft) (cond : Cond) (l r : LinId) : (t f : Option Symbol) → Draft
  | some t, some f => ((d.comparison cond l r).code (.branch d.next t)).code (.jump f)
  | some t, none => (d.comparison cond l r).code (.branch d.next t)
  | none, some f => (d.comparison cond.negate l r).code (.branch d.next f)
  | none, none => d

def test (d : Draft) (ty : CType) (v : LinId) (t f : Option Symbol) : Draft :=
  (d.zero ty).compare .ne v d.next t f

def jumpTo (d : Draft) : Option Symbol → Draft
  | some label => d.code (.jump label)
  | none => d

def settle (d : Draft) (number : Nat) (id : LinId) : Draft :=
  { d with done := (number, id) :: d.done }

def clear (d : Draft) (sym : Symbol) : Draft :=
  (d.addr sym).code (.zeroFill d.next (roundToSlot (d.symbols.ty sym).size))

end Draft

/-- Whether a constant counts as true in a branch. -/
def SymbolTable.isTrue (t : SymbolTable) (sym : Symbol) : Bool :=
  match t.kind sym with
  | .intConst v => v != 0
  | .floatConst v => !v.isZero
  | _ => true

/-- The operator of linear code for an arithmetic operator of trees. -/
def UnaryOp.arith? : UnaryOp → Option Op
  | .neg => some .neg
  | .compl => some .compl
  | .not => none

def BinaryOp.arith? : BinaryOp → Option Op
  | .add => some .add
  | .sub => some .sub
  | .mul => some .mul
  | .div => some .div
  | .mod => some .mod
  | .and => some .and
  | .or => some .or
  | .xor => some .xor
  | .shl => some .shl
  | .shr => some .shr
  | _ => none

namespace Expr

/-- Expressions that are lowered for their effects as they are for their value. -/
def effectByValue : Expr → Bool
  | .binary _ op _ _ => !op.isLogical
  | .cond .. | .comma .. => false
  | _ => true

def truthByValue : Expr → Bool
  | .const .. | .comma .. => false
  | .unary _ op _ => op != .not
  | .binary _ op _ _ => op.arith?.isSome
  | _ => true

end Expr

/-- Where an assignment or a cast needs a conversion of its value. -/
def narrows (target source : CType) : Bool :=
  target.isInteger && source.isInteger && decide (target.size < source.size)

/-- A part of a function as it is lowered: an expression for its value, with the number the value
gets, for the first computation of that value, for its effects or as a branch, the arguments of a
call with their bytes, declarations, and statements inside loops at a level of blocks. -/
inductive Task where
  | value (e : Expr) (id : LinId)
  | compute (e : Expr) (id : LinId)
  | effect (e : Expr)
  | choose (c a b : Expr)
  | branch (e : Expr) (t f : Option Symbol)
  | jump (e : Expr) (t f : Option Symbol)
  | args (es : List Expr) (bytes : Nat)
  | decls (ds : List Decl)
  | stmt (loops : List LoopLabels) (level : Nat) (s : Stmt)
  | stmts (loops : List LoopLabels) (level : Nat) (ss : List Stmt)

open Draft

/-- One part of a function added to a draft; `output` is the parameter for a struct result. Without
`sharing` no node is met a second time. -/
inductive Lowers (output : Option Symbol) (sharing : Bool) : Task → Draft → Draft → Prop
  -- A value is computed once and referred to afterwards.
  | reuse {e id d} (shared : sharing = true) (known : d.done.lookup e.number = some id) :
      Lowers output sharing (.value e id) d d
  | first {e id d d'} (unknown : d.done.lookup e.number = none)
      (run : Lowers output sharing (.compute e id) d d') :
      Lowers output sharing (.value e id) d (d'.settle e.number id)
  -- Values.
  | const {tag sym d} :
      Lowers output sharing (.compute (.const tag sym) d.next) d
        (d.emit { op := .const, ty := tag.ty, sym := some sym })
  | addr {tag sym d} : Lowers output sharing (.compute (.addr tag sym) d.next) d (d.addr sym)
  | deref {tag a v d d₁} (address : Lowers output sharing (.value a v) d d₁) :
      Lowers output sharing (.compute (.deref tag a) d₁.next) d
        (d₁.emit { op := .load, ty := tag.ty, left := some v })
  | unary {tag op o x v d d₁} (arith : op.arith? = some o)
      (operand : Lowers output sharing (.value x v) d d₁) :
      Lowers output sharing (.compute (.unary tag op x) d₁.next) d
        (d₁.emit { op := o, ty := tag.ty, left := some v })
  | not {tag x v d d₁} (operand : Lowers output sharing (.value x v) d d₁) :
      Lowers output sharing (.compute (.unary tag .not x) (d₁.zero x.ty).next) d
        ((d₁.zero x.ty).comparison .eq v d₁.next)
  | binary {tag op o l r v w d d₁ d₂} (arith : op.arith? = some o)
      (left : Lowers output sharing (.value l v) d d₁)
      (right : Lowers output sharing (.value r w) d₁ d₂) :
      Lowers output sharing (.compute (.binary tag op l r) d₂.next) d
        (d₂.emit { op := o, ty := tag.ty, left := some v, right := some w })
  | relation {tag op cond l r v w d d₁ d₂} (relational : op.cond? = some cond)
      (left : Lowers output sharing (.value l v) d d₁)
      (right : Lowers output sharing (.value r w) d₁ d₂) :
      Lowers output sharing (.compute (.binary tag op l r) d₂.next) d (d₂.comparison cond v w)
  | truth {tag op a b d d₁ d₂ d₃ d₄} (logical : op.isLogical = true) (declared : d₁ = d.temp .int)
      (jumps : Lowers output sharing (.jump (.binary tag op a b) none (some d₁.fresh)) d₁.label.label d₂)
      (yes : d₃ = ((d₂.one.store d.fresh .int d₂.next).code (.jump d₁.label.fresh)).place d₁.fresh)
      (no : d₄ = ((d₃.zero .int).store d.fresh .int d₃.next).place d₁.label.fresh) :
      Lowers output sharing (.compute (.binary tag op a b) (d₄.addr d.fresh).next) d
        (d₄.load d.fresh .int)
  | assign {tag a v x y d d₁ d₂} (wide : narrows tag.ty v.ty = false)
      (address : Lowers output sharing (.value a x) d d₁)
      (value : Lowers output sharing (.value v y) d₁ d₂) :
      Lowers output sharing (.compute (.assign tag a v) y) d
        (d₂.emit { op := .assign, ty := tag.ty, left := some x, right := some y })
  | assignNarrow {tag a v x y d d₁ d₂ d₃} (narrow : narrows tag.ty v.ty = true)
      (address : Lowers output sharing (.value a x) d d₁)
      (value : Lowers output sharing (.value v y) d₁ d₂)
      (stored : d₃ = d₂.emit { op := .assign, ty := tag.ty, left := some x, right := some y }) :
      Lowers output sharing (.compute (.assign tag a v) d₃.next) d
        (d₃.emit { op := .cvt, ty := tag.ty, left := some y })
  | condVoid {tag c a b d d₁} (void : tag.ty = .void)
      (arms : Lowers output sharing (.choose c a b) d d₁) :
      Lowers output sharing (.compute (.cond tag c a b) d₁.next) d (d₁.zero .int)
  | cond {tag c a b v w d d₁ d₂ d₃ d₄ d₅ d₆} (valued : tag.ty ≠ .void)
      (declared : d₁ = d.temp tag.ty)
      (test : Lowers output sharing (.branch c none (some d₁.fresh)) d₁.label.label d₂)
      (arm : Lowers output sharing (.value a v) d₂ d₃)
      (yes : d₄ = ((d₃.store d.fresh tag.ty v).code (.jump d₁.label.fresh)).place d₁.fresh)
      (other : Lowers output sharing (.value b w) d₄ d₅)
      (no : d₆ = (d₅.store d.fresh tag.ty w).place d₁.label.fresh) :
      Lowers output sharing (.compute (.cond tag c a b) (d₆.addr d.fresh).next) d
        (d₆.load d.fresh tag.ty)
  | call {tag callee args f bytes d d₁ d₂} (scalar : tag.ty.isStruct = false)
      (pushed : Lowers output sharing (.args args.reverse bytes) d d₁)
      (target : Lowers output sharing (.value callee f) d₁ d₂) :
      Lowers output sharing (.compute (.call tag callee args) d₂.next) d
        (d₂.emit { op := .call, ty := tag.ty, left := some f, aux := bytes })
  | callStruct {tag callee args f bytes d d₁ d₂ d₃ d₄} (struct : tag.ty.isStruct = true)
      (declared : d₁ = d.temp tag.ty)
      (pushed : Lowers output sharing (.args args.reverse bytes) d₁ d₂)
      (target : Lowers output sharing (.value callee f) ((d₂.addr d.fresh).code (.arg d₂.next)) d₃)
      (called : d₄ = d₃.emit
        { op := .call, ty := .void, left := some f,
          aux := ((bytes + roundToSlot CType.pointer.size : Nat) : Int) }) :
      Lowers output sharing (.compute (.call tag callee args) (d₄.addr d.fresh).next) d
        (d₄.load d.fresh tag.ty)
  | castKeep {tag x v d d₁} (same : tag.ty = .void ∨ x.ty.valueClass = tag.ty.valueClass)
      (operand : Lowers output sharing (.value x v) d d₁) : Lowers output sharing
      (.compute (.cast tag x) v) d d₁
  | cast {tag x v d d₁} (differs : ¬(tag.ty = .void ∨ x.ty.valueClass = tag.ty.valueClass))
      (operand : Lowers output sharing (.value x v) d d₁) :
      Lowers output sharing (.compute (.cast tag x) d₁.next) d
        (d₁.emit { op := .cvt, ty := tag.ty, left := some v })
  | comma {tag a b v d d₁ d₂} (first : Lowers output sharing (.effect a) d d₁)
      (second : Lowers output sharing (.value b v) d₁ d₂) :
      Lowers output sharing (.compute (.comma tag a b) v) d d₂
  -- Effects.
  | effectValue {e id d d'} (plain : e.effectByValue = true)
      (run : Lowers output sharing (.value e id) d d') :
      Lowers output sharing (.effect e) d d'
  | effectKnown {e id d} (shared : sharing = true) (known : d.done.lookup e.number = some id) :
      Lowers output sharing (.effect e) d d
  | effectAnd {tag a b d d₁ d₂} (unknown : d.done.lookup tag.number = none)
      (first : Lowers output sharing (.branch a none (some d.fresh)) d.label d₁)
      (second : Lowers output sharing (.effect b) d₁ d₂) :
      Lowers output sharing (.effect (.binary tag .logAnd a b)) d (d₂.place d.fresh)
  | effectOr {tag a b d d₁ d₂} (unknown : d.done.lookup tag.number = none)
      (first : Lowers output sharing (.branch a (some d.fresh) none) d.label d₁)
      (second : Lowers output sharing (.effect b) d₁ d₂) :
      Lowers output sharing (.effect (.binary tag .logOr a b)) d (d₂.place d.fresh)
  | effectCond {tag c a b d d'} (unknown : d.done.lookup tag.number = none)
      (arms : Lowers output sharing (.choose c a b) d d') :
      Lowers output sharing (.effect (.cond tag c a b)) d d'
  | effectComma {tag a b d d₁ d₂} (first : Lowers output sharing (.effect a) d d₁)
      (second : Lowers output sharing (.effect b) d₁ d₂) :
      Lowers output sharing (.effect (.comma tag a b)) d d₂
  | choose {c a b d d₁ d₂ d₃}
      (test : Lowers output sharing (.branch c none (some d.fresh)) d.label.label d₁)
      (arm : Lowers output sharing (.effect a) d₁ d₂)
      (other : Lowers output sharing (.effect b) ((d₂.code (.jump d.label.fresh)).place d.fresh) d₃) :
      Lowers output sharing (.choose c a b) d (d₃.place d.label.fresh)
  -- Branches.
  | branchKnown {e v t f d} (shared : sharing = true) (scalar : e.ty.isStruct = false)
      (labelled : t.isSome ∨ f.isSome)
      (known : d.done.lookup e.number = some v) :
      Lowers output sharing (.branch e t f) d (d.test e.ty v t f)
  | branch {e t f d d'} (scalar : e.ty.isStruct = false)
      (unknown : d.done.lookup e.number = none) (run : Lowers output sharing (.jump e t f) d d') :
      Lowers output sharing (.branch e t f) d d'
  | jumpConst {tag sym t f d} :
      Lowers output sharing (.jump (.const tag sym) t f) d
        (d.jumpTo (if d.symbols.isTrue sym then t else f))
  | jumpNot {tag x t f d d'} (run : Lowers output sharing (.branch x f t) d d') :
      Lowers output sharing (.jump (.unary tag .not x) t f) d d'
  | jumpRelation {tag op cond l r v w t f d d₁ d₂} (relational : op.cond? = some cond)
      (labelled : t.isSome ∨ f.isSome) (left : Lowers output sharing (.value l v) d d₁)
      (right : Lowers output sharing (.value r w) d₁ d₂) :
      Lowers output sharing (.jump (.binary tag op l r) t f) d (d₂.compare cond v w t f)
  | jumpAnd {tag a b t f d d₁ d₂} (first : Lowers output sharing (.branch a none (some f)) d d₁)
      (second : Lowers output sharing (.branch b t (some f)) d₁ d₂) :
      Lowers output sharing (.jump (.binary tag .logAnd a b) t (some f)) d d₂
  | jumpAndOpen {tag a b t d d₁ d₂}
      (first : Lowers output sharing (.branch a none (some d.fresh)) d.label d₁)
      (second : Lowers output sharing (.branch b t none) d₁ d₂) :
      Lowers output sharing (.jump (.binary tag .logAnd a b) t none) d (d₂.place d.fresh)
  | jumpOr {tag a b t f d d₁ d₂} (first : Lowers output sharing (.branch a (some t) none) d d₁)
      (second : Lowers output sharing (.branch b (some t) f) d₁ d₂) :
      Lowers output sharing (.jump (.binary tag .logOr a b) (some t) f) d d₂
  | jumpOrOpen {tag a b f d d₁ d₂}
      (first : Lowers output sharing (.branch a (some d.fresh) none) d.label d₁)
      (second : Lowers output sharing (.branch b none f) d₁ d₂) :
      Lowers output sharing (.jump (.binary tag .logOr a b) none f) d (d₂.place d.fresh)
  | jumpComma {tag a b t f d d₁ d₂} (first : Lowers output sharing (.effect a) d d₁)
      (second : Lowers output sharing (.branch b t f) d₁ d₂) :
      Lowers output sharing (.jump (.comma tag a b) t f) d d₂
  | jumpValue {e v t f d d₁} (plain : e.truthByValue = true) (labelled : t.isSome ∨ f.isSome)
      (run : Lowers output sharing (.value e v) d d₁) :
      Lowers output sharing (.jump e t f) d (d₁.test e.ty v t f)
  -- Arguments.
  | argsNil {d} : Lowers output sharing (.args [] 0) d d
  | argsCons {e es v bytes d d₁ d₂} (head : Lowers output sharing (.value e v) d d₁)
      (rest : Lowers output sharing (.args es bytes) (d₁.code (.arg v)) d₂) :
      Lowers output sharing (.args (e :: es) (roundToSlot e.ty.size + bytes)) d d₂
  -- Declarations.
  | declsNil {d} : Lowers output sharing (.decls []) d d
  | declsPlain {sym zeroFill ds d d₁ d₂} (declared : d₁ = d.code (.declare sym))
      (rest : Lowers output sharing (.decls ds) (if zeroFill then d₁.clear sym else d₁) d₂) :
      Lowers output sharing (.decls (⟨sym, none, zeroFill⟩ :: ds)) d d₂
  | declsInit {sym e v zeroFill ds d d₁ d₂ d₃} (declared : d₁ = d.code (.declare sym))
      (init : Lowers output sharing (.value e v) (if zeroFill then d₁.clear sym else d₁) d₂)
      (rest : Lowers output sharing (.decls ds) (d₂.store sym (d.symbols.ty sym) v) d₃) :
      Lowers output sharing (.decls (⟨sym, some e, zeroFill⟩ :: ds)) d d₃
  -- Statements.
  | expr {loops level e d d'} (run : Lowers output sharing (.effect e) d d') :
      Lowers output sharing (.stmt loops level (.expr e)) d d'
  | when {loops level c body d d₁ d₂}
      (test : Lowers output sharing (.branch c none (some d.fresh)) d.label d₁)
      (run : Lowers output sharing (.stmt loops level body) d₁ d₂) :
      Lowers output sharing (.stmt loops level (.when c body)) d (d₂.place d.fresh)
  | ifElse {loops level c a b d d₁ d₂ d₃}
      (test : Lowers output sharing (.branch c none (some d.fresh)) d.label.label d₁)
      (arm : Lowers output sharing (.stmt loops level a) d₁ d₂)
      (other : Lowers output sharing (.stmt loops level b)
        ((d₂.code (.jump d.label.fresh)).place d.fresh) d₃) :
      Lowers output sharing (.stmt loops level (.ifElse c a b)) d (d₃.place d.label.fresh)
  | while {loops level c body d d₁ d₂ d₃} (labels : d₁ = d.label.label.label)
      (run : Lowers output sharing (.stmt (⟨d.label.fresh, d.label.label.fresh⟩ :: loops) level body)
        ((d₁.code (.jump d.label.fresh)).place d.fresh) d₂)
      (test : Lowers output sharing (.branch c (some d.fresh) none) (d₂.place d.label.fresh) d₃) :
      Lowers output sharing (.stmt loops level (.while c body)) d (d₃.place d.label.label.fresh)
  | block {loops level decls body d d₁ d₂}
      (heads : Lowers output sharing (.decls decls) (d.code (.blockEnter (level + 1))) d₁)
      (run : Lowers output sharing (.stmts loops (level + 1) body) d₁ d₂) :
      Lowers output sharing (.stmt loops level (.block decls body)) d
        (d₂.code (.blockLeave (level + 1)))
  | retNone {loops level d} :
      Lowers output sharing (.stmt loops level (.ret none)) d (d.code (.ret none))
  | ret {loops level e v d d₁} (direct : output = none ∨ e.ty.isStruct = false)
      (run : Lowers output sharing (.value e v) d d₁) :
      Lowers output sharing (.stmt loops level (.ret (some e))) d (d₁.code (.ret (some v)))
  | retStruct {loops level e v out d d₁ d₂} (hidden : output = some out)
      (struct : e.ty.isStruct = true) (run : Lowers output sharing (.value e v) d d₁)
      (pointer : d₂ = d₁.load out .pointer) :
      Lowers output sharing (.stmt loops level (.ret (some e))) d
        ((d₂.emit { op := .assign, ty := e.ty, left := some (d₁.addr out).next,
                    right := some v }).code (.ret none))
  | break {labels loops level d} :
      Lowers output sharing (.stmt (labels :: loops) level .break) d (d.code (.jump labels.done))
  | continue {labels loops level d} :
      Lowers output sharing (.stmt (labels :: loops) level .continue) d (d.code (.jump labels.next))
  | stmtsNil {loops level d} : Lowers output sharing (.stmts loops level []) d d
  | stmtsCons {loops level s ss d d₁ d₂} (head : Lowers output sharing (.stmt loops level s) d d₁)
      (rest : Lowers output sharing (.stmts loops level ss) d₁ d₂) :
      Lowers output sharing (.stmts loops level (s :: ss)) d d₂

end CBackend
