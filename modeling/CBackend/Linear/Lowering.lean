import CBackend.Frame
import CBackend.Linear
import CBackend.Tree

/-!
Lowering of trees to linear code. An expression is lowered in one of three contexts: for its value,
for its effects only, or as a branch to one of two labels, where an absent label means falling
through. In branch context `&&`, `||` and `!` become jumps; a truth value is stored only where it is
used as one. The value of a node is computed at most once in a pass: a second use refers to the
first.
-/

namespace CBackend

/-- Expressions nested deeper than this are refused. -/
def maxDepth : Nat := 512

/-- Where `continue` and `break` go in a loop. -/
structure LoopLabels where
  next : Symbol
  done : Symbol
  deriving DecidableEq, Repr

structure Lowering where
  symbols : SymbolTable
  codes : Array Code := #[]
  nodes : Array LinNode := #[]
  loops : List LoopLabels := []
  level : Nat := 0
  depth : Nat := 0
  output : Option Symbol := none
  done : List (Nat × LinId) := []
  deriving Inhabited

/-- Steps of lowering; what a failing step has done stays done. -/
abbrev Lower := EStateM CompileError Lowering

namespace Lower

def code (c : Code) : Lower Unit := modify fun s => { s with codes := s.codes.push c }

def emit (n : LinNode) : Lower LinId :=
  modifyGet fun s =>
    let id : LinId := ⟨s.nodes.size⟩
    (id, { s with nodes := s.nodes.push n, codes := s.codes.push (.eval id) })

def onSymbols {α : Type} (step : SymbolTable → α × SymbolTable) : Lower α :=
  modifyGet fun s => let (a, symbols) := step s.symbols; (a, { s with symbols })

def freshLabel : Lower Symbol := onSymbols SymbolTable.label

def place (label : Symbol) : Lower Unit := code (.label label)

def emitConst (sym : Symbol) (ty : CType) : Lower LinId :=
  emit { op := .const, ty, sym := some sym }

def emitAddr (sym : Symbol) : Lower LinId := emit { op := .addr, ty := .pointer, sym := some sym }

def zero (ty : CType) : Lower LinId := do
  let sym ← onSymbols fun t => if ty.isFloat then t.floatConst .zero ty else t.intConst 0 ty
  emitConst sym ty

def freshTemp (ty : CType) : Lower Symbol := do
  let tmp ← onSymbols (·.temp ty)
  code (.declare tmp)
  return tmp

def storeTo (sym : Symbol) (ty : CType) (v : LinId) : Lower Unit := do
  let a ← emitAddr sym
  let _ ← emit { op := .assign, ty, left := some a, right := some v }

def loadFrom (sym : Symbol) (ty : CType) : Lower LinId := do
  let a ← emitAddr sym
  emit { op := .load, ty, left := some a }

def lowered? (number : Nat) : Lower (Option LinId) := return (← get).done.lookup number

/-- Opens an expression. A refusal leaves it counted as open. -/
def enter : Lower Unit := do
  modify fun s => { s with depth := s.depth + 1 }
  if maxDepth < (← get).depth then throw (.unsupported (.nesting maxDepth))

def exit : Lower Unit := modify fun s => { s with depth := s.depth - 1 }

/-- Lowers something inside an opened expression, which is closed whether or not that fails. -/
def nested {α : Type} (inner : Lower α) : Lower α := do
  enter
  try inner finally exit

/-- The value of a node: computed at the first use, referred to afterwards. -/
def once (number : Nat) (inner : Lower LinId) : Lower LinId := do
  match ← lowered? number with
  | some id => return id
  | none =>
    let id ← nested inner
    modify fun s => { s with done := (number, id) :: s.done }
    return id

/-- Compares and branches: one conditional jump, and one more only if both labels are given. -/
def compare (cond : Cond) (l r : LinId) : (t f : Option Symbol) → Lower Unit
  | some t, f => do
    let c ← emit { op := .cmp cond, ty := .int, left := some l, right := some r }
    code (.branch c t)
    match f with
    | some f => code (.jump f)
    | none => pure ()
  | none, some f => do
    let c ← emit { op := .cmp cond.negate, ty := .int, left := some l, right := some r }
    code (.branch c f)
  | none, none => throw (.invariant .branchWithoutTarget)

def testValue (ty : CType) (v : LinId) (t f : Option Symbol) : Lower Unit := do
  let z ← zero ty
  compare .ne v z t f

end Lower

open Lower

/-- What an expression is lowered for. -/
inductive Goal where
  | value
  | effect
  | branch (t f : Option Symbol)
  deriving DecidableEq, Repr

def Goal.Result : Goal → Type
  | value => LinId
  | effect | branch .. => Unit

/-- How a node is lowered for each goal. -/
abbrev NodeLowering := (goal : Goal) → Lower goal.Result

structure Part where
  ty : CType
  lower : NodeLowering

namespace Part

def value (p : Part) : Lower LinId := p.lower .value

def effect (p : Part) : Lower Unit := p.lower .effect

def branch (p : Part) (t f : Option Symbol) : Lower Unit := p.lower (.branch t f)

end Part

namespace NodeLowering

/-- Branches on a node: on its value if that has been computed, else as `jump` does. -/
def branchWith (tag : NodeTag) (jump : (t f : Option Symbol) → Lower Unit)
    (t f : Option Symbol) : Lower Unit := do
  if tag.ty.isStruct then throw (.unsupported .structCondition)
  match ← lowered? tag.number with
  | some v => testValue tag.ty v t f
  | none => jump t f

def effectWith (tag : NodeTag) (special : Lower Unit) : Lower Unit := do
  match ← lowered? tag.number with
  | some _ => pure ()
  | none => special

def ofJump (tag : NodeTag) (inner : Lower LinId) (jump : (t f : Option Symbol) → Lower Unit) :
    NodeLowering
  | .value => once tag.number inner
  | .effect => do let _ ← once tag.number inner
  | .branch t f => nested (branchWith tag jump t f)

def ofValue (tag : NodeTag) (inner : Lower LinId) : NodeLowering :=
  ofJump tag inner fun t f => do
    let v ← once tag.number inner
    testValue tag.ty v t f

def const (tag : NodeTag) (sym : Symbol) : NodeLowering :=
  ofJump tag (emitConst sym tag.ty) fun t f => do
    let truth :=
      match (← get).symbols.kind sym with
      | .intConst v => v != 0
      | .floatConst v => !v.isZero
      | _ => true
    match if truth then t else f with
    | some target => code (.jump target)
    | none => pure ()

def addr (tag : NodeTag) (sym : Symbol) : NodeLowering := ofValue tag (emitAddr sym)

def deref (tag : NodeTag) (address : Part) : NodeLowering :=
  ofValue tag do
    let a ← address.value
    emit { op := .load, ty := tag.ty, left := some a }

def arithUnary (tag : NodeTag) (op : Op) (x : Part) : NodeLowering :=
  ofValue tag do
    let v ← x.value
    emit { op, ty := tag.ty, left := some v }

def not (tag : NodeTag) (x : Part) : NodeLowering :=
  ofJump tag
    (do
      let v ← x.value
      let z ← zero x.ty
      emit { op := .cmp .eq, ty := .int, left := some v, right := some z })
    fun t f => x.branch f t

def unary (tag : NodeTag) (op : UnaryOp) (x : Part) : NodeLowering :=
  match op with
  | .neg => arithUnary tag .neg x
  | .compl => arithUnary tag .compl x
  | .not => not tag x

def arith (tag : NodeTag) (op : Op) (l r : Part) : NodeLowering :=
  ofValue tag do
    let lv ← l.value
    let rv ← r.value
    emit { op, ty := tag.ty, left := some lv, right := some rv }

def relation (tag : NodeTag) (cond : Cond) (l r : Part) : NodeLowering :=
  ofJump tag
    (do
      let lv ← l.value
      let rv ← r.value
      emit { op := .cmp cond, ty := .int, left := some lv, right := some rv })
    fun t f => do
      let lv ← l.value
      let rv ← r.value
      compare cond lv rv t f

/-- The value of a condition: branch, then store one or zero. -/
def truthValue (branch : (t f : Option Symbol) → Lower Unit) : Lower LinId := do
  let tmp ← freshTemp .int
  let other ← freshLabel
  let join ← freshLabel
  branch none (some other)
  let one ← onSymbols (·.intConst 1 .int)
  let one ← emitConst one .int
  storeTo tmp .int one
  code (.jump join)
  place other
  let z ← zero .int
  storeTo tmp .int z
  place join
  loadFrom tmp .int

def logical (tag : NodeTag) (jump : (t f : Option Symbol) → Lower Unit) (special : Lower Unit) :
    NodeLowering
  | .effect => effectWith tag special
  | goal => ofJump tag (truthValue (branchWith tag jump)) jump goal

def logAnd (tag : NodeTag) (a b : Part) : NodeLowering :=
  logical tag
    (fun t f =>
      match f with
      | some f => do
        a.branch none (some f)
        b.branch t (some f)
      | none => do
        let skip ← freshLabel
        a.branch none (some skip)
        b.branch t none
        place skip)
    (do
      let done ← freshLabel
      a.branch none (some done)
      b.effect
      place done)

def logOr (tag : NodeTag) (a b : Part) : NodeLowering :=
  logical tag
    (fun t f =>
      match t with
      | some t => do
        a.branch (some t) none
        b.branch (some t) f
      | none => do
        let taken ← freshLabel
        a.branch (some taken) none
        b.branch none f
        place taken)
    (do
      let done ← freshLabel
      a.branch (some done) none
      b.effect
      place done)

def binary (tag : NodeTag) (op : BinaryOp) (l r : Part) : NodeLowering :=
  match op with
  | .add => arith tag .add l r
  | .sub => arith tag .sub l r
  | .mul => arith tag .mul l r
  | .div => arith tag .div l r
  | .mod => arith tag .mod l r
  | .and => arith tag .and l r
  | .or => arith tag .or l r
  | .xor => arith tag .xor l r
  | .shl => arith tag .shl l r
  | .shr => arith tag .shr l r
  | .eq => relation tag .eq l r
  | .ne => relation tag .ne l r
  | .lt => relation tag .lt l r
  | .le => relation tag .le l r
  | .gt => relation tag .gt l r
  | .ge => relation tag .ge l r
  | .logAnd => logAnd tag l r
  | .logOr => logOr tag l r

/-- A store; where it narrows, the value of the assignment is the narrowed one. -/
def assign (tag : NodeTag) (address v : Part) : NodeLowering :=
  ofValue tag do
    let a ← address.value
    let rv ← v.value
    let _ ← emit { op := .assign, ty := tag.ty, left := some a, right := some rv }
    if tag.ty.isInteger && v.ty.isInteger && decide (tag.ty.size < v.ty.size) then
      emit { op := .cvt, ty := tag.ty, left := some rv }
    else return rv

def choose (c a b : Part) : Lower Unit := do
  let other ← freshLabel
  let join ← freshLabel
  c.branch none (some other)
  a.effect
  code (.jump join)
  place other
  b.effect
  place join

/-- The value of one of two expressions, by way of a temporary. -/
def chooseValue (ty : CType) (c a b : Part) : Lower LinId := do
  let tmp ← freshTemp ty
  let other ← freshLabel
  let join ← freshLabel
  c.branch none (some other)
  let av ← a.value
  storeTo tmp ty av
  code (.jump join)
  place other
  let bv ← b.value
  storeTo tmp ty bv
  place join
  loadFrom tmp ty

def cond (tag : NodeTag) (c a b : Part) : NodeLowering
  | .effect => effectWith tag (choose c a b)
  | goal =>
    ofValue tag
      (if tag.ty = .void then do
        choose c a b
        zero .int
      else chooseValue tag.ty c a b)
      goal

/-- Adds to the bytes of the arguments of a call, which are counted with 32 bits. -/
def countBytes (bytes size : Nat) : Lower Nat :=
  let bytes := bytes + roundToSlot size
  if bytes < 0x100000000 then pure bytes else throw (.invariant (.aborted .argumentOverflow))

theorem countBytes_bind {α : Type} (bytes size : Nat) (f : Nat → Lower α) :
    countBytes bytes size >>= f =
      if bytes + roundToSlot size < 0x100000000 then f (bytes + roundToSlot size)
      else throw (.invariant (.aborted .argumentOverflow)) := by
  unfold countBytes
  dsimp only
  split <;> rfl

/-- Pushes arguments in the order given and counts their bytes on. -/
def pushArgs (bytes : Nat) : List Part → Lower Nat
  | [] => return bytes
  | arg :: rest => do
    let v ← arg.value
    code (.arg v)
    pushArgs (← countBytes bytes arg.ty.size) rest

/-- Arguments are evaluated and pushed last to first, then the address for a struct result, then
the callee is evaluated. -/
def call (tag : NodeTag) (callee : Part) (args : List Part) : NodeLowering :=
  ofValue tag do
    if tag.ty.isStruct then
      let out ← freshTemp tag.ty
      let bytes ← pushArgs 0 args.reverse
      let a ← emitAddr out
      code (.arg a)
      let bytes ← countBytes bytes CType.pointer.size
      let f ← callee.value
      let _ ← emit { op := .call, ty := .void, left := some f, aux := bytes }
      loadFrom out tag.ty
    else
      let bytes ← pushArgs 0 args.reverse
      let f ← callee.value
      emit { op := .call, ty := tag.ty, left := some f, aux := bytes }

/-- No code is needed where the class stays the same or the value is dropped. -/
def cast (tag : NodeTag) (x : Part) : NodeLowering :=
  ofValue tag do
    let v ← x.value
    if tag.ty = .void ∨ x.ty.valueClass = tag.ty.valueClass then return v
    else emit { op := .cvt, ty := tag.ty, left := some v }

def comma (tag : NodeTag) (a b : Part) : NodeLowering
  | .effect => do
    a.effect
    b.effect
  | goal =>
    ofJump tag
      (do
        a.effect
        b.value)
      (fun t f => do
        a.effect
        b.branch t f)
      goal

end NodeLowering

mutual

/-- How an expression is lowered, from how its parts are. -/
def Expr.lower : Expr → NodeLowering
  | .const tag sym, goal => NodeLowering.const tag sym goal
  | .addr tag sym, goal => NodeLowering.addr tag sym goal
  | .deref tag address, goal => NodeLowering.deref tag ⟨address.ty, address.lower⟩ goal
  | .unary tag op x, goal => NodeLowering.unary tag op ⟨x.ty, x.lower⟩ goal
  | .binary tag op l r, goal =>
    NodeLowering.binary tag op ⟨l.ty, l.lower⟩ ⟨r.ty, r.lower⟩ goal
  | .assign tag address v, goal =>
    NodeLowering.assign tag ⟨address.ty, address.lower⟩ ⟨v.ty, v.lower⟩ goal
  | .cond tag c a b, goal =>
    NodeLowering.cond tag ⟨c.ty, c.lower⟩ ⟨a.ty, a.lower⟩ ⟨b.ty, b.lower⟩ goal
  | .call tag callee args, goal =>
    NodeLowering.call tag ⟨callee.ty, callee.lower⟩ (Expr.parts args) goal
  | .cast tag x, goal => NodeLowering.cast tag ⟨x.ty, x.lower⟩ goal
  | .comma tag a b, goal => NodeLowering.comma tag ⟨a.ty, a.lower⟩ ⟨b.ty, b.lower⟩ goal

def Expr.parts : List Expr → List Part
  | [] => []
  | e :: rest => ⟨e.ty, e.lower⟩ :: Expr.parts rest

end

namespace Expr

def value (e : Expr) : Lower LinId := e.lower .value

def effect (e : Expr) : Lower Unit := e.lower .effect

def branch (e : Expr) (t f : Option Symbol) : Lower Unit := e.lower (.branch t f)

end Expr

namespace Lower

def linearize (e : Expr) (t f : Option Symbol) : Lower (Option LinId) :=
  if t.isNone && f.isNone then some <$> e.value
  else do
    e.branch t f
    return none

def declare (d : Decl) : Lower Unit := do
  code (.declare d.sym)
  let ty := (← get).symbols.ty d.sym
  if d.zeroFill then
    let a ← emitAddr d.sym
    code (.zeroFill a (roundToSlot ty.size))
  match d.init with
  | some e =>
    let v ← e.value
    storeTo d.sym ty v
  | none => pure ()

def declareAll : List Decl → Lower Unit
  | [] => pure ()
  | d :: rest => do
    declare d
    declareAll rest

def ret : Option Expr → Lower Unit
  | none => code (.ret none)
  | some e => do
    match (← get).output, e.ty.isStruct with
    | some output, true =>
      let v ← e.value
      let out ← loadFrom output .pointer
      let _ ← emit { op := .assign, ty := e.ty, left := some out, right := some v }
      code (.ret none)
    | _, _ =>
      let v ← e.value
      code (.ret (some v))

def inLoop (labels : LoopLabels) (body : Lower Unit) : Lower Unit := do
  modify fun s => { s with loops := labels :: s.loops }
  try body finally modify fun s => { s with loops := s.loops.tail }

def leaveLoop (pick : LoopLabels → Symbol) (outside : Unsupported) : Lower Unit := do
  match (← get).loops with
  | l :: _ => code (.jump (pick l))
  | [] => throw (.unsupported outside)

end Lower

mutual

def Stmt.lower : Stmt → Lower Unit
  | .expr e => e.effect
  | .when c body => do
    let done ← freshLabel
    c.branch none (some done)
    body.lower
    place done
  | .ifElse c a b => do
    let other ← freshLabel
    let done ← freshLabel
    c.branch none (some other)
    a.lower
    code (.jump done)
    place other
    b.lower
    place done
  | .while c body => do
    let top ← freshLabel
    let test ← freshLabel
    let done ← freshLabel
    code (.jump test)
    place top
    inLoop ⟨test, done⟩ body.lower
    place test
    c.branch (some top) none
    place done
  | .block decls body => do
    modify fun s => { s with level := s.level + 1 }
    let level := (← get).level
    code (.blockEnter level)
    declareAll decls
    Stmt.lowerAll body
    code (.blockLeave level)
    modify fun s => { s with level := s.level - 1 }
  | .ret value => Lower.ret value
  | .break => leaveLoop LoopLabels.done .breakOutsideLoop
  | .continue => leaveLoop LoopLabels.next .continueOutsideLoop

def Stmt.lowerAll : List Stmt → Lower Unit
  | [] => pure ()
  | s :: rest => do
    s.lower
    Stmt.lowerAll rest

end

def Lowering.start (symbols : SymbolTable) : Lowering := { symbols := symbols.nextPass.2 }

def FunctionDef.lowerBody (d : FunctionDef) : Lower Symbol := do
  let exit ← freshLabel
  modify fun s => { s with output := d.output }
  code .frameEnter
  d.body.lower
  place exit
  code .frameExit
  return exit

/-- Lowers a function. What it enters in the symbol table stays, also if it is refused. -/
def FunctionDef.lower (d : FunctionDef) : EStateM CompileError SymbolTable LinearFunction :=
  fun symbols =>
    match d.lowerBody (Lowering.start symbols) with
    | .ok exit s =>
      .ok ⟨d.name, d.ret, d.output.toList ++ d.params, s.codes, s.nodes, exit⟩ s.symbols
    | .error e s => .error e s.symbols

end CBackend
