import CBackend.FlowGraph
import CBackend.Linear.Lowering
import CBackend.Listing
import CBackend.Selection.Rules

/-!
Compilation of one function. Its linear code is cut into blocks, the values of the blocks in use are
numbered with the last code that refers to each and the number of uses to come, and then the codes
are selected in order. The size of the frame is known only at the end and is patched into the
instruction that reserves it.
-/

namespace CBackend

structure CompiledFunction where
  name : Symbol
  ret : CType
  params : List Symbol
  code : InstrList
  frameSize : Nat
  blocks : Nat
  stats : FunctionStats
  deriving Inhabited

namespace CompiledFunction

def instrs (f : CompiledFunction) : List Instr := f.code.toList

def count (f : CompiledFunction) (op : Opcode) : Nat := f.instrs.countP (·.op == op)

def listing (f : CompiledFunction) (symbols : SymbolTable) : String :=
  symbols.name f.name ++ ":\n" ++ f.code.listing symbols

/-- The listing line by line; names may hold line ends of their own. -/
def lines (f : CompiledFunction) (symbols : SymbolTable) : List String :=
  textLines (f.listing symbols)

end CompiledFunction

/-- The pool while uses are being counted, with the nodes met so far. -/
structure UseCount where
  pool : ValuePool
  met : List NodeId

/-- Counts one use of a node at `seq`. A root is not used itself, only its operands are. Selection
enters the operands of a node when it computes the node, so they are counted the first time, and
every time for nodes that are computed anew at each use. -/
def UseCount.add (seq : Nat) : (fuel : Nat) → (root : Bool) → NodeId → UseCount → UseCount
  | 0, _, _, c => c
  | fuel + 1, root, id, c =>
    let again := c.pool.passesThrough id
    let pool := c.pool.modify id fun n => { n with
      lastRef := max n.lastRef seq
      pending := if root then n.pending else n.pending + 1 }
    let first := !c.met.contains id
    let c := ⟨pool, if first then id :: c.met else c.met⟩
    let key := (pool.node id).key
    if root || (!key.op.hasSideEffect && (first || again)) then
      key.kids.foldl (fun c k => add seq fuel false k c) c
    else c

namespace Gen

def numberOf (lin : LinId) : Gen NodeId := do
  match (← get).numbers[lin.index]? with
  | some (some id) => return id
  | _ => throw (.invariant (.neverNumbered lin))

def numberOf? : Option LinId → Gen (Option NodeId)
  | some lin => some <$> numberOf lin
  | none => return none

def nodeAt (f : LinearFunction) (lin : LinId) : Gen LinNode :=
  if lin.index < f.nodes.size then pure (f.node lin)
  else throw (.invariant (.aborted (.danglingNode lin)))

theorem nodeAt_bind {α : Type} (f : LinearFunction) (lin : LinId) (rest : LinNode → Gen α) :
    nodeAt f lin >>= rest = if lin.index < f.nodes.size then rest (f.node lin)
      else throw (.invariant (.aborted (.danglingNode lin))) := by
  unfold nodeAt
  split <;> rfl

/-- Numbers the value of a linear node. What has a side effect is never unified. -/
def numberNode (f : LinearFunction) (lin : LinId) : Gen NodeId := do
  let n ← nodeAt f lin
  let left ← numberOf? n.left
  let right ← numberOf? n.right
  let step : ValuePool → NodeId × ValuePool ←
    if n.op.hasSideEffect then pure fun p => p.fresh ⟨n.op, n.ty, n.sym, left, right⟩ n.aux
    else
      match left, right, n.sym with
      | none, none, some sym => pure fun p => p.intern (.leaf n.op n.ty sym)
      | some k, none, _ => pure fun p => p.intern (.unary n.op n.ty k)
      | some l, some r, sym => pure fun p => p.intern (.binary n.op n.ty l r sym)
      | _, _, _ => throw (.invariant (.malformedNode n.op))
  modifyGet fun g =>
    let (id, pool) := step g.pool
    (id, { g with pool, numbers := g.numbers.setIfInBounds lin.index (some id) })

def countUse (seq : Nat) (root : Bool) (id : NodeId) (met : List NodeId) : Gen (List NodeId) :=
  modifyGet fun g =>
    let c := UseCount.add seq (id.index + 1) root id ⟨g.pool, met⟩
    (c.met, { g with pool := c.pool })

/-- The variable an assignment stores to, if it is known. -/
def storeTarget? (pool : ValuePool) (id : NodeId) : Option Symbol :=
  match (pool.node id).key.left with
  | some a => if (pool.node a).op = .addr then (pool.node a).key.sym else none
  | none => none

def onPool (step : ValuePool → ValuePool) : Gen Unit :=
  modify fun g => { g with pool := step g.pool }

/-- Numbers the value of one code and counts what it uses. A label, a call and a store through an
address that is not known begin a new generation. -/
def numberCode (f : LinearFunction) (met : List NodeId) (pos : Nat) : Gen (List NodeId) := do
  match f.codes.getD pos default with
  | .label _ =>
    onPool ValuePool.reset
    return met
  | .eval lin =>
    let id ← numberNode f lin
    match (← node id).op with
    | .assign =>
      let known := storeTarget? (← get).pool id
      let met ← countUse pos true id met
      match known with
      | some sym => onPool (·.invalidate sym)
      | none => onPool ValuePool.reset
      return met
    | .call =>
      let met ← countUse pos true id met
      onPool ValuePool.reset
      return met
    | _ => return met
  | .arg lin | .ret (some lin) | .zeroFill lin _ => countUse pos false (← numberOf lin) met
  | .branch lin _ => countUse pos true (← numberOf lin) met
  | _ => return met

def positions (b : Block) : List Nat := List.range' b.span.start (b.span.stop - b.span.start)

def numberValues (f : LinearFunction) (g : FlowGraph) : Gen Unit := do
  modify fun s => { s with numbers := Array.replicate f.nodes.size none }
  let _ ← (g.reachableBlocks.flatMap positions).foldlM (numberCode f) []

def bindParam (sym : Symbol) : Gen Unit :=
  modify fun g =>
    let (_, frame, symbols) := g.frame.bindParam sym g.symbols
    { g with frame, symbols }

/-- The codes that shape the frame. -/
def shapeFrame : Code → Gen Unit
  | .blockEnter level => modify fun g => { g with frame := g.frame.enterBlock level }
  | .blockLeave level => do
    let (result, frame) := (← get).frame.leaveBlock level (← get).seq
    modify fun g => { g with frame }
    match result with
    | .ok () => pure ()
    | .error e => throw (.invariant e)
  | .declare sym => modify fun g =>
    let (_, frame, symbols) := g.frame.declareLocal sym g.symbols
    { g with frame, symbols }
  | _ => pure ()

def selectCode (select : Selector) (f : LinearFunction) (pos : Nat) : Gen Unit := do
  match f.codes.getD pos default with
  | .eval lin => if (← nodeAt f lin).op.hasSideEffect then selectEffect select (← numberOf lin)
  | .arg lin => pushArg select (← numberOf lin)
  | .jump target => selectJump target
  | .branch lin target => selectBranch select (← numberOf lin) target
  | .label label => selectLabel label
  | .ret value =>
    match value with
    | some lin => returnValue select (← numberOf lin)
    | none => pure ()
    -- A return just before the exit falls through.
    if f.codes[pos + 1]? ≠ some (.label f.exit) then selectJump f.exit
  | .zeroFill lin bytes => selectZeroFill select (← numberOf lin) bytes
  | .frameEnter =>
    let id ← emit { op := .enter, ty := .void }
    modify fun g => { g with enter := some id }
  | .frameExit =>
    emit' { op := .leave, ty := .void }
    emit' { op := .ret, ty := .void }
  | code => shapeFrame code

/-- A code of a block: selected if the block is in use; what shapes the frame runs in any case, so
that the frame stays balanced across dropped code. -/
def stepCode (select : Selector) (f : LinearFunction) (reachable : Bool) (pos : Nat) : Gen Unit := do
  modify fun g => { g with seq := pos }
  if reachable then selectCode select f pos
  else
    let code := f.codes.getD pos default
    if code.isStructural then shapeFrame code

def flowGraph (f : LinearFunction) : Gen FlowGraph := do
  let graph ← ofExcept (FlowGraph.build f.codes f.exit)
  if (← get).options.prune then
    let (pruned, graph) := graph.prune
    modifyStats fun s => { s with prunedBlocks := pruned }
    return graph
  else return graph

/-- Takes the finished instructions out, with the size of the frame filled in. -/
def finish : Gen (InstrList × Nat) :=
  modifyGet fun g =>
    let size := g.frame.maxSize
    let code :=
      match g.enter with
      | some id => g.code.modify id fun i => { i with bytes := size }
      | none => g.code
    ((code, size), { g with code := .empty })

end Gen

open Gen

/-- All that is done before the first code is selected. -/
def LinearFunction.prepare (f : LinearFunction) : Gen FlowGraph := do
  modify Generator.reset
  let graph ← flowGraph f
  numberValues f graph
  modify fun g => { g with stats := { g.stats with
    sharedValues := g.pool.hits
    poolResets := g.pool.resets } }
  f.params.forM bindParam
  return graph

/-- The code positions in the order they are selected in, each with whether its block is in use. -/
def FlowGraph.steps (g : FlowGraph) : List (Bool × Nat) :=
  g.blocks.toList.flatMap fun b => (positions b).map (b.reachable, ·)

def LinearFunction.generate (select : Selector) (f : LinearFunction) : Gen CompiledFunction := do
  let graph ← f.prepare
  graph.steps.forM fun (reachable, pos) => stepCode select f reachable pos
  let (code, frameSize) ← finish
  return {
    name := f.name
    ret := f.ret
    params := f.params
    code
    frameSize
    blocks := graph.reachableBlocks.length
    stats := (← get).stats }

/-- An overflow of the frame is the end, so nothing counts that comes after it. -/
def LinearFunction.compileWith (select : Selector) (f : LinearFunction) : Gen CompiledFunction :=
  tryFinally (f.generate select) checkFrame

def LinearFunction.compile (f : LinearFunction) : Gen CompiledFunction := f.compileWith select

/-- Runs a step of lowering on the symbol table of a generator. -/
def Gen.onTable {α : Type} (step : EStateM CompileError SymbolTable α) : Gen α := fun g =>
  match step g.symbols with
  | .ok a symbols => .ok a { g with symbols }
  | .error e symbols => .error e { g with symbols }

def FunctionDef.compile (d : FunctionDef) : Gen CompiledFunction := do
  let f ← onTable d.lower
  f.compile

end CBackend
