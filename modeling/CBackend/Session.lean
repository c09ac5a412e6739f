import CBackend.Compile

/-!
A session compiles the functions of one unit and adds up their statistics. It can be given a limit
on the storage its trees may take, which is checked before each function.
-/

namespace CBackend

structure SessionStats where
  functions : Nat := 0
  instructions : Nat := 0
  sharedValues : Nat := 0
  poolResets : Nat := 0
  spills : Nat := 0
  reloads : Nat := 0
  evictions : Nat := 0
  prunedBlocks : Nat := 0
  frameBytes : Nat := 0
  deriving DecidableEq, Repr, Inhabited

namespace SessionStats

def record (s : SessionStats) (f : CompiledFunction) : SessionStats where
  functions := s.functions + 1
  instructions := s.instructions + f.stats.instructions
  sharedValues := s.sharedValues + f.stats.sharedValues
  poolResets := s.poolResets + f.stats.poolResets
  spills := s.spills + f.stats.spills
  reloads := s.reloads + f.stats.reloads
  evictions := s.evictions + f.stats.evictions
  prunedBlocks := s.prunedBlocks + f.stats.prunedBlocks
  frameBytes := s.frameBytes + f.frameSize

def report (s : SessionStats) : String :=
  "\n".intercalate [
    "Compilation Statistics:",
    s!"  Functions compiled: {s.functions}",
    s!"  Instructions emitted: {s.instructions}",
    s!"  Common subexpressions: {s.sharedValues}",
    s!"  DAG resets: {s.poolResets}",
    s!"  Spills: {s.spills}",
    s!"  Reloads: {s.reloads}",
    s!"  Evictions: {s.evictions}",
    s!"  Pruned blocks: {s.prunedBlocks}",
    s!"  Frame bytes: {s.frameBytes}"]

end SessionStats

structure Session where
  bytesHeld : Nat
  memoryLimit : Option Nat := none
  stats : SessionStats := {}
  current : Option String := none
  deriving Inhabited

namespace Session

def checkMemory (s : Session) : Except CompileError Unit :=
  match s.memoryLimit with
  | some limit => if limit < s.bytesHeld then .error (.resourceExhausted s.bytesHeld) else .ok ()
  | none => .ok ()

/-- Compiles one function. A failure is counted nowhere but leaves what it did to the generator. -/
def compile (s : Session) (d : FunctionDef) (g : Generator) :
    Except CompileError CompiledFunction × Session × Generator :=
  let s := { s with current := some (g.symbols.name d.name) }
  match s.checkMemory with
  | .error e => (.error e, s, g)
  | .ok () =>
    match d.compile g with
    | .ok f g => (.ok f, { s with stats := s.stats.record f }, g)
    | .error e g => (.error e, s, g)

/-- Compiles functions in order, also after one that fails. -/
def compileEach (s : Session) (g : Generator) :
    List FunctionDef → List (Except CompileError CompiledFunction) × Session × Generator
  | [] => ([], s, g)
  | d :: rest =>
    let (r, s, g) := s.compile d g
    let (rs, s, g) := s.compileEach g rest
    (r :: rs, s, g)

end Session

end CBackend
