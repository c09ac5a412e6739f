import CBackend.Machine.Run
import CBackend.Session
import CBackend.Tree.Builder

/-!
The sample program: four built-in functions that are compiled, listed and, on request, run on the
reference machine.
-/

namespace CBackend.Demo

structure Sample where
  name : String
  function : FunctionDef
  args : List Value

open Build

def squareSum : Build FunctionDef := do
  let f ← onSymbols (·.function "square_sum" .int)
  let x ← onSymbols (·.global "x" .int)
  let a ← onSymbols (·.param "a" .int)
  let b ← onSymbols (·.param "b" .int)
  let sum ← binary .add (← var a) (← var b)
  let again ← binary .add (← var a) (← var b)
  let product ← binary .mul sum again
  let store ← stmt (.expr (← assign (← var x) product))
  let ret ← stmt (.ret (some (← var x)))
  function f [a, b] (← stmt (.block [] [store, ret]))

def maximum : Build FunctionDef := do
  let f ← onSymbols (·.function "max" .int)
  let a ← onSymbols (·.param "a" .int)
  let b ← onSymbols (·.param "b" .int)
  let test ← binary .gt (← var a) (← var b)
  let taken ← stmt (.ret (some (← var a)))
  let other ← stmt (.ret (some (← var b)))
  let choice ← stmt (.ifElse test taken other)
  function f [a, b] (← stmt (.block [] [choice]))

def factorial : Build FunctionDef := do
  let f ← onSymbols (·.function "fact" .int)
  let n ← onSymbols (·.param "n" .int)
  let r ← onSymbols (·.localVar "r" .int)
  let start ← int 1
  let test ← binary .gt (← var n) (← int 1)
  let product ← binary .mul (← var r) (← var n)
  let multiply ← assign (← var r) product
  let less ← binary .sub (← var n) (← int 1)
  let decrement ← assign (← var n) less
  let body ← stmt (.block [] [← stmt (.expr multiply), ← stmt (.expr decrement)])
  let loop ← stmt (.while test body)
  let ret ← stmt (.ret (some (← var r)))
  function f [n] (← stmt (.block [⟨r, some start, false⟩] [loop, ret]))

/-- The body is `return (next(1) + next(2)) + (next(3) + next(4));`; the host supplies `next`. -/
def sumCalls (next : Symbol) : Build FunctionDef := do
  let f ← onSymbols (·.function "sum_calls" .int)
  let first ← callFunction next [← int 1]
  let second ← callFunction next [← int 2]
  let third ← callFunction next [← int 3]
  let fourth ← callFunction next [← int 4]
  let left ← binary .add first second
  let right ← binary .add third fourth
  let total ← binary .add left right
  let ret ← stmt (.ret (some total))
  function f [] (← stmt (.block [] [ret]))

def samples : Build (Symbol × List Sample) := do
  let next ← onSymbols (·.function "next" .int)
  return (next, [
    ⟨"square_sum", ← squareSum, [.ofInt 3, .ofInt 4]⟩,
    ⟨"max", ← maximum, [.ofInt (-7), .ofInt 2]⟩,
    ⟨"fact", ← factorial, [.ofInt 6]⟩,
    ⟨"sum_calls", ← sumCalls next, []⟩])

structure Options where
  sample : Option String := none
  prune : Bool := true
  run : Bool := false

def Options.parse : List String → Options → Option Options
  | [], o => some o
  | "--sample" :: name :: rest, o => parse rest { o with sample := some name }
  | "--run" :: rest, o => parse rest { o with run := true }
  | "--no-prune" :: rest, o => parse rest { o with prune := false }
  | "--trace" :: rest, o => parse rest o
  | arg :: rest, o =>
    match arg.splitOn "=" with
    | "--sample" :: name@(_ :: _) => parse rest { o with sample := some ("=".intercalate name) }
    | _ => none

/-- What a run of the program prints and returns. -/
structure Outcome where
  code : Nat
  stdout : String := ""
  stderr : String := ""

abbrev World := Nat

/-- The host function returns ten times its argument. -/
def next : HostFunction World := fun args calls => (.ofInt (args.int 0 * 10), calls + 1)

def callLine (s : Sample) (v : Value) : String :=
  s.name ++ "([" ++ ", ".intercalate (s.args.map Value.diagnostic) ++ "]) = " ++ v.diagnostic

/-- Runs samples one after another, up to the first that fails. -/
def runAll (m : Machine World) : List Sample → Except String (List String × Machine World)
  | [] => .ok ([], m)
  | s :: rest =>
    match RunM.call s.function.name s.args m with
    | .error e _ => .error e.message
    | .ok v m => do
      let (lines, m) ← runAll m rest
      return (callLine s v :: lines, m)

def lines (ls : List String) : String := String.join (ls.map (· ++ "\n"))

def runLines (symbols : SymbolTable) (nextSym : Symbol) (selected : List Sample)
    (compiled : List CompiledFunction) : Except String (List String) := do
  let m : Machine World := (Machine.init symbols 0).host nextSym next
  let m := compiled.foldl Machine.load m
  let (out, m) ← runAll m selected
  return out ++ [s!"host calls: {m.world}"]

def failure (text : String) : Outcome := { code := 1, stderr := "Error: \"" ++ text ++ "\"\n" }

def outcome (o : Options) : Outcome :=
  let ((nextSym, all), built) := samples.run {}
  let selected := all.filter fun s => o.sample.all (· == s.name)
  if selected.isEmpty then
    failure ("unknown sample; available: " ++ ", ".intercalate (all.map Sample.name))
  else
    let options : CompileOptions := { prune := o.prune }
    let session : Session := { bytesHeld := built.bytesHeld }
    let (results, session, g) :=
      session.compileEach (.init options built.symbols) (selected.map Sample.function)
    match results.mapM id with
    | .error e => failure e.message
    | .ok compiled =>
      let listed := compiled.map (·.listing g.symbols) ++ [session.stats.report]
      if o.run then
        match runLines g.symbols nextSym selected compiled with
        | .error e => { failure e with stdout := lines listed }
        | .ok ran => { code := 0, stdout := lines (listed ++ ran) }
      else { code := 0, stdout := lines listed }

end CBackend.Demo
