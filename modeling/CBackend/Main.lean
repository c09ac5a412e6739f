import CBackend.Demo

/-!
The command line of the sample program.
-/

open CBackend in
def main (args : List String) : IO UInt32 := do
  match Demo.Options.parse args {} with
  | none =>
    IO.eprintln "usage: [--sample NAME] [--run] [--no-prune] [--trace]"
    return 2
  | some options =>
    let outcome := Demo.outcome options
    IO.print outcome.stdout
    IO.eprint outcome.stderr
    return outcome.code.toUInt32
