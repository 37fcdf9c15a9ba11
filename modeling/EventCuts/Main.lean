import EventCuts.Command.Run

/-!
# The command line
-/

def main (arguments : List String) : IO UInt32 := do
  let outcome := EventCuts.Command.run arguments
  IO.print outcome.stdout
  IO.eprint outcome.stderr
  pure outcome.exitCode
