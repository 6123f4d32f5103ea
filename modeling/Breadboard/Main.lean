import Breadboard.CommandLine

/-!
# The program

Runs the command line and prints what it says.
-/

/-- The entry point. -/
def main (arguments : List String) : IO UInt32 := do
  let outcome := Breadboard.CommandLine.run arguments
  for line in outcome.errors do
    IO.eprintln line
  IO.print outcome.output
  return outcome.status.toUInt32
