import Formula.CommandLine

/-!
# The program

Runs a command line and prints its outcome.
-/

/-- Prints the outcome of a command line and exits with its code. -/
def main (arguments : List String) : IO UInt32 := do
  let outcome := Formula.CommandLine.run arguments
  (← IO.getStdout).putStr outcome.output
  (← IO.getStderr).putStr outcome.errors
  return outcome.code.toUInt32
