import Recheck.CommandLine

/-!
# Recheck — the program

Prints what the command line has to say, line by line, and exits as it says.
-/

/-- The entry point. -/
def main (args : List String) : IO UInt32 := do
  let outcome := Recheck.CommandLine.run args
  for line in outcome.lines do
    IO.println line
  return outcome.exitCode
