import CssSelectors.CommandLine

-- Runs the command line and hands over what it leaves behind.
def main (arguments : List String) : IO UInt32 := do
  let outcome := CssSelectors.CommandLine.run arguments
  IO.print outcome.out
  IO.eprint outcome.err
  return outcome.exit.toUInt32
