import Cilly.CommandLine

/-- Prints what the program has to say and ends with its status. -/
def main (args : List String) : IO UInt32 := do
  let ending := Cilly.launch args
  IO.print ending.printed
  return (ending.status.getD 0).toNat.toUInt32
