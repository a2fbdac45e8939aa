import CaptureGrammar.CommandLine.Program

/-! The executable. -/
open CaptureGrammar in
def main (args : List String) : IO UInt32 := do
  let stdin ← if CommandLine.readsInput args then (← IO.getStdin).readBinToEnd
    else pure ByteArray.empty
  let outcome := CommandLine.run args stdin
  outcome.log.forM IO.eprintln
  IO.print outcome.stdout
  IO.eprint outcome.stderr
  return outcome.code.toUInt32
