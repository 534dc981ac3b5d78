import AmbisonicReverb.CommandLine

/-!
The program: reads the configuration file that the arguments name, and writes the answer.
-/

open AmbisonicReverb

def readFile? (path : String) : IO (Option String) := do
  try
    return some (← IO.FS.readFile path)
  catch _ =>
    return none

def main (arguments : List String) : IO UInt32 := do
  let text ← match CommandLine.Parsers.standard.arguments arguments with
    | .request request => readFile? request.path
    | .answered _ | .misuse => pure none
  let answer := CommandLine.run (fun _ => text) arguments
  IO.print (CommandLine.output answer)
  if let .error failure := answer then
    IO.eprintln failure.message
  return CommandLine.exitCode answer
