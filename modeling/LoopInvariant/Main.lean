import LoopInvariant.CommandLine.Report
/-!
# The program

Reads the file that the arguments name and prints the report. No solver can be started as a process
from here, so that only the bounded one finds invariants.
-/

namespace LoopInvariant.CommandLine

/-- The text of a file, or why it cannot be read. -/
def readText (file : String) : IO (Except String String) := do
  try
    return .ok (← IO.FS.readFile file)
  catch e =>
    return .error e.toString

end LoopInvariant.CommandLine

open LoopInvariant CommandLine in
/-- Run the command line. -/
def main (args : List String) : IO UInt32 := do
  let text ← match CommandLine.read? args with
    | some (.run c) => readText c.file
    | _ => pure (.error "")
  let world : World :=
    { programs := fun _ => none, environment := fun _ => none, files := fun _ => text }
  let report := CommandLine.run world args
  IO.print report.output
  match report.failure with
  | some f =>
    IO.eprintln f.message
    match f.place? report.file with
    | some place => IO.eprintln (" --> " ++ place)
    | none => pure ()
  | none => pure ()
  return UInt32.ofNat report.status
