import TypeResolution.CommandLine

/-!
# The program

Fetches the catalog file that the arguments name and prints the report.
-/

namespace TypeResolution

/-- The contents of a file, if it can be read. -/
def readContents (file : String) : IO (Option String) :=
  try
    return some (← IO.FS.readFile file)
  catch _ => return none

/-- Prints a report and gives its exit code. -/
def Report.print (r : Report) : IO UInt32 := do
  for l in r.output do
    IO.println l
  for l in r.notes do
    IO.eprintln l
  match r.complaint with
  | some message => IO.eprintln ("error: " ++ message)
  | none => pure ()
  return r.exitCode.toUInt32

end TypeResolution

open TypeResolution in
/-- Reads the arguments, answers them, and prints the answer. -/
def main (args : List String) : IO UInt32 := do
  match Options.parse args with
  | .error e => (Report.ofUsage e).print
  | .ok o => (o.run Fueled.runtimeFuel (← readContents o.catalog)).print
