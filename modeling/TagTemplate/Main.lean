import TagTemplate.CommandLine.Report

/-! The command-line program: it reads the files that a request names and the
environment, and prints the report. -/
namespace TagTemplate.CommandLine

/-- The text of a file, if it can be read. -/
def readFile? (path : String) : IO (Option String) := do
  try
    return some (← IO.FS.readFile path)
  catch _ => return none

/-- The values that are there, under their names. -/
def lookUp (get? : String → IO (Option String)) (names : List String) : IO (Keyed String) := do
  let mut found := []
  for name in names do
    if let some value ← get? name then found := Keyed.insert name value found
  return found

end TagTemplate.CommandLine

open TagTemplate TagTemplate.CommandLine in
def main (args : List String) : IO UInt32 := do
  let files := ((Request.read args).toOption.map Request.files).getD []
  let texts ← lookUp readFile? files
  let environment ← lookUp (fun name => IO.getEnv name) Settings.variableNames
  let report := Report.ofArguments (texts.get? ·) (environment.get? ·) args
  IO.print report.output
  for message in report.errors do IO.eprintln ("error: " ++ message)
  return report.code.toUInt32
