/-
The command: reads the model files, and prints the report.
-/
import ObjectAction.Command.Report

namespace ObjectAction.Command

/-- The number of a system error, which may come with either sign. -/
def errorNumber (code : UInt32) : UInt32 := min code (-code)

/-- Why a file cannot be read. -/
def readError : IO.Error → ReadError
  | .noFileOrDirectory _ _ _ => .missing
  | .permissionDenied _ _ _ => .denied
  | .inappropriateType _ code _ => if errorNumber code = 20 then .notDirectory else .isDirectory
  | .invalidArgument _ code details =>
    if errorNumber code = 36 then .nameTooLong else .other details
  | e => .other (toString e)

/-- The text of a file, or why it cannot be read. -/
def readText (path : String) : IO (Except ReadError String) := do
  try
    return .ok (← IO.FS.readFile path)
  catch e =>
    return .error (readError e)

/-- The texts of the files that options name. -/
def readTexts (args : List String) : IO (List (String × Except ReadError String)) :=
  match readOptions .initial args with
  | .ok (.run o) => o.models.mapM fun path => return (path, ← readText path)
  | _ => return []

end ObjectAction.Command

open ObjectAction.Command in
/-- Prints what the command reports. -/
def main (args : List String) : IO UInt32 := do
  let texts ← readTexts args
  let report := run (fun path => (texts.lookup path).getD (.error .missing)) args
  (← IO.getStdout).putStr report.output
  (← IO.getStderr).putStr report.errors
  return report.exitCode
