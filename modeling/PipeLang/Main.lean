import PipeLang.CommandLine.Run

/-!
# The program

Reads the arguments and the file that they name, and writes what the report says.
-/

namespace PipeLang.CommandLine

/-- The reason for a failure to read; the system's number can come with its sign turned. -/
def ReadError.ofSystem : IO.Error → ReadError
  | .noFileOrDirectory _ number words | .inappropriateType _ number words
  | .permissionDenied _ number words | .invalidArgument _ number words =>
    ofNumber number.toInt32.toInt.natAbs words
  | .userError _ => .noText
  | e => ⟨toString e, none⟩

/-- The text of a file, or the reason why it cannot be read. -/
def readSource (file : String) : IO (Except ReadError String) := do
  try
    return .ok (← IO.FS.readFile file)
  catch e =>
    return .error (.ofSystem e)

/-- The report on the arguments. -/
def reportOn (args : List String) : IO Report := do
  match Options.ofArguments args with
  | .error halt => return halt.report
  | .ok options =>
    let text ← readSource (options.file?.getD "")
    return run options fun _ => text

end PipeLang.CommandLine

def main (args : List String) : IO UInt32 := do
  let report ← PipeLang.CommandLine.reportOn args
  (← IO.getStdout).putStr report.output
  if let some line := report.errorLine? then (← IO.getStderr).putStrLn line
  return report.code.toUInt32
