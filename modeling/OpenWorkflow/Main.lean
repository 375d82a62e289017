import OpenWorkflow.CommandLine.Run

/-!
# The program

Runs a command line on the files of the disk.
-/

open OpenWorkflow.CommandLine

/-- Is this the system's code of an error? The code of some calls is negated. -/
def hasCode (code expected : UInt32) : Bool := code = expected || code = 0 - expected

/-- The reason why the system refuses a file. -/
def fileError : IO.Error → FileError
  | .noFileOrDirectory _ _ _ => .notFound
  | .inappropriateType _ code _ => if hasCode code 21 then .isDirectory else .notDirectory
  | .permissionDenied _ _ _ => .other "Permission denied (os error 13)"
  | .invalidArgument _ code reason =>
    if hasCode code 36 then .nameTooLong else .other reason
  | .resourceExhausted _ code reason => if hasCode code 28 then .noSpace else .other reason
  | .userError _ => .notText
  | e => .other (toString e)

/-- Access to the files of the disk. -/
def diskAccess : FileAccess IO where
  read path := do
    try
      return .ok (← IO.FS.readFile path)
    catch e =>
      return .error (fileError e)
  write path text := do
    try
      IO.FS.writeFile path text
      return .ok ()
    catch e =>
      return .error (fileError e)

/-- Answers the command line. -/
def main (args : List String) : IO UInt32 := do
  let outcome ← run diskAccess args
  (← IO.getStdout).putStr outcome.stdout
  (← IO.getStderr).putStr outcome.stderr
  return outcome.exit.toUInt32
