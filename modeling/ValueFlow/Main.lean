import ValueFlow.CommandLine.Session

/-!
# The command line

Runs a session on the file system and prints its report.
-/

namespace ValueFlow.CommandLine

/-- A fault of the file system in a session's words. Faults that a session knows
are told by their number. -/
def fileFault (e : IO.Error) : FileFault :=
  match e with
  | .noFileOrDirectory .. => .notFound
  | .inappropriateType _ code details | .invalidArgument _ code details =>
    if code = 20 then .notDirectory
    else if code = 21 then .isDirectory
    else if code = 36 then .nameTooLong
    else .other (details ++ " (os error " ++ toString code ++ ")")
  | e => .other (toString e)

/-- The files of the operating system. -/
def systemFiles : Files IO where
  read path := do
    try return .ok (← IO.FS.readFile path)
    catch e => return .error (fileFault e)
  write path text := do
    try
      IO.FS.writeFile path text
      return .ok ()
    catch e => return .error (fileFault e)

end ValueFlow.CommandLine

open ValueFlow.CommandLine in
/-- Runs the command line. -/
def main (args : List String) : IO UInt32 := do
  let report ← session systemFiles args
  IO.print report.stdout
  IO.eprint report.stderr
  return report.exitCode.toUInt32
