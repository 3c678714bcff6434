/-
  The program: runs a command on the files of the system and prints what it
  reports.
-/
import ShiftReduce.CommandLine.Command

namespace ShiftReduce

/-- The number of a system error; it comes with either sign. -/
def errorNumber (code : UInt32) : Nat := min code.toNat (0 - code).toNat

/-- What a failure of the system means to a command. -/
def FileError.ofSystem (error : IO.Error) : FileError :=
  match error with
  | .noFileOrDirectory _ _ _ => .notFound
  | .inappropriateType _ code _ =>
    match errorNumber code with
    | 20 => .notDirectory
    | 21 => .isDirectory
    | _ => .other (toString error)
  | .invalidArgument _ code _ =>
    if errorNumber code = 36 then .nameTooLong else .other (toString error)
  | _ => .other (toString error)

instance : Files IO where
  read path := do
    try return .ok (← IO.FS.readBinFile path)
    catch error => return .error (.ofSystem error)
  write path text := do
    try
      IO.FS.writeFile path text
      return .ok ()
    catch error => return .error (.ofSystem error)

end ShiftReduce

/-- Runs the command that the arguments ask for. -/
def main (args : List String) : IO UInt32 := do
  let report : ShiftReduce.CommandReport ← ShiftReduce.Command.runArgs args
  (← IO.getStdout).putStr report.output
  (← IO.getStderr).putStr report.errors
  return report.code.toUInt32
