import FlatScope.CommandLine.Run

/-!
# The command-line program

Reads the input that the arguments name, and prints what `CommandLine` says.
-/

namespace FlatScope.CommandLine

partial def readAll (stream : IO.FS.Stream) (done : ByteArray) : IO ByteArray := do
  let chunk ← stream.read 65536
  if chunk.isEmpty then return done else readAll stream (done ++ chunk)

/-- The number of a system error, which can also be given with a minus sign. -/
def errorNumber (code : UInt32) : Nat := code.toInt32.toInt.natAbs

/-- The reason behind a system error with a given number and description. -/
def reasonOfCode (code : UInt32) (description : String) : ReadError :=
  match errorNumber code with
  | 2 => .notFound
  | 20 => .notDirectory
  | 21 => .isDirectory
  | code => .other (description ++ " (os error " ++ toString code ++ ")")

def reasonOf : IO.Error → ReadError
  | .noFileOrDirectory _ code text | .inappropriateType _ code text
  | .permissionDenied _ code text | .resourceExhausted _ code text
  | .invalidArgument _ code text | .noSuchThing _ code text | .otherError code text =>
    reasonOfCode code text
  | error => .other (toString error)

def readSource (source : Source) : IO (Except ReadError ByteArray) := do
  try
    match source with
    | .stdin => return .ok (← readAll (← IO.getStdin) .empty)
    | .file path => return .ok (← IO.FS.readBinFile path)
  catch error => return .error (reasonOf error)

def emit (report : Report) : IO UInt32 := do
  IO.print report.stdout
  IO.eprint report.stderr
  return report.exitStatus.toUInt32

end FlatScope.CommandLine

open FlatScope in
/-- Evaluates one program and prints its value. -/
def main (arguments : List String) : IO UInt32 := do
  match CommandLine.start arguments with
  | .error report => CommandLine.emit report
  | .ok options =>
    let input ← CommandLine.readSource options.input
    let scopingValue ← IO.getEnv scopingVariable
    CommandLine.emit (CommandLine.finish options input scopingValue)
