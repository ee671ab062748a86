/-
  Clausal.Main

  The command line program: reads the file it is asked to read, prints what the conversion reports
  and ends with its exit code.
-/
import Clausal.CommandLine.Run

namespace Clausal.CommandLine

/-- Why a file could not be read. The system's error numbers may come negated. -/
def fileError (error : IO.Error) : FileError :=
  match error with
  | .noFileOrDirectory .. => .notFound
  | .inappropriateType _ code _ | .invalidArgument _ code _ | .otherError code _ =>
    match min code (0 - code) with
    | 20 => .notDirectory
    | 21 => .isDirectory
    | 36 => .nameTooLong
    | _ => .other (toString error)
  | _ => .other (toString error)

/-- The bytes of a file, or why there are none. -/
def readBytes (path : String) : IO (Except FileError ByteArray) := do
  match ← (IO.FS.readBinFile path).toBaseIO with
  | .ok bytes => return .ok bytes
  | .error error => return .error (fileError error)

end Clausal.CommandLine

/-- Converts the DIMACS file that the arguments name. -/
def main (arguments : List String) : IO UInt32 := do
  let report ← Clausal.CommandLine.run Clausal.CommandLine.readBytes arguments
  IO.print report.output
  IO.eprint report.errors
  return report.exitCode
