/-
  Clausal.CommandLine.Run

  What the program does with its input: read DIMACS text, turn it into a formula, convert the
  formula with the numbering of the text or its sorted form, and write the clauses as DIMACS text.
  It writes to standard output only if all of that succeeds; otherwise it writes one line to
  standard error.

  The one thing the program asks of its surroundings is the bytes of a file, so `run` is written
  over any monad that can provide them.
-/
import Clausal.CommandLine.Arguments
import Clausal.CommandLine.FileTree
import Clausal.Dimacs.Reader
import Clausal.Dimacs.Writer
import Clausal.Extraction.Deferred

namespace Clausal.CommandLine

/-- Why an input is not converted. -/
inductive ConversionError where
  /-- The file gives no bytes. -/
  | file (cause : FileError)
  /-- The bytes are not UTF-8. -/
  | encoding
  /-- The text is not DIMACS. -/
  | read (cause : Dimacs.ReadError)
  /-- The clauses cannot be read by name. -/
  | problem (cause : Problem)
  /-- The formula cannot be converted. -/
  | failure (cause : Failure)
deriving DecidableEq

/-- The text of a conversion error. -/
def ConversionError.message : ConversionError → String
  | .file cause => cause.message
  | .encoding => "stream did not contain valid UTF-8"
  | .read cause => cause.message
  | .problem cause => cause.message
  | .failure cause => cause.message

/-! ## Conversion -/

/-- The clause list that the options make of a clause list. -/
def convert (sortNames clean : Bool) (input : ClauseList) : Except ConversionError ClauseList := do
  let own ← input.requireMap.mapError .problem
  let formula ← input.toFormula.mapError .problem
  let variableMap := if sortNames then own.sorted else own
  let conversion := Extraction.deferredWith "conversion" (.of formula) (.of variableMap)
  let extracted ← conversion.run.result.mapError .failure
  return if clean then extracted.dropTautologies else extracted

/-- The DIMACS text that the options make of a DIMACS text. -/
def convertText (sortNames clean : Bool) (text : String) : Except ConversionError String := do
  let input ← (Dimacs.read text).mapError .read
  return Dimacs.write (← convert sortNames clean input)

/-- The DIMACS text that the options make of the bytes of a file. -/
def convertFile (sortNames clean : Bool) (bytes : Except FileError ByteArray) :
    Except ConversionError String := do
  match String.fromUTF8? (← bytes.mapError .file) with
  | some text => convertText sortNames clean text
  | none => .error .encoding

/-! ## Running -/

/-- What a run of the program leaves. -/
structure Report where
  /-- 0 for success, 1 for an input that is not converted, 2 for wrong arguments. -/
  exitCode : UInt32
  /-- What is written to standard output. -/
  output : String
  /-- What is written to standard error. -/
  errors : String
deriving DecidableEq

/-- How to call the program. -/
def usage : String :=
  "Usage: clausal [--sort-names] [--clean] CNF\n"

/-- The report of a command line that asks for no conversion. -/
def Report.ofStop : Stop → Report
  | .help =>
    { exitCode := 0
      output := usage ++
        "\n  -s, --sort-names  number the variables in the order of their names\n" ++
        "  -c, --clean       drop clauses that hold a literal together with its negation\n" ++
        "  -h, --help        print this text\n"
      errors := "" }
  | .unexpected argument => ⟨2, "", "error: unexpected argument '" ++ argument ++ "'\n\n" ++ usage⟩
  | .repeated _ => ⟨2, "", "error: a flag cannot be used multiple times\n\n" ++ usage⟩
  | .missingPath => ⟨2, "", "error: an input path is required\n\n" ++ usage⟩

/-- The report of a conversion. -/
def Report.ofConversion : Except ConversionError String → Report
  | .ok text => ⟨0, text, ""⟩
  | .error error => ⟨1, "", "Error: " ++ error.message ++ "\n"⟩

/-- Run the program on its arguments, with a way to get the bytes of a file. -/
def run {m : Type → Type} [Monad m] (readFile : String → m (Except FileError ByteArray))
    (arguments : List String) : m Report :=
  match parse arguments with
  | .error stop => pure (.ofStop stop)
  | .ok options => do
    let bytes ← readFile options.path
    return .ofConversion (convertFile options.sortNames options.clean bytes)

end Clausal.CommandLine
