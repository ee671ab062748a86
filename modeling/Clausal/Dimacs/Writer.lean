/-
  Clausal.Dimacs.Writer

  A clause list as DIMACS text. Every name of the numbering is written as a comment `c index name`,
  then comes the header `p cnf variables clauses`, then one line for each clause: its literals, each
  followed by a space, and `0`. Every line ends with a line feed. Names are written as they are.
-/
import Clausal.ClauseList

namespace Clausal.Dimacs

/-- The comment that names a variable. -/
def nameLine (index : Nat) (name : String) : List Char :=
  'c' :: ' ' :: (Numeral.ofNat index ++ ' ' :: name.toList)

/-- The header for numbers of variables and clauses. -/
def headerLine (variableCount clauseCount : Nat) : List Char :=
  ['p', ' ', 'c', 'n', 'f', ' '] ++ Numeral.ofNat variableCount ++ ' ' :: Numeral.ofNat clauseCount

/-- The line of a clause. -/
def clauseLine (c : Clause) : List Char :=
  c.literals.flatMap (·.digits ++ [' ']) ++ ['0']

/-- The comments that name the variables of a list. -/
def nameLines (l : ClauseList) : List (List Char) :=
  match l.variableMap with
  | some m => m.entries.map fun (index, name) => nameLine index name
  | none => []

/-- The lines of a clause list. -/
def writtenLines (l : ClauseList) : List (List Char) :=
  nameLines l ++ headerLine l.variableCount l.size :: l.clauses.map clauseLine

/-- The characters of a clause list. -/
def writeChars (l : ClauseList) : List Char :=
  (writtenLines l).flatMap (· ++ ['\n'])

/-- The DIMACS text of a clause list. -/
def write (l : ClauseList) : String :=
  String.ofList (writeChars l)

@[simp] theorem toList_write (l : ClauseList) : (write l).toList = writeChars l :=
  String.toList_ofList

end Clausal.Dimacs
