/-
  Clausal.Dimacs.Reader

  DIMACS text as a clause list. The text is cut into lines; each line is trimmed and empty ones are
  dropped. Lines that start with `c` are comments, and a comment `c index name` names a variable.
  The first other line is the header, every later one a clause that ends with `0`. Words are
  separated by gaps. The number of clauses in the header is not compared with the clauses found.

  The clauses range over the variables up to the largest number that the header, a clause or a
  naming comment mentions; a variable that no comment names is named by its numeral. The names must
  be distinct and no more than `maxVariables`.
-/
import Clausal.ClauseList
import Clausal.Text.Split

namespace Clausal.Dimacs

open Text

/-- The largest number of variables that is read. -/
def maxVariables : Nat := 16777216

/-- Why a text is not read. -/
inductive ReadError where
  /-- The first line that is no comment is not a header. -/
  | invalidHeader
  /-- A later line that is no comment is not a clause. -/
  | invalidClause (line : String)
  /-- There is no line but comments. -/
  | emptyInput
  /-- There are more variables than are read. -/
  | tooManyVariables (count : Nat)
  /-- Two variables have one name. -/
  | repeatedName
deriving DecidableEq

/-- The text of a read error. -/
def ReadError.message : ReadError → String
  | .invalidHeader => "invalid dimacs header"
  | .invalidClause line => "invalid clause '" ++ line ++ "'"
  | .emptyInput => "empty input"
  | .tooManyVariables count =>
    toString count ++ " variables exceed the supported maximum of " ++ toString maxVariables
  | .repeatedName => "variable names are not unique"

/-! ## Lines -/

/-- The trimmed lines of a text that are not empty. -/
def contentLines (text : List Char) : List (List Char) :=
  ((lines text).map trim).filter (· ≠ [])

/-- Whether a line is a comment. -/
def isComment (line : List Char) : Bool :=
  line.head? == some 'c'

/-- The text behind a nonempty run of gaps. -/
def skipGaps? (cs : List Char) : Option (List Char) :=
  match cs with
  | c :: rest => if isGap c then some (rest.dropWhile isGap) else none
  | [] => none

/-- The variable that a comment names, with its name: `c`, gaps, an index, gaps, and a name without
carriage return. -/
def naming? (line : List Char) : Option (Variable × String) :=
  match line with
  | 'c' :: rest => do
    let (index, rest) ← Numeral.scan (← skipGaps? rest)
    let rest ← skipGaps? rest
    let v ← Variable.ofIndex? index.toInt.toNat
    let name := trim rest
    if '\r' ∉ rest ∧ name ≠ [] then some (v, String.ofList name) else none
  | _ => none

/-- The number of variables in a header: `p`, `cnf`, the number of variables and the number of
clauses, each a word; anything may follow the number of clauses. A negative number counts as 0. -/
def headerVariables? (line : List Char) : Option Nat :=
  match words line with
  | ['p'] :: ['c', 'n', 'f'] :: variableCount :: clauseCount :: _ => do
    let count ← Numeral.read? variableCount
    let _ ← Numeral.scan clauseCount
    some count.toInt.toNat
  | _ => none

/-- The clause on a line: numerals of literals and, as the last one, of zero. -/
def clause? (line : List Char) : Option Clause := do
  let numbers ← (words line).mapM Numeral.read?
  if numbers.getLast? = some 0 then
    Assignment.mk <$> numbers.dropLast.mapM Literal.ofRaw?
  else none

/-! ## Names -/

/-- The name of the variable with a given index: the last one that a list of namings gives it, else
its numeral. -/
def nameOf (namings : List (Variable × String)) (index : Nat) : String :=
  match namings.reverse.find? (·.1.index = index) with
  | some (_, name) => name
  | none => index.repr

/-- The names of the variables up to a number: the numerals, overwritten by one naming after the
other. -/
def namesUpTo (namings : List (Variable × String)) (count : Nat) : List String :=
  let numerals := (Array.range count).map fun i => (i + 1).repr
  (namings.foldl (fun names (v, name) => names.setIfInBounds (v.index - 1) name) numerals).toList

/-- Overwriting by one naming after the other leaves each variable with its last name. -/
theorem foldl_setIfInBounds_getElem? (namings : List (Variable × String)) (names : Array String)
    (i : Nat) (hi : i < names.size) :
    (namings.foldl (fun names (v, name) => names.setIfInBounds (v.index - 1) name) names)[i]? =
      match namings.reverse.find? (·.1.index = i + 1) with
      | some (_, name) => some name
      | none => names[i]? := by
  induction namings generalizing names with
  | nil => rfl
  | cons naming rest ih =>
    obtain ⟨v, name⟩ := naming
    have hpos := v.index_pos
    rw [List.foldl_cons, ih _ (by simpa using hi), List.reverse_cons, List.find?_append]
    cases rest.reverse.find? (·.1.index = i + 1) with
    | some found => rfl
    | none =>
      by_cases hv : v.index = i + 1
      · simp [hv, hi]
      · have hv' : ¬v.index - 1 = i := by omega
        simp [hv, Array.getElem?_setIfInBounds_ne hv']

/-- The names up to a number are those of the variables in order. -/
theorem namesUpTo_eq (namings : List (Variable × String)) (count : Nat) :
    namesUpTo namings count = (List.range count).map fun i => nameOf namings (i + 1) := by
  have size_eq : ∀ names : Array String,
      (namings.foldl (fun names (v, name) => names.setIfInBounds (v.index - 1) name) names).size =
        names.size := by
    induction namings with
    | nil => exact fun _ => rfl
    | cons naming rest ih => exact fun names => (ih _).trans (by simp)
  apply List.ext_getElem?
  intro i
  simp only [namesUpTo, Array.getElem?_toList]
  by_cases hi : i < count
  · rw [foldl_setIfInBounds_getElem? _ _ _ (by simpa using hi)]
    simp only [nameOf, List.getElem?_map, List.getElem?_range hi, Option.map_some]
    split <;> simp_all
  · rw [Array.getElem?_eq_none (by simpa [size_eq] using hi),
      List.getElem?_eq_none (by simpa using hi)]

/-- The clauses with a numbering of all variables that the header, a clause or a naming mentions. -/
def number (namings : List (Variable × String)) (declared : Nat) (clauses : List Clause) :
    Except ReadError ClauseList :=
  let mentioned := (ClauseList.mk clauses none).highestIndex
  let count := (namings.map (·.1.index)).foldl max (max declared mentioned)
  if count > maxVariables then .error (.tooManyVariables count)
  else
    match VariableMap.ofDistinct? (namesUpTo namings count) with
    | some m => .ok ⟨clauses, some m⟩
    | none => .error .repeatedName

/-! ## Texts -/

/-- The number of variables in a line that has to be a header. -/
def readHeader (line : List Char) : Except ReadError Nat :=
  match headerVariables? line with
  | some count => .ok count
  | none => .error .invalidHeader

/-- The clause on a line that has to be one. -/
def readClause (line : List Char) : Except ReadError Clause :=
  match clause? line with
  | some c => .ok c
  | none => .error (.invalidClause (String.ofList line))

/-- The clause list that a sequence of characters denotes. -/
def readChars (text : List Char) : Except ReadError ClauseList :=
  let content := contentLines text
  match content.filter (!isComment ·) with
  | [] => .error .emptyInput
  | header :: body => do
    let declared ← readHeader header
    let clauses ← body.mapM readClause
    number (content.filterMap naming?) declared clauses

/-- The clause list that a text denotes. -/
def read (text : String) : Except ReadError ClauseList :=
  readChars text.toList

end Clausal.Dimacs
