/-
  Clausal.Problem

  What can go wrong between indices and names. These are recoverable: an operation reports the first
  one it meets and gives no partial result.
-/
import Clausal.Literal

namespace Clausal

/-- How much a problem matters. -/
inductive Severity where
  | warning
  | error
deriving DecidableEq

namespace Severity

/-- The word for a severity. -/
def name : Severity → String
  | .warning => "warning"
  | .error => "error"

/-- The position of a severity in the order from mild to grave. -/
def rank : Severity → Nat
  | .warning => 0
  | .error => 1

instance : LT Severity := ⟨fun a b => a.rank < b.rank⟩

instance (a b : Severity) : Decidable (a < b) := inferInstanceAs (Decidable (a.rank < b.rank))

end Severity

/-- A failed step between literals and names. -/
inductive Problem where
  /-- The variable of the literal has no name. -/
  | unknownIndex (literal : Literal)
  /-- The name has no variable. -/
  | unknownName (name : String)
  /-- There is no numbering to go through. -/
  | missingMap
deriving DecidableEq

namespace Problem

/-- The text of a problem. -/
def message : Problem → String
  | .unknownIndex l => "no variable with index " ++ toString l
  | .unknownName name => "no variable named " ++ name
  | .missingMap => "no variable map attached"

/-- Every problem is an error. -/
def severity : Problem → Severity
  | .unknownIndex _ | .unknownName _ | .missingMap => .error

end Problem

end Clausal
