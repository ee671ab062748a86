/-
  Clausal.Extraction.Deferred

  Conversions of formulas that are still to be computed. With a given numbering, formula and
  numbering are independent computations and both always run; without one, the numbering is taken
  from the formula once it is there.
-/
import Clausal.Computation
import Clausal.Extraction

namespace Clausal.Extraction

variable {ι : Type}

/-- The clauses of a formula to come, numbered by first occurrence. -/
def deferred (label : ι) (formula : Computation ι Failure Formula) :
    Computation ι Failure ClauseList :=
  formula.andThen label fun f => f.convert none

/-- The clauses of a formula to come, numbered by a map to come. -/
def deferredWith (label : ι) (formula : Computation ι Failure Formula)
    (variableMap : Computation ι Failure VariableMap) : Computation ι Failure ClauseList :=
  (formula.join variableMap).andThen label fun (f, m) => f.convert (some m)

end Clausal.Extraction
