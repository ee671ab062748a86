/-
  Clausal.ClauseList

  Ordered lists of clauses, read as their conjunction, with the numbering that their indices refer
  to, if there is one. Renumbering, reading the clauses by name and turning them into a formula all
  need the numbering and fail with the same problem without it, even for the empty list.
-/
import Clausal.Clause
import Clausal.Formula

namespace Clausal

/-- Clauses in order, with the numbering that names their variables, if there is one. -/
structure ClauseList where
  /-- The clauses in order. -/
  clauses : List Clause
  /-- The numbering of the variables. -/
  variableMap : Option VariableMap
deriving DecidableEq

/-- Whether every clause of the list has a literal in the solution. -/
def Solution.satisfies (s : Solution) (l : ClauseList) : Bool :=
  l.clauses.all (·.evaluate s = .satisfied)

namespace ClauseList

/-! ## Size -/

/-- The number of clauses. -/
def size (l : ClauseList) : Nat :=
  l.clauses.length

/-- Whether there is no clause. -/
def isEmpty (l : ClauseList) : Bool :=
  l.clauses.isEmpty

/-- The highest index of a literal, or 0 if there is no literal. -/
def highestIndex (l : ClauseList) : Nat :=
  ((l.clauses.flatMap (·.vars)).map Variable.index).foldl max 0

/-- The number of variables the list ranges over: the highest index of a literal, or the size of the
numbering if that is larger. -/
def variableCount (l : ClauseList) : Nat :=
  max l.highestIndex (l.variableMap.elim 0 VariableMap.size)

/-! ## Selection -/

/-- The clauses of a class, with the same numbering. -/
def filter (l : ClauseList) (p : Clause → Bool) : ClauseList :=
  { l with clauses := l.clauses.filter p }

/-- The clauses without a literal and its negation. -/
def dropTautologies (l : ClauseList) : ClauseList :=
  l.filter (·.clean?.isSome)

/-- The clauses that a solution does not satisfy. -/
def unsatisfied (l : ClauseList) (s : Solution) : ClauseList :=
  l.filter (·.evaluate s ≠ .satisfied)

/-- What a solution says about each clause. -/
def evaluate (l : ClauseList) (s : Solution) : List Evaluation :=
  l.clauses.map (·.evaluate s)

/-! ## Numbering -/

/-- The same clauses under another numbering; the indices stay. -/
def withMap (l : ClauseList) (m : VariableMap) : ClauseList :=
  { l with variableMap := some m }

/-- The numbering, or the problem that there is none. -/
def requireMap (l : ClauseList) : Except Problem VariableMap :=
  match l.variableMap with
  | some m => .ok m
  | none => .error .missingMap

/-- The clauses renumbered from the own numbering to another one through the names. -/
def reindex (l : ClauseList) (new : VariableMap) : Except Problem ClauseList := do
  let old ← l.requireMap
  let clauses ← l.clauses.mapM (·.reindex old new)
  return ⟨clauses, some new⟩

/-- The clauses renumbered so that the names of the numbering are in ascending order. -/
def sortNames (l : ClauseList) : Except Problem ClauseList := do
  let m ← l.requireMap
  l.reindex m.sorted

/-! ## Reading by name -/

/-- The clauses literal by literal with names in place of indices. -/
def named (l : ClauseList) : Except Problem (List (List NamedLiteral)) := do
  let m ← l.requireMap
  l.clauses.mapM fun c => c.literals.mapM m.named

/-- Each clause with names in place of indices and each name once. -/
def toValue (l : ClauseList) : Except Problem (List (ValueAssignment .clause)) := do
  let m ← l.requireMap
  l.clauses.mapM m.toValue

/-- The conjunction of disjunctions that a list of named clauses says. -/
def formulaOfNamed (clauses : List (List NamedLiteral)) : Formula :=
  .and (clauses.map fun literals => .or (literals.map .literal))

/-- The conjunction of disjunctions that the clauses say. -/
def toFormula (l : ClauseList) : Except Problem Formula :=
  formulaOfNamed <$> l.named

end ClauseList

end Clausal
