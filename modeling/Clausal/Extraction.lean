/-
  Clausal.Extraction

  From formulas to clause lists. A formula in conjunctive normal form is first read as a list of
  clauses over names (`Formula.namedClauses`), then every name is replaced by its variable
  (`Formula.toClauseList`). The first step drops every conjunct that has the constant true as a
  direct member, and of the others keeps the literals that are direct members. So names in dropped
  conjuncts or deeper are never looked up, and a name without a variable stops the conversion.
-/
import Clausal.ClauseList

namespace Clausal

/-- Why a conversion yields no clause list. -/
inductive Failure where
  /-- A literal's name is not in the numbering. -/
  | unmapped (name : String)
  /-- The formula or the numbering could not be provided. -/
  | reported (text : String)
deriving DecidableEq

/-- The text of a failure. -/
def Failure.message : Failure → String
  | .unmapped name => "variable " ++ name ++ " is not part of the variable map"
  | .reported text => text

namespace Formula

/-! ## Clauses over names -/

/-- The literal that a formula is, if it is one. -/
def literal? : Formula → Option NamedLiteral
  | .literal l => some l
  | _ => none

/-- The formulas whose conjunction the formula is: the members of a conjunction, none for the
constant true, otherwise the formula itself. -/
def conjuncts : Formula → List Formula
  | .and fs => fs
  | .const true => []
  | f => [f]

/-- The literals of the clause for one conjunct: a literal itself, otherwise the literals among the
direct members. There is no clause if the constant true is a direct member. -/
def clauseLiterals? : Formula → Option (List NamedLiteral)
  | .literal l => some [l]
  | f => if .const true ∈ f.children then none else some (f.children.filterMap literal?)

/-- The clauses over names that a formula says. -/
def namedClauses (f : Formula) : List (List NamedLiteral) :=
  f.conjuncts.filterMap clauseLiterals?

end Formula

/-! ## Clauses over variables -/

/-- The literal over the variable of a name, or the failure that names it. -/
def VariableMap.resolve (m : VariableMap) (l : NamedLiteral) : Except Failure Literal :=
  match m.index? l.name with
  | some v => .ok (.ofVar v l.positive)
  | none => .error (.unmapped l.name)

/-- Looking up a literal for a conversion succeeds as any other look-up does. -/
theorem VariableMap.resolve_eq_ok_iff {m : VariableMap} {n : NamedLiteral} {l : Literal} :
    m.resolve n = .ok l ↔ m.literal n = .ok l := by
  cases h : m.index? n.name <;> simp [resolve, literal, h]

namespace Formula

/-- The clauses that a formula says, numbered by a given map. -/
def toClauseList (f : Formula) (m : VariableMap) : Except Failure ClauseList := do
  let clauses ← f.namedClauses.mapM fun literals => Assignment.mk <$> literals.mapM m.resolve
  return ⟨clauses, some m⟩

/-- The clauses that a formula says, numbered by a given map or else by first occurrence. -/
def convert (f : Formula) (m : Option VariableMap) : Except Failure ClauseList :=
  f.toClauseList (m.getD f.variableMap)

end Formula

end Clausal
