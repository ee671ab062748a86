/-
  Clausal.Formula

  Propositional formulas over names: the two constants, literals, and conjunctions and disjunctions
  of any number of formulas. A formula is in conjunctive normal form when it is a conjunction of
  disjunctions of literals and constants, where one-element connectives may be left out; the type
  does not ask for it.

  Equality is decidable (`Formula.beq_iff`), and the truth value under a choice of values for all
  names is `Formula.eval`.
-/
import Clausal.VariableMap

namespace Clausal

/-- A formula over named variables. -/
inductive Formula where
  /-- A constant truth value. -/
  | const (value : Bool)
  /-- A name or its negation. -/
  | literal (literal : NamedLiteral)
  /-- All of the formulas hold. -/
  | and (children : List Formula)
  /-- Some of the formulas holds. -/
  | or (children : List Formula)

namespace Formula

/-! ## Structure -/

/-- Whether a formula is a single literal. -/
def isLiteral : Formula → Bool
  | .literal _ => true
  | _ => false

/-- The formulas under the outermost connective, if there is one. -/
def children : Formula → List Formula
  | .and fs | .or fs => fs
  | .const _ | .literal _ => []

mutual
/-- Whether two formulas are the same tree. -/
def beq : Formula → Formula → Bool
  | .const a, .const b => a == b
  | .literal a, .literal b => a == b
  | .and fs, .and gs => beqList fs gs
  | .or fs, .or gs => beqList fs gs
  | _, _ => false
/-- Whether two lists of formulas agree member by member. -/
def beqList : List Formula → List Formula → Bool
  | [], [] => true
  | f :: fs, g :: gs => beq f g && beqList fs gs
  | _, _ => false
end

mutual
theorem beq_iff : ∀ f g : Formula, beq f g = true ↔ f = g
  | .const a, g => by cases g <;> simp [beq]
  | .literal a, g => by cases g <;> simp [beq]
  | .and fs, g => by cases g <;> simp [beq, beqList_iff fs]
  | .or fs, g => by cases g <;> simp [beq, beqList_iff fs]
theorem beqList_iff : ∀ fs gs : List Formula, beqList fs gs = true ↔ fs = gs
  | [], gs => by cases gs <;> simp [beqList]
  | f :: fs, gs => by cases gs <;> simp [beqList, beq_iff f, beqList_iff fs]
end

instance : DecidableEq Formula := fun f g => decidable_of_iff _ (beq_iff f g)

/-! ## Names -/

mutual
/-- The name of each literal in a depth-first walk, repetitions included. -/
def literalNames : Formula → List String
  | .const _ => []
  | .literal l => [l.name]
  | .and fs | .or fs => literalNamesList fs
/-- The names of the literals of each formula in turn. -/
def literalNamesList : List Formula → List String
  | [] => []
  | f :: fs => literalNames f ++ literalNamesList fs
end

theorem literalNamesList_eq_flatMap (fs : List Formula) :
    literalNamesList fs = fs.flatMap literalNames := by
  induction fs with
  | nil => rfl
  | cons f fs ih => rw [literalNamesList, ih, List.flatMap_cons]

/-- The names of a formula in the order of their first occurrence. -/
def variableNames (f : Formula) : List String :=
  f.literalNames.eraseDups

/-- The map over exactly the names of a formula, numbered by first occurrence. -/
def variableMap (f : Formula) : VariableMap :=
  .ofNames f.variableNames

/-! ## Truth -/

mutual
/-- The truth value of a formula when every name has a value. -/
def eval (v : String → Bool) : Formula → Bool
  | .const b => b
  | .literal l => l.holds v
  | .and fs => evalAll v fs
  | .or fs => evalAny v fs
/-- Whether all formulas are true. -/
def evalAll (v : String → Bool) : List Formula → Bool
  | [] => true
  | f :: fs => eval v f && evalAll v fs
/-- Whether some formula is true. -/
def evalAny (v : String → Bool) : List Formula → Bool
  | [] => false
  | f :: fs => eval v f || evalAny v fs
end

theorem evalAll_eq_all (v : String → Bool) (fs : List Formula) :
    evalAll v fs = fs.all (eval v) := by
  induction fs with
  | nil => rfl
  | cons f fs ih => rw [evalAll, ih, List.all_cons]

theorem evalAny_eq_any (v : String → Bool) (fs : List Formula) :
    evalAny v fs = fs.any (eval v) := by
  induction fs with
  | nil => rfl
  | cons f fs ih => rw [evalAny, ih, List.any_cons]

@[simp] theorem eval_and (v : String → Bool) (fs : List Formula) :
    eval v (.and fs) = fs.all (eval v) := by
  rw [eval, evalAll_eq_all]

@[simp] theorem eval_or (v : String → Bool) (fs : List Formula) :
    eval v (.or fs) = fs.any (eval v) := by
  rw [eval, evalAny_eq_any]

/-! ## Text -/

mutual
/-- The formula with a minus for negation, `&` and `|` between the members of connectives, and
parentheses around every connective. -/
def render : Formula → String
  | .const true => "true"
  | .const false => "false"
  | .literal l => l.render
  | .and fs => "(" ++ " & ".intercalate (renderList fs) ++ ")"
  | .or fs => "(" ++ " | ".intercalate (renderList fs) ++ ")"
/-- The texts of several formulas. -/
def renderList : List Formula → List String
  | [] => []
  | f :: fs => render f :: renderList fs
end

instance : ToString Formula := ⟨render⟩

end Formula

end Clausal
