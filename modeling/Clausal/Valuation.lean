/-
  Clausal.Valuation

  The meaning of literals, clauses, solutions and clause lists: their truth value when every
  variable has one. A clause is the disjunction of its literals, a solution the conjunction, and a
  clause list the conjunction of its clauses. A choice of values for names gives one for variables
  through a numbering.
-/
import Clausal.ClauseList

namespace Clausal

/-- A truth value for every variable. -/
abbrev Valuation := Variable → Bool

namespace Valuation

/-- The valuation that agrees with `v` but for the value of one variable. -/
def update (v : Valuation) (x : Variable) (b : Bool) : Valuation :=
  fun y => if y = x then b else v y

@[simp] theorem update_self (v : Valuation) (x : Variable) (b : Bool) : v.update x b x = b := by
  simp [update]

theorem update_of_ne (v : Valuation) {x y : Variable} (b : Bool) (h : y ≠ x) :
    v.update x b y = v y := by
  simp [update, h]

/-- The valuation that gives each variable the value of its name, and false without a name. -/
def ofNames (m : VariableMap) (v : String → Bool) : Valuation :=
  fun x => (m.name? x).elim false v

end Valuation

/-! ## Truth -/

/-- The truth value of a literal. -/
def Literal.holds (v : Valuation) (l : Literal) : Bool :=
  v l.var == l.isPositive

/-- The truth value of a clause: whether some literal holds. -/
def Clause.holds (v : Valuation) (c : Clause) : Bool :=
  c.literals.any (·.holds v)

/-- The truth value of a solution: whether every literal holds. -/
def Solution.holds (v : Valuation) (s : Solution) : Bool :=
  s.literals.all (·.holds v)

/-- The truth value of a clause list: whether every clause holds. -/
def ClauseList.holds (v : Valuation) (l : ClauseList) : Bool :=
  l.clauses.all (·.holds v)

/-- A literal and its negation have opposite truth values. -/
@[simp] theorem Literal.holds_neg (v : Valuation) (l : Literal) : (-l).holds v = !l.holds v := by
  simp only [holds, var_neg, isPositive_neg]
  cases v l.var <;> cases l.isPositive <;> rfl

theorem Clause.holds_iff {v : Valuation} {c : Clause} :
    c.holds v = true ↔ ∃ l ∈ c, l.holds v = true := by
  simp [holds, Assignment.mem_def]

theorem Solution.holds_iff {v : Valuation} {s : Solution} :
    s.holds v = true ↔ ∀ l ∈ s, l.holds v = true := by
  simp [holds, Assignment.mem_def]

theorem ClauseList.holds_iff {v : Valuation} {l : ClauseList} :
    l.holds v = true ↔ ∀ c ∈ l.clauses, c.holds v = true := by
  simp [holds]

/-- A literal and its reading by name have one truth value. -/
theorem VariableMap.holds_of_named {m : VariableMap} {l : Literal} {n : NamedLiteral}
    (h : m.named l = .ok n) (v : String → Bool) : l.holds (.ofNames m v) = n.holds v := by
  obtain ⟨hname, hsign⟩ := named_eq_ok_iff.1 h
  simp [Literal.holds, NamedLiteral.holds, Valuation.ofNames, hname, hsign]

end Clausal
