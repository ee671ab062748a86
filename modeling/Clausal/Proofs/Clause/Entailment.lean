/-
  Clausal.Proofs.Clause.Entailment

  Evaluation decides entailment. Evaluating a clause under a partial solution looks at the literals
  of both; entailment asks for the truth value of the clause under every valuation that makes the
  solution true. The two agree when neither the clause nor the solution holds a variable in both
  signs.

  What the literals do not rule out has to be shown possible by a valuation. `Solution.complete`
  makes one from any valuation by changing the variables that the solution decides. So a literal
  that the solution leaves open can be chosen at will, and two such literals over different
  variables can be chosen independently of each other.
-/
import Clausal.Valuation
import Mathlib.Tactic.ByContra

namespace Clausal

/-! ## Values of the variables -/

theorem Literal.eq_or_eq_neg_of_var_eq {l m : Literal} (h : l.var = m.var) : l = m ∨ l = -m :=
  sameVar_iff.1 (beq_iff_eq.2 h)

namespace Assignment

variable {k : Kind} {a : Assignment k} {l : Literal}

/-- A list that does not contradict itself gives the variable of each of its literals that literal's
sign. -/
theorem value?_eq_some_of_mem (ha : ∀ m ∈ a, -m ∉ a) (hl : l ∈ a) :
    a.value? l.var = some l.isPositive := by
  cases hfind : a.literals.find? (·.var = l.var) with
  | none =>
    have hnone := List.find?_eq_none.1 hfind l hl
    simp at hnone
  | some m =>
    have hm : m ∈ a := List.mem_of_find?_eq_some hfind
    have hvar : m.var = l.var := by simpa using List.find?_some hfind
    -- The literal found first is over the same variable, and it is not the negation.
    rcases Literal.eq_or_eq_neg_of_var_eq hvar with rfl | rfl
    · rw [value?, hfind, Option.map_some]
    · exact absurd hm (ha l hl)

/-- A literal that occurs in neither sign leaves its variable without a value. -/
theorem value?_eq_none_of_not_mem (hl : l ∉ a) (hneg : -l ∉ a) : a.value? l.var = none := by
  rw [value?, Option.map_eq_none_iff, List.find?_eq_none]
  intro m hm hvar
  have hvar : m.var = l.var := of_decide_eq_true hvar
  rcases Literal.eq_or_eq_neg_of_var_eq hvar with rfl | rfl
  · exact hl hm
  · exact hneg hm

end Assignment

/-! ## Extensions of a solution -/

/-- Two literals over different variables can be true and false at once. -/
theorem Literal.exists_holds_not_holds {l m : Literal} (hvar : l.var ≠ m.var) :
    ∃ v : Valuation, l.holds v = true ∧ m.holds v = false := by
  refine ⟨Valuation.update (fun _ => l.isPositive) m.var (!m.isPositive), ?_, ?_⟩
  · rw [holds, Valuation.update_of_ne _ _ hvar, beq_self_eq_true]
  · rw [holds, Valuation.update_self]
    cases m.isPositive <;> rfl

namespace Solution

/-- The valuation that gives each variable its value in the solution, and otherwise the value that
`v` gives it. -/
def complete (s : Solution) (v : Valuation) : Valuation :=
  fun x => (s.value? x).getD (v x)

/-- The literals that a solution leaves open keep their truth value. -/
theorem holds_complete_of_not_mem {s : Solution} {l : Literal} (hl : l ∉ s) (hneg : -l ∉ s)
    (v : Valuation) : l.holds (s.complete v) = l.holds v := by
  rw [Literal.holds, complete, Assignment.value?_eq_none_of_not_mem hl hneg, Option.getD_none,
    Literal.holds]

section Consistent

variable {s : Solution} (hs : ∀ l ∈ s, -l ∉ s)
include hs

theorem holds_complete_of_mem {l : Literal} (hl : l ∈ s) (v : Valuation) :
    l.holds (s.complete v) = true := by
  rw [Literal.holds, complete, Assignment.value?_eq_some_of_mem hs hl, Option.getD_some,
    beq_self_eq_true]

/-- The completion of a solution makes the solution true. -/
theorem holds_complete (v : Valuation) : s.holds (s.complete v) = true :=
  holds_iff.2 fun _ hl => holds_complete_of_mem hs hl v

/-- A literal that a solution does not falsify can be true. -/
theorem exists_holds_of_neg_not_mem {l : Literal} (hneg : -l ∉ s) :
    ∃ v, s.holds v = true ∧ l.holds v = true := by
  refine ⟨s.complete fun _ => l.isPositive, holds_complete hs _, ?_⟩
  by_cases hl : l ∈ s
  · exact holds_complete_of_mem hs hl _
  · rw [holds_complete_of_not_mem hl hneg, Literal.holds, beq_self_eq_true]

/-- Of two open literals over different variables, one can be true and the other one false. -/
theorem exists_holds_of_open {l m : Literal} (hl : l ∉ s) (hlneg : -l ∉ s) (hm : m ∉ s)
    (hmneg : -m ∉ s) (hvar : l.var ≠ m.var) :
    ∃ v, s.holds v = true ∧ l.holds v = true ∧ m.holds v = false := by
  obtain ⟨v, hlv, hmv⟩ := Literal.exists_holds_not_holds hvar
  refine ⟨s.complete v, holds_complete hs v, ?_, ?_⟩
  · rw [holds_complete_of_not_mem hl hlneg, hlv]
  · rw [holds_complete_of_not_mem hm hmneg, hmv]

end Consistent

end Solution

/-! ## Refuting a clause -/

namespace Clause

/-- The valuation under which exactly the variables are true that the clause holds negated. -/
def refutation (c : Clause) : Valuation :=
  fun x => decide (Literal.ofVar x false ∈ c)

/-- Every literal of a clause that does not contradict itself is false under its refutation. -/
theorem holds_refutation {c : Clause} (hc : ∀ l ∈ c, -l ∉ c) {l : Literal} (hl : l ∈ c) :
    l.holds c.refutation = false := by
  cases hsign : l.isPositive with
  | true =>
    have hneg : Literal.ofVar l.var false = -l :=
      Literal.ext_var (by simp) (by simp [hsign])
    simp [Literal.holds, refutation, hneg, hc l hl, hsign]
  | false =>
    have hself : Literal.ofVar l.var false = l := by
      rw [← hsign, Literal.ofVar_var]
    simp [Literal.holds, refutation, hself, hl, hsign]

end Clause

namespace Solution

/-- A clause without a literal in the solution can be false. -/
theorem exists_not_holds {c : Clause} {s : Solution} (hc : ∀ l ∈ c, -l ∉ c)
    (hs : ∀ l ∈ s, -l ∉ s) (h : ¬∃ l ∈ c, l ∈ s) :
    ∃ v, s.holds v = true ∧ c.holds v = false := by
  refine ⟨s.complete c.refutation, holds_complete hs _, ?_⟩
  rw [Bool.eq_false_iff]
  intro hholds
  obtain ⟨l, hl, htrue⟩ := Clause.holds_iff.1 hholds
  have hls : l ∉ s := fun hmem => h ⟨l, hl, hmem⟩
  by_cases hneg : -l ∈ s
  · -- The solution falsifies the literal.
    have hfalse := holds_complete_of_mem hs hneg c.refutation
    rw [Literal.holds_neg, htrue] at hfalse
    cases hfalse
  · -- The solution leaves it open, and the refutation falsifies it.
    rw [holds_complete_of_not_mem hls hneg, Clause.holds_refutation hc hl] at htrue
    cases htrue

/-! ## Entailment -/

/-- Every valuation that makes the solution true makes the clause true. -/
def Entails (s : Solution) (c : Clause) : Prop :=
  ∀ v, s.holds v = true → c.holds v = true

/-- No valuation that makes the solution true makes the clause true. -/
def Refutes (s : Solution) (c : Clause) : Prop :=
  ∀ v, s.holds v = true → ¬c.holds v = true

/-- The literal is in the clause, and under every valuation that makes the solution true, the clause
is true exactly when the literal is. -/
def ReducesTo (s : Solution) (c : Clause) (l : Literal) : Prop :=
  l ∈ c ∧ ∀ v, s.holds v = true → (c.holds v = true ↔ l.holds v = true)

end Solution

/-! ## Evaluations -/

namespace Evaluation

/-- Evaluations that agree on being satisfied, falsified and unit are the same. -/
theorem ext_cases {e f : Evaluation} (hsatisfied : e = .satisfied ↔ f = .satisfied)
    (hfalsified : e = .falsified ↔ f = .falsified)
    (hunit : ∀ l, e = .unit l ↔ f = .unit l) : e = f := by
  cases e with
  | satisfied => exact (hsatisfied.1 rfl).symm
  | falsified => exact (hfalsified.1 rfl).symm
  | unit l => exact ((hunit l).1 rfl).symm
  | unknown =>
    cases f with
    | satisfied => exact hsatisfied.2 rfl
    | falsified => exact hfalsified.2 rfl
    | unit l => exact (hunit l).2 rfl
    | unknown => rfl

theorem eq_unknown_iff {e : Evaluation} :
    e = .unknown ↔ e ≠ .satisfied ∧ e ≠ .falsified ∧ ∀ l, e ≠ .unit l := by
  cases e <;> simp

end Evaluation

namespace Clause

section Decides

variable {c : Clause} {s : Solution}

/-- A clause with a literal in the solution is entailed. -/
theorem entails_of_mem {l : Literal} (hl : l ∈ c) (hs : l ∈ s) : s.Entails c := fun _ hv =>
  holds_iff.2 ⟨l, hl, Solution.holds_iff.1 hv l hs⟩

/-- A literal that the solution holds negated is false. -/
theorem not_holds_of_neg_mem {l : Literal} (hneg : -l ∈ s) {v : Valuation}
    (hv : s.holds v = true) : ¬l.holds v = true := by
  have h := Solution.holds_iff.1 hv (-l) hneg
  rw [Literal.holds_neg, Bool.not_eq_true'] at h
  rw [h]
  exact Bool.false_ne_true

theorem entails_iff (hc : ∀ l ∈ c, -l ∉ c) (hs : ∀ l ∈ s, -l ∉ s) :
    s.Entails c ↔ ∃ l ∈ c, l ∈ s := by
  refine ⟨?_, ?_⟩
  · intro h
    by_contra hnone
    obtain ⟨v, hv, hfalse⟩ := Solution.exists_not_holds hc hs hnone
    rw [h v hv] at hfalse
    cases hfalse
  · rintro ⟨l, hl, hmem⟩
    exact entails_of_mem hl hmem

theorem refutes_iff (hs : ∀ l ∈ s, -l ∉ s) : s.Refutes c ↔ ∀ l ∈ c, -l ∈ s := by
  refine ⟨?_, ?_⟩
  · intro h l hl
    by_contra hneg
    obtain ⟨v, hv, htrue⟩ := Solution.exists_holds_of_neg_not_mem hs hneg
    exact h v hv (holds_iff.2 ⟨l, hl, htrue⟩)
  · intro h v hv hholds
    obtain ⟨l, hl, htrue⟩ := holds_iff.1 hholds
    exact not_holds_of_neg_mem (h l hl) hv htrue

/-- A clause without a literal in the solution reduces to an open literal when the solution
falsifies all others. -/
theorem reducesTo_iff (hc : ∀ l ∈ c, -l ∉ c) (hs : ∀ l ∈ s, -l ∉ s) (hsat : ¬∃ l ∈ c, l ∈ s)
    {l : Literal} (hneg : -l ∉ s) :
    s.ReducesTo c l ↔ l ∈ c ∧ ∀ m ∈ c, m ≠ l → -m ∈ s := by
  refine and_congr_right fun hl => ⟨?_, ?_⟩
  · intro h m hm hne
    by_contra hmneg
    -- With two open literals the clause can be true through the other one alone.
    have hvar : m.var ≠ l.var := by
      intro heq
      rcases Literal.eq_or_eq_neg_of_var_eq heq with rfl | rfl
      · exact hne rfl
      · exact hc l hl hm
    obtain ⟨v, hv, htrue, hfalse⟩ := Solution.exists_holds_of_open hs
      (fun hmem => hsat ⟨m, hm, hmem⟩) hmneg (fun hmem => hsat ⟨l, hl, hmem⟩) hneg hvar
    rw [(h v hv).1 (holds_iff.2 ⟨m, hm, htrue⟩)] at hfalse
    cases hfalse
  · intro h v hv
    refine ⟨?_, fun htrue => holds_iff.2 ⟨l, hl, htrue⟩⟩
    intro hholds
    obtain ⟨m, hm, htrue⟩ := holds_iff.1 hholds
    by_contra hl
    have hne : m ≠ l := fun heq => hl (heq ▸ htrue)
    exact not_holds_of_neg_mem (h m hm hne) hv htrue

end Decides

/-! ## Evaluation -/

/-- Only the members of a clause and of a solution matter, not their order and repetition. -/
theorem evaluate_congr {c d : Clause} {s t : Solution} (hcd : ∀ l, l ∈ d ↔ l ∈ c)
    (hst : ∀ l, l ∈ t ↔ l ∈ s) : d.evaluate t = c.evaluate s := by
  apply Evaluation.ext_cases
  · simp only [evaluate_eq_satisfied_iff, hcd, hst]
  · simp only [evaluate_eq_falsified_iff, hcd, hst]
  · simp only [evaluate_eq_unit_iff, hcd, hst, implies_true]

section Consistent

variable {c : Clause} {s : Solution} (hs : ∀ l ∈ s, -l ∉ s)
include hs

theorem evaluate_eq_falsified_iff_refutes : c.evaluate s = .falsified ↔ s.Refutes c := by
  rw [evaluate_eq_falsified_iff, refutes_iff hs]
  refine and_iff_right_of_imp fun h => ?_
  rintro ⟨l, hl, hmem⟩
  exact hs l hmem (h l hl)

variable (hc : ∀ l ∈ c, -l ∉ c)
include hc

theorem evaluate_eq_satisfied_iff_entails : c.evaluate s = .satisfied ↔ s.Entails c := by
  rw [evaluate_eq_satisfied_iff, entails_iff hc hs]

theorem evaluate_eq_unit_iff_reducesTo {l : Literal} :
    c.evaluate s = .unit l ↔ ¬s.Entails c ∧ ¬s.Refutes c ∧ s.ReducesTo c l := by
  rw [evaluate_eq_unit_iff, entails_iff hc hs, refutes_iff hs]
  refine and_congr_right fun hsat => ⟨?_, ?_⟩
  · rintro ⟨hl, hneg, hothers⟩
    exact ⟨fun h => hneg (h l hl), (reducesTo_iff hc hs hsat hneg).2 ⟨hl, hothers⟩⟩
  · rintro ⟨hrefutes, hreduces⟩
    -- A falsified literal would refute the clause that reduces to it.
    have hneg : -l ∉ s := by
      intro hneg
      refine hrefutes ((refutes_iff hs).1 fun v hv hholds => ?_)
      exact not_holds_of_neg_mem hneg hv ((hreduces.2 v hv).1 hholds)
    obtain ⟨hl, hothers⟩ := (reducesTo_iff hc hs hsat hneg).1 hreduces
    exact ⟨hl, hneg, hothers⟩

end Consistent

/-- Evaluation decides entailment. Of a clause and a solution that do not contradict themselves, the
clause evaluates to satisfied when it is true in every extension of the solution, to falsified when
it is true in none, and otherwise to its literal that it agrees with in every extension, if there is
one. Repetitions make no difference. -/
theorem evaluate_decides_entailment {c : Clause} {s : Solution} (hc : ∀ l ∈ c, -l ∉ c)
    (hs : ∀ l ∈ s, -l ∉ s) :
    (c.evaluate s = .satisfied ↔ s.Entails c) ∧
    (c.evaluate s = .falsified ↔ s.Refutes c) ∧
    (∀ l, c.evaluate s = .unit l ↔ ¬s.Entails c ∧ ¬s.Refutes c ∧ s.ReducesTo c l) ∧
    (c.evaluate s = .unknown ↔ ¬s.Entails c ∧ ¬s.Refutes c ∧ ∀ l, ¬s.ReducesTo c l) ∧
    ∀ (d : Clause) (t : Solution), (∀ l, l ∈ d ↔ l ∈ c) → (∀ l, l ∈ t ↔ l ∈ s) →
      d.evaluate t = c.evaluate s := by
  have hsatisfied := evaluate_eq_satisfied_iff_entails hs hc
  have hfalsified : c.evaluate s = .falsified ↔ s.Refutes c :=
    evaluate_eq_falsified_iff_refutes hs
  have hunit : ∀ l, c.evaluate s = .unit l ↔ ¬s.Entails c ∧ ¬s.Refutes c ∧ s.ReducesTo c l :=
    fun _ => evaluate_eq_unit_iff_reducesTo hs hc
  refine ⟨hsatisfied, hfalsified, hunit, ?_, fun _ _ => evaluate_congr⟩
  -- The last value is left when none of the others is taken.
  rw [Evaluation.eq_unknown_iff, Ne, hsatisfied, Ne, hfalsified]
  refine and_congr_right fun hentails => and_congr_right fun hrefutes => ?_
  refine forall_congr' fun l => ?_
  rw [Ne, hunit, and_iff_right hentails, and_iff_right hrefutes]

/-- A clause and a solution with repetitions: the solution leaves one literal of the clause open. -/
theorem evaluate_decides_entailment_repeated :
    ∃ (c : Clause) (s : Solution) (l : Literal), c.literals.map Literal.toInt = [1, -2, 1, 3] ∧
      s.literals.map Literal.toInt = [2, -3, 2] ∧ l.toInt = 1 ∧ (∀ m ∈ c, -m ∉ c) ∧
      (∀ m ∈ s, -m ∉ s) ∧ c.evaluate s = .unit l ∧ ¬s.Entails c ∧ ¬s.Refutes c ∧
      s.ReducesTo c l := by
  let x : Variable := ⟨1, by decide, by decide⟩
  let y : Variable := ⟨2, by decide, by decide⟩
  let z : Variable := ⟨3, by decide, by decide⟩
  let c : Clause := ⟨[.ofVar x true, .ofVar y false, .ofVar x true, .ofVar z true]⟩
  let s : Solution := ⟨[.ofVar y true, .ofVar z false, .ofVar y true]⟩
  have hc : ∀ m ∈ c.literals, -m ∉ c.literals := by decide
  have hs : ∀ m ∈ s.literals, -m ∉ s.literals := by decide
  have hunit : c.evaluate s = .unit (.ofVar x true) := by decide
  exact ⟨c, s, .ofVar x true, by decide, by decide, by decide, hc, hs, hunit,
    ((evaluate_decides_entailment hc hs).2.2.1 _).1 hunit⟩

end Clause

end Clausal
