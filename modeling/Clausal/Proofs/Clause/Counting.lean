/-
  Clausal.Proofs.Clause.Counting

  The unit test and evaluation, which count differently. The test counts the distinct literals that
  the solution does not falsify, satisfied ones included. Evaluation looks for a satisfied literal
  first, and finds a clause unit when all distinct literals but one are falsified. Both come to the
  list of the literals that are not falsified, so they differ on satisfied clauses only
  (`exists_evaluate_eq_unit_iff`).

  A solution that contradicts itself can hold a literal and falsify it. Then a clause can be
  satisfied through one literal and unit through another one. A solution that does not contradict
  itself satisfies a unit clause only through the literal that the test has found.
-/
import Clausal.Clause.Scan
import Mathlib.Logic.ExistsUnique

namespace Clausal.Clause

variable {c : Clause} {s : Solution} {l : Literal}

/-! ## The unit test -/

theorem isUnit_iff_exists_pending : c.isUnit s = true ↔ ∃ l, c.pending s = [l] := by
  rw [isUnit, beq_iff_eq, List.length_eq_one_iff]

/-- The test looks for the one literal of a clause that the solution does not falsify. -/
theorem isUnit_iff : c.isUnit s = true ↔ ∃! l, l ∈ c ∧ -l ∉ s := by
  rw [isUnit_iff_exists_pending]
  refine exists_congr fun l => ?_
  rw [pending_eq_singleton_iff, ← and_assoc]
  refine and_congr_right fun _ => forall_congr' fun m => ?_
  rw [and_imp]
  -- That all others are falsified is that what is not falsified is no other.
  exact imp_congr_right fun _ => Decidable.not_imp_comm

/-! ## The test against evaluation -/

/-- Evaluation finds the literal of the test, unless the clause is satisfied. -/
theorem evaluate_eq_unit_iff_pending :
    c.evaluate s = .unit l ↔ c.pending s = [l] ∧ c.evaluate s ≠ .satisfied := by
  rw [evaluate_eq_unit_iff, pending_eq_singleton_iff, Ne, evaluate_eq_satisfied_iff, and_comm]

/-- A clause evaluates to unit exactly if it passes the test and is not satisfied. -/
theorem exists_evaluate_eq_unit_iff :
    (∃ l, c.evaluate s = .unit l) ↔ c.isUnit s = true ∧ c.evaluate s ≠ .satisfied := by
  simp only [evaluate_eq_unit_iff_pending, exists_and_right, isUnit_iff_exists_pending]

section Consistent

variable (hs : ∀ m ∈ s, -m ∉ s) (hunit : c.isUnit s = true) (hl : l ∈ c) (hneg : -l ∉ s)
include hs hunit hl hneg

/-- Of the literals of a unit clause, a solution that does not contradict itself can hold only the
one that it does not falsify. -/
theorem exists_mem_iff_of_isUnit : (∃ m ∈ c, m ∈ s) ↔ l ∈ s := by
  refine ⟨?_, fun hmem => ⟨l, hl, hmem⟩⟩
  rintro ⟨m, hm, hmem⟩
  -- A literal that is held is not falsified.
  have heq : m = l := (isUnit_iff.1 hunit).unique ⟨hm, hs m hmem⟩ ⟨hl, hneg⟩
  rwa [← heq]

theorem evaluate_of_isUnit_of_mem (hmem : l ∈ s) : c.evaluate s = .satisfied :=
  evaluate_eq_satisfied_iff.2 ((exists_mem_iff_of_isUnit hs hunit hl hneg).2 hmem)

theorem evaluate_of_isUnit_of_not_mem (hmem : l ∉ s) : c.evaluate s = .unit l := by
  have hnone : c.evaluate s ≠ .satisfied := by
    rw [Ne, evaluate_eq_satisfied_iff, exists_mem_iff_of_isUnit hs hunit hl hneg]
    exact hmem
  obtain ⟨m, hm⟩ := exists_evaluate_eq_unit_iff.2 ⟨hunit, hnone⟩
  obtain ⟨-, hmc, hmneg, -⟩ := evaluate_eq_unit_iff.1 hm
  rw [hm, (isUnit_iff.1 hunit).unique ⟨hmc, hmneg⟩ ⟨hl, hneg⟩]

end Consistent

/-- The unit test agrees with evaluation. Each of them is what a pass that counts gives. A clause
evaluates to unit exactly if it passes the test and is not satisfied, and it passes the test exactly
if one literal of it is not falsified. If the solution does not contradict itself, a clause that
passes the test evaluates to unit with this literal if it is unassigned, and to satisfied if it is
in the solution. -/
theorem isUnit_agrees_with_evaluate (c : Clause) (s : Solution) :
    c.evaluateScan s = c.evaluate s ∧ c.isUnitScan s = c.isUnit s ∧
    ((∃ l, c.evaluate s = .unit l) ↔ c.isUnit s = true ∧ c.evaluate s ≠ .satisfied) ∧
    (c.isUnit s = true ↔ ∃! l, l ∈ c ∧ -l ∉ s) ∧
    ((∀ l ∈ s, -l ∉ s) → c.isUnit s = true → ∀ l ∈ c, -l ∉ s →
      (l ∉ s → c.evaluate s = .unit l) ∧ (l ∈ s → c.evaluate s = .satisfied)) := by
  refine ⟨evaluateScan_eq c s, isUnitScan_eq c s, exists_evaluate_eq_unit_iff, isUnit_iff, ?_⟩
  intro hs hunit l hl hneg
  exact ⟨evaluate_of_isUnit_of_not_mem hs hunit hl hneg,
    evaluate_of_isUnit_of_mem hs hunit hl hneg⟩

/-- A clause with repetitions of which one solution leaves a literal open, and another one holds it;
and a tautology that passes the test through one literal and is satisfied through the others, under
a solution that contradicts itself. -/
theorem isUnit_agrees_with_evaluate_repeated :
    (∃ (c : Clause) (s t : Solution) (l : Literal), c.literals.map Literal.toInt = [1, -2, 1, -2] ∧
      s.literals.map Literal.toInt = [2, 3, 2] ∧ t.literals.map Literal.toInt = [1, 2, 1] ∧
      l.toInt = 1 ∧ (∀ m ∈ s, -m ∉ s) ∧ (∀ m ∈ t, -m ∉ t) ∧ c.isUnit s = true ∧
      c.isUnit t = true ∧ c.evaluate s = .unit l ∧ c.evaluate t = .satisfied) ∧
    ∃ (c : Clause) (s : Solution) (l : Literal), c.literals.map Literal.toInt = [3, 1, -1, 3] ∧
      s.literals.map Literal.toInt = [1, -1, 1] ∧ l.toInt = 3 ∧ l ∈ c ∧ l ∉ s ∧ -l ∉ s ∧
      c.isUnit s = true ∧ c.evaluate s = .satisfied ∧ ¬∃ m, c.evaluate s = .unit m := by
  let x : Variable := ⟨1, by decide, by decide⟩
  let y : Variable := ⟨2, by decide, by decide⟩
  let z : Variable := ⟨3, by decide, by decide⟩
  refine ⟨?_, ?_⟩
  · let c : Clause := ⟨[.ofVar x true, .ofVar y false, .ofVar x true, .ofVar y false]⟩
    let s : Solution := ⟨[.ofVar y true, .ofVar z true, .ofVar y true]⟩
    let t : Solution := ⟨[.ofVar x true, .ofVar y true, .ofVar x true]⟩
    let l : Literal := .ofVar x true
    have hs : ∀ m ∈ s.literals, -m ∉ s.literals := by decide
    have ht : ∀ m ∈ t.literals, -m ∉ t.literals := by decide
    have hunits : c.isUnit s = true := by decide
    have hunitt : c.isUnit t = true := by decide
    obtain ⟨-, -, -, -, hopen⟩ := isUnit_agrees_with_evaluate c s
    obtain ⟨-, -, -, -, hheld⟩ := isUnit_agrees_with_evaluate c t
    exact ⟨c, s, t, l, by decide, by decide, by decide, by decide, hs, ht, hunits, hunitt,
      (hopen hs hunits l (by decide) (by decide)).1 (by decide),
      (hheld ht hunitt l (by decide) (by decide)).2 (by decide)⟩
  · let c : Clause := ⟨[.ofVar z true, .ofVar x true, .ofVar x false, .ofVar z true]⟩
    let s : Solution := ⟨[.ofVar x true, .ofVar x false, .ofVar x true]⟩
    have hsatisfied : c.evaluate s = .satisfied := by decide
    obtain ⟨-, -, hunit, -, -⟩ := isUnit_agrees_with_evaluate c s
    exact ⟨c, s, .ofVar z true, by decide, by decide, by decide, by decide, by decide, by decide,
      by decide, hsatisfied, fun h => (hunit.1 h).2 hsatisfied⟩

end Clausal.Clause
