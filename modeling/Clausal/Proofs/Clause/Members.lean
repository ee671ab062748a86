/-
  Clausal.Proofs.Clause.Members

  Clauses and solutions as sets of literals. They are stored in an order and with repetitions, and a
  pass through a clause ends early and remembers the literal that it met last. What comes of it does
  not depend on that: lists with the same literals (`Assignment.SameLiterals`) get the same answers.

  Each operation has a law that says its result by membership, and the equations follow from these
  laws. For the literal of a unit clause this takes the counts into account: it is the last open
  literal that a pass meets, but also the only one.
-/
import Clausal.Proofs.Clause.Counting
import Clausal.Proofs.Clause.Entailment
import Clausal.Proofs.Clause.Propagation

namespace Clausal

/-- The lists hold the same literals, in any order and with any repetitions. -/
def Assignment.SameLiterals {k : Kind} (a b : Assignment k) : Prop :=
  ∀ l, l ∈ a ↔ l ∈ b

namespace Assignment

variable {k k' : Kind} {a a' : Assignment k} {b b' : Assignment k'}

/-- Only the literals of the two lists need to be looked at. -/
theorem sameLiterals_iff :
    a.SameLiterals a' ↔ (∀ l ∈ a.literals, l ∈ a') ∧ ∀ l ∈ a'.literals, l ∈ a :=
  ⟨fun h => ⟨fun l => (h l).1, fun l => (h l).2⟩, fun h l => ⟨h.1 l, h.2 l⟩⟩

instance (a a' : Assignment k) : Decidable (a.SameLiterals a') :=
  decidable_of_iff _ sameLiterals_iff.symm

/-! ## Conflicts and cleaning -/

theorem conflictsWith_congr (ha : a.SameLiterals a') (hb : b.SameLiterals b') :
    a.conflictsWith b = a'.conflictsWith b' := by
  rw [Bool.eq_iff_iff, conflictsWith_iff, conflictsWith_iff]
  simp only [ha _, hb _]

/-- Of two lists with the same literals, both or none have a clean form. -/
theorem isSome_clean?_congr (ha : a.SameLiterals a') : a.clean?.isSome = a'.clean?.isSome := by
  rw [Bool.eq_iff_iff, Option.isSome_iff_ne_none, Option.isSome_iff_ne_none, Ne, Ne,
    clean?_eq_none_iff, clean?_eq_none_iff]
  simp only [ha _]

end Assignment

namespace Clause

variable {c c' : Clause} {s s' : Solution}

/-! ## Evaluation -/

theorem isUnit_congr (hc : c.SameLiterals c') (hs : s.SameLiterals s') :
    c.isUnit s = c'.isUnit s' := by
  rw [Bool.eq_iff_iff, isUnit_iff, isUnit_iff]
  simp only [hc _, hs _]

/-! ## Resolution -/

theorem sameLiterals_resolve (hc : c.SameLiterals c') (d : Clause) (l : Literal) :
    (c.resolve d l).SameLiterals (c'.resolve d l) := by
  intro m
  rw [mem_resolve, mem_resolve, hc m]

/-- Either of two clauses can be the first one, if the literal is negated. -/
theorem sameLiterals_resolve_swap (c d : Clause) (l : Literal) :
    (c.resolve d l).SameLiterals (d.resolve c (-l)) := by
  intro m
  rw [mem_resolve, mem_resolve, Literal.neg_neg, or_comm]

end Clause

/-! ## Clause lists -/

/-- Only the clauses of a list and the literals of a solution matter to whether it is satisfied. -/
theorem Solution.satisfies_congr {s s' : Solution} {j k : ClauseList} (hs : s.SameLiterals s')
    (hjk : ∀ c, c ∈ j.clauses ↔ c ∈ k.clauses) : s.satisfies j = s'.satisfies k := by
  have hsame : ∀ c : Clause, c.evaluate s = c.evaluate s' := fun _ =>
    Clause.evaluate_congr (fun _ => Iff.rfl) hs
  rw [Bool.eq_iff_iff, satisfies_iff, satisfies_iff]
  simp only [hjk, hsame]

namespace Clause

/-- Clauses and solutions are sets of literals. Clauses with the same literals, in any order and
with any repetitions, under solutions with the same literals evaluate to the same, down to the
literal that is left, by counting too; they agree on being unit, on conflicting with the solution
and on having a clean form. Their resolvents with any clause have the same literals, and it makes no
difference which clause comes first. Solutions with the same literals satisfy the same lists of
clauses, in any order and with any repetitions. -/
theorem answers_of_sameLiterals {c c' : Clause} {s s' : Solution} (hc : c.SameLiterals c')
    (hs : s.SameLiterals s') :
    (c.evaluate s = c'.evaluate s' ∧ c.evaluateScan s = c'.evaluateScan s') ∧
    (c.isUnit s = c'.isUnit s' ∧ c.isUnitScan s = c'.isUnitScan s') ∧
    c.conflictsWith s = c'.conflictsWith s' ∧ c.clean?.isSome = c'.clean?.isSome ∧
    (∀ (d : Clause) (l : Literal), (c.resolve d l).SameLiterals (c'.resolve d l) ∧
      (c.resolve d l).SameLiterals (d.resolve c (-l))) ∧
    ∀ j k : ClauseList, (∀ d, d ∈ j.clauses ↔ d ∈ k.clauses) →
      s.satisfies j = s'.satisfies k := by
  have hevaluate : c.evaluate s = c'.evaluate s' := evaluate_congr hc hs
  have hunit : c.isUnit s = c'.isUnit s' := isUnit_congr hc hs
  refine ⟨⟨hevaluate, ?_⟩, ⟨hunit, ?_⟩, Assignment.conflictsWith_congr hc hs,
    Assignment.isSome_clean?_congr hc, ?_, fun j k hjk => Solution.satisfies_congr hs hjk⟩
  · rw [evaluateScan_eq, evaluateScan_eq, hevaluate]
  · rw [isUnitScan_eq, isUnitScan_eq, hunit]
  · intro d l
    exact ⟨sameLiterals_resolve hc d l, sameLiterals_resolve_swap c d l⟩

/-- A clause and a solution under which it is unit, both in another order and with other
repetitions; resolvents of the clause, and two lists that hold it. -/
theorem answers_of_sameLiterals_reordered :
    ∃ (c c' d : Clause) (s s' : Solution) (l m : Literal) (j k : ClauseList),
      c.literals.map Literal.toInt = [1, -2, 4, 1, -2] ∧
      c'.literals.map Literal.toInt = [4, -2, 4, 1] ∧ d.literals.map Literal.toInt = [2, 3, 2] ∧
      s.literals.map Literal.toInt = [2, 3, -4, 2] ∧ s'.literals.map Literal.toInt = [-4, 3, 2] ∧
      l.toInt = 1 ∧ m.toInt = -2 ∧ j.clauses = [c, d, c] ∧ k.clauses = [d, c] ∧
      c.SameLiterals c' ∧ s.SameLiterals s' ∧ c.evaluate s = .unit l ∧
      c'.evaluateScan s' = .unit l ∧ c'.isUnit s' = true ∧ c'.isUnitScan s' = true ∧
      c'.conflictsWith s' = true ∧ c'.clean?.isSome = true ∧
      (c.resolve d m).literals.map Literal.toInt = [1, 4, 3] ∧
      (c.resolve d m).SameLiterals (c'.resolve d m) ∧
      (c.resolve d m).SameLiterals (d.resolve c (-m)) ∧ s.satisfies j = s'.satisfies k := by
  have hlists : ∀ c d e : Clause, e ∈ [c, d, c] ↔ e ∈ [d, c] := by grind
  let x : Variable := ⟨1, by decide, by decide⟩
  let y : Variable := ⟨2, by decide, by decide⟩
  let z : Variable := ⟨3, by decide, by decide⟩
  let w : Variable := ⟨4, by decide, by decide⟩
  let m : Literal := .ofVar y false
  let c : Clause := ⟨[.ofVar x true, m, .ofVar w true, .ofVar x true, m]⟩
  let c' : Clause := ⟨[.ofVar w true, m, .ofVar w true, .ofVar x true]⟩
  let d : Clause := ⟨[.ofVar y true, .ofVar z true, .ofVar y true]⟩
  let s : Solution := ⟨[.ofVar y true, .ofVar z true, .ofVar w false, .ofVar y true]⟩
  let s' : Solution := ⟨[.ofVar w false, .ofVar z true, .ofVar y true]⟩
  have hc : c.SameLiterals c' := by decide
  have hs : s.SameLiterals s' := by decide
  have hevaluate : c.evaluate s = .unit (.ofVar x true) := by decide
  have hunit : c.isUnit s = true := by decide
  have hunitScan : c.isUnitScan s = true := by decide
  have hscan : c.evaluateScan s = .unit (.ofVar x true) := by decide
  have hconflict : c.conflictsWith s = true := by decide
  have hclean : c.clean?.isSome = true := by decide
  obtain ⟨⟨-, hscan'⟩, ⟨hunit', hunitScan'⟩, hconflict', hclean', hresolve, hsatisfies⟩ :=
    answers_of_sameLiterals hc hs
  obtain ⟨hleft, hswap⟩ := hresolve d m
  exact ⟨c, c', d, s, s', .ofVar x true, m, ⟨[c, d, c], none⟩, ⟨[d, c], none⟩, by decide, by decide,
    by decide, by decide, by decide, by decide, by decide, rfl, rfl, hc, hs, hevaluate,
    hscan' ▸ hscan, hunit' ▸ hunit, hunitScan' ▸ hunitScan, hconflict' ▸ hconflict,
    hclean' ▸ hclean, by decide, hleft, hswap, hsatisfies _ _ (hlists c d)⟩

end Clause

end Clausal
