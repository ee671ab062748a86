/-
  Clausal.Proofs.Assignment.Cleaning

  What the clean form of a list says. A list has none when it holds a literal and its negation, and
  the valuations see the same: read as a clause such a list cannot be false, read as a solution it
  cannot be true. For a list that does not contradict itself, a valuation that makes the clause
  false and one that makes the solution true are at hand from the entailment laws.

  Otherwise the clean form has the same members, so it has the same truth value in both readings,
  and no two of its literals are over one variable. A clause without clean form is always true;
  leaving it out of a clause list changes nothing.
-/
import Clausal.Assignment.Lookup
import Clausal.Assignment.Scan
import Clausal.Proofs.Clause.Entailment
import Clausal.Proofs.Clause.Propagation
import Clausal.Proofs.Collect
import Clausal.Proofs.FirstOccurrences
import Mathlib.Data.Finset.Card

namespace Clausal

/-! ## Contradictions -/

/-- Exactly the clauses that hold a literal and its negation are always true. -/
theorem Clause.forall_holds_iff {c : Clause} : (∀ v, c.holds v = true) ↔ ∃ l ∈ c, -l ∈ c := by
  constructor
  · intro h
    by_contra hnone
    have hc : ∀ l ∈ c, -l ∉ c := fun l hl hneg => hnone ⟨l, hl, hneg⟩
    obtain ⟨l, hl, htrue⟩ := holds_iff.1 (h c.refutation)
    rw [holds_refutation hc hl] at htrue
    cases htrue
  · rintro ⟨l, hl, hneg⟩ v
    by_cases hv : l.holds v = true
    · exact holds_iff.2 ⟨l, hl, hv⟩
    · refine holds_iff.2 ⟨-l, hneg, ?_⟩
      rw [Literal.holds_neg, Bool.not_eq_true', ← Bool.not_eq_true]
      exact hv

/-- Exactly the solutions that hold a literal and its negation are never true. -/
theorem Solution.forall_not_holds_iff {s : Solution} :
    (∀ v, ¬s.holds v = true) ↔ ∃ l ∈ s, -l ∈ s := by
  constructor
  · intro h
    by_contra hnone
    have hs : ∀ l ∈ s, -l ∉ s := fun l hl hneg => hnone ⟨l, hl, hneg⟩
    exact h _ (holds_complete hs fun _ => true)
  · rintro ⟨l, hl, hneg⟩ v hv
    exact Clause.not_holds_of_neg_mem hneg hv (holds_iff.1 hv l hl)

/-! ## Members decide the truth value -/

theorem Clause.holds_congr {c d : Clause} (h : ∀ l, l ∈ d ↔ l ∈ c) (v : Valuation) :
    d.holds v = c.holds v := by
  rw [Bool.eq_iff_iff, holds_iff, holds_iff]
  simp only [h]

theorem Solution.holds_congr {s t : Solution} (h : ∀ l, l ∈ t ↔ l ∈ s) (v : Valuation) :
    t.holds v = s.holds v := by
  rw [Bool.eq_iff_iff, holds_iff, holds_iff]
  simp only [h]

namespace Assignment

variable {k : Kind} {a b : Assignment k}

/-! ## The clean form -/

/-- In a list that does not contradict itself no two literals share a variable. -/
theorem eq_of_var_eq (ha : ∀ l ∈ a, -l ∉ a) :
    ∀ l ∈ a.literals, ∀ m ∈ a.literals, l.var = m.var → l = m := by
  intro l hl m hm hvar
  rcases Literal.eq_or_eq_neg_of_var_eq hvar with heq | rfl
  · exact heq
  · exact absurd hl (ha m hm)

theorem literals_merge_singleton (a : Assignment k) :
    (merge [a]).literals = a.literals.eraseDups := by
  rw [merge, List.flatMap_singleton]

section Clean

variable (h : a.clean? = some b)
include h

theorem eq_merge_of_clean? : b = merge [a] := by
  apply ext_literals
  rw [literals_merge_singleton, (clean?_eq_some_iff.1 h).2]

/-- A clean form is its own clean form. -/
theorem clean?_of_clean? : b.clean? = some b := by
  obtain ⟨ha, hb⟩ := clean?_eq_some_iff.1 h
  apply clean?_eq_some_iff.2
  constructor
  · intro l hl hneg
    rw [mem_of_clean?_eq_some h] at hl hneg
    exact ha l hl hneg
  · rw [hb, eraseDups_eq_self (nodup_eraseDups a.literals)]

/-- The clean form mentions each variable once, in the order of first occurrence. -/
theorem vars_of_clean? : b.vars = a.vars.eraseDups := by
  obtain ⟨ha, hb⟩ := clean?_eq_some_iff.1 h
  rw [vars, vars, hb, eraseDups_map (eq_of_var_eq ha)]

theorem size_of_clean? : b.size = a.vars.toFinset.card := by
  have hsize : b.size = b.vars.length := by
    rw [size, vars, List.length_map]
  have hvars : a.vars.toFinset = a.vars.eraseDups.toFinset := by
    ext x
    rw [List.mem_toFinset, List.mem_toFinset, List.mem_eraseDups]
  rw [hsize, vars_of_clean? h, hvars, List.toFinset_card_of_nodup (nodup_eraseDups a.vars)]

end Clean

end Assignment

/-! ## Clause lists -/

namespace ClauseList

/-- The clauses that are left out are always true. -/
theorem holds_dropTautologies (l : ClauseList) (v : Valuation) :
    l.dropTautologies.holds v = l.holds v := by
  rw [Bool.eq_iff_iff, holds_iff, holds_iff]
  simp only [dropTautologies, filter, List.mem_filter]
  constructor
  · intro h c hc
    cases hclean : c.clean? with
    | none => exact Clause.forall_holds_iff.2 (Assignment.clean?_eq_none_iff.1 hclean) v
    | some d => exact h c ⟨hc, by rw [hclean, Option.isSome_some]⟩
  · intro h c hc
    exact h c hc.1

theorem satisfies_dropTautologies {l : ClauseList} {s : Solution} (h : s.satisfies l = true) :
    s.satisfies l.dropTautologies = true := by
  rw [Solution.satisfies_iff] at h ⊢
  intro c hc
  exact h c (List.mem_filter.1 hc).1

end ClauseList

namespace Assignment

/-! ## Cleaning -/

/-- A list has no clean form exactly when it holds a literal and its negation, which is when it is
always true as a clause, and when it is never true as a solution; one pass from left to right finds
this out. The clean form holds each literal once, in the order of first occurrence, and is its own
clean form; it has one literal for each variable, is the union of the list alone, and has the truth
value of the list in both readings. A clause list keeps its truth value without the clauses that
have no clean form, and what satisfied it satisfies the rest. -/
theorem clean?_decides_contradiction (k : Kind) :
    (∀ a : Assignment k, a.cleanScan? = a.clean? ∧
      (a.clean? = none ↔ ∃ l ∈ a, -l ∈ a) ∧
      (a.clean? = none ↔ ∀ v, Clause.holds v (a.toKind .clause) = true) ∧
      (a.clean? = none ↔ ∀ v, ¬Solution.holds v (a.toKind .solution) = true) ∧
      ∀ b, a.clean? = some b →
        FirstOccurrences a.literals b.literals ∧ b.size = a.vars.toFinset.card ∧
        b.clean? = some b ∧ b = merge [a] ∧
        ∀ v, Clause.holds v (b.toKind .clause) = Clause.holds v (a.toKind .clause) ∧
          Solution.holds v (b.toKind .solution) = Solution.holds v (a.toKind .solution)) ∧
    ∀ l : ClauseList, (∀ v, l.dropTautologies.holds v = l.holds v) ∧
      ∀ s : Solution, s.satisfies l = true → s.satisfies l.dropTautologies = true := by
  constructor
  · intro a
    refine ⟨cleanScan?_eq a, clean?_eq_none_iff, ?_, ?_, ?_⟩
    · rw [clean?_eq_none_iff, Clause.forall_holds_iff]
      rfl
    · rw [clean?_eq_none_iff, Solution.forall_not_holds_iff]
      rfl
    · intro b hb
      have hmem : ∀ l, l ∈ b ↔ l ∈ a := fun l => mem_of_clean?_eq_some hb
      refine ⟨firstOccurrences_iff.2 (clean?_eq_some_iff.1 hb).2, size_of_clean? hb,
        clean?_of_clean? hb, eq_merge_of_clean? hb, ?_⟩
      intro v
      exact ⟨Clause.holds_congr hmem v, Solution.holds_congr hmem v⟩
  · intro l
    refine ⟨l.holds_dropTautologies, ?_⟩
    intro s hs
    exact l.satisfies_dropTautologies hs

/-- A list with repetitions and the literals left of it, and a satisfied clause list of which one
clause is left. -/
theorem clean?_decides_contradiction_repeated :
    (∃ a b : Assignment .plain, a.literals.map Literal.toInt = [3, -1, 3, 2, -1] ∧
      b.literals.map Literal.toInt = [3, -1, 2] ∧ a.clean? = some b ∧
      FirstOccurrences a.literals b.literals ∧ b.size = a.vars.toFinset.card ∧
      b.clean? = some b ∧ b = merge [a] ∧
      ∀ v, Clause.holds v (b.toKind .clause) = Clause.holds v (a.toKind .clause) ∧
        Solution.holds v (b.toKind .solution) = Solution.holds v (a.toKind .solution)) ∧
    ∃ (l : ClauseList) (s : Solution),
      l.clauses.map (·.literals.map Literal.toInt) = [[2, 3, -2], [1, 3]] ∧
      s.literals.map Literal.toInt = [3] ∧ s.satisfies l = true ∧
      l.dropTautologies.clauses.map (·.literals.map Literal.toInt) = [[1, 3]] ∧
      s.satisfies l.dropTautologies = true := by
  let x : Variable := ⟨1, by decide, by decide⟩
  let y : Variable := ⟨2, by decide, by decide⟩
  let z : Variable := ⟨3, by decide, by decide⟩
  constructor
  · let a : Assignment .plain :=
      ⟨[.ofVar z true, .ofVar x false, .ofVar z true, .ofVar y true, .ofVar x false]⟩
    let b : Assignment .plain := ⟨[.ofVar z true, .ofVar x false, .ofVar y true]⟩
    have hb : a.clean? = some b := by decide
    obtain ⟨-, -, -, -, hclean⟩ := (clean?_decides_contradiction .plain).1 a
    exact ⟨a, b, by decide, by decide, hb, hclean b hb⟩
  · let l : ClauseList :=
      ⟨[⟨[.ofVar y true, .ofVar z true, .ofVar y false]⟩, ⟨[.ofVar x true, .ofVar z true]⟩], none⟩
    let s : Solution := ⟨[.ofVar z true]⟩
    have hs : s.satisfies l = true := by decide
    obtain ⟨-, hsatisfies⟩ := (clean?_decides_contradiction .plain).2 l
    exact ⟨l, s, by decide, by decide, hs, by decide, hsatisfies s hs⟩

end Assignment

end Clausal
