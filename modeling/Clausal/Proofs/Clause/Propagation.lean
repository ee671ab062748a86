/-
  Clausal.Proofs.Clause.Propagation

  What a solution says about a clause stays valid when the solution grows. A literal that is once in
  the solution stays there, so satisfied clauses stay satisfied. That a clause is falsified or unit
  rests on negated literals, which stay there too, and on literals that are not in the solution. The
  latter could appear; but a solution that does not contradict itself cannot take in a literal whose
  negation it holds, so the literal that a unit clause leaves open is the only one that can change
  the answer (`Clause.exists_mem_iff_of_unit`).
-/
import Clausal.ClauseList
import Mathlib.Data.List.Basic

namespace Clausal

/-- The solution with one more literal at the end. -/
def Solution.push (s : Solution) (l : Literal) : Solution :=
  ⟨s.literals ++ [l]⟩

@[simp] theorem Solution.mem_push {s : Solution} {l m : Literal} :
    m ∈ s.push l ↔ m ∈ s ∨ m = l := by
  simp [push, Assignment.mem_def]

namespace Clause

variable {c : Clause} {s t : Solution} {l : Literal}

/-! ## Larger solutions -/

/-- A unit clause is satisfied by every solution that holds the literal left open. -/
theorem evaluate_of_unit_of_mem (h : c.evaluate s = .unit l) (hl : l ∈ t) :
    c.evaluate t = .satisfied :=
  evaluate_eq_satisfied_iff.2 ⟨l, (evaluate_eq_unit_iff.1 h).2.1, hl⟩

section Extension

variable (hst : ∀ l ∈ s, l ∈ t)
include hst

theorem evaluate_of_satisfied (h : c.evaluate s = .satisfied) : c.evaluate t = .satisfied := by
  obtain ⟨l, hl, hmem⟩ := evaluate_eq_satisfied_iff.1 h
  exact evaluate_eq_satisfied_iff.2 ⟨l, hl, hst l hmem⟩

variable (ht : ∀ l ∈ t, -l ∉ t)
include ht

/-- A solution that does not contradict itself takes in no literal that is falsified. -/
theorem not_mem_of_neg_mem (hneg : -l ∈ s) : l ∉ t := fun hl =>
  ht l hl (hst (-l) hneg)

theorem evaluate_of_falsified (h : c.evaluate s = .falsified) : c.evaluate t = .falsified := by
  obtain ⟨-, hneg⟩ := evaluate_eq_falsified_iff.1 h
  refine evaluate_eq_falsified_iff.2 ⟨?_, fun l hl => hst (-l) (hneg l hl)⟩
  rintro ⟨l, hl, hmem⟩
  exact not_mem_of_neg_mem hst ht (hneg l hl) hmem

/-- Of the literals of a unit clause, only the one left open can be taken in. -/
theorem exists_mem_iff_of_unit (h : c.evaluate s = .unit l) : (∃ m ∈ c, m ∈ t) ↔ l ∈ t := by
  obtain ⟨-, hl, -, hothers⟩ := evaluate_eq_unit_iff.1 h
  refine ⟨?_, fun hmem => ⟨l, hl, hmem⟩⟩
  rintro ⟨m, hm, hmem⟩
  by_cases hne : m = l
  · exact hne ▸ hmem
  · exact absurd hmem (not_mem_of_neg_mem hst ht (hothers m hm hne))

/-- A unit clause is falsified once the literal left open is falsified. -/
theorem evaluate_of_unit_of_neg_mem (h : c.evaluate s = .unit l) (hneg : -l ∈ t) :
    c.evaluate t = .falsified := by
  obtain ⟨-, -, -, hothers⟩ := evaluate_eq_unit_iff.1 h
  apply evaluate_eq_falsified_iff.2
  constructor
  · rw [exists_mem_iff_of_unit hst ht h]
    intro hl
    exact ht l hl hneg
  · intro m hm
    by_cases hne : m = l
    · exact hne ▸ hneg
    · exact hst (-m) (hothers m hm hne)

/-- A unit clause stays unit as long as the literal is open. -/
theorem evaluate_of_unit_of_open (h : c.evaluate s = .unit l) (hl : l ∉ t) (hneg : -l ∉ t) :
    c.evaluate t = .unit l := by
  obtain ⟨-, hmem, -, hothers⟩ := evaluate_eq_unit_iff.1 h
  apply evaluate_eq_unit_iff.2
  rw [exists_mem_iff_of_unit hst ht h]
  exact ⟨hl, hmem, hneg, fun m hm hne => hst (-m) (hothers m hm hne)⟩

end Extension

/-! ## One more literal -/

/-- A unit clause is falsified when the negation of its literal is added, whether or not the
solution contradicts itself. -/
theorem evaluate_push_neg_of_unit (h : c.evaluate s = .unit l) :
    c.evaluate (s.push (-l)) = .falsified := by
  obtain ⟨hnone, hl, -, hothers⟩ := evaluate_eq_unit_iff.1 h
  apply evaluate_eq_falsified_iff.2
  simp only [Solution.mem_push]
  constructor
  · rintro ⟨m, hm, hmem | rfl⟩
    · exact hnone ⟨m, hm, hmem⟩
    · -- If the clause held the negation too, the solution would hold the literal.
      have hself := hothers (-l) hm (Literal.neg_ne_self l)
      rw [Literal.neg_neg] at hself
      exact hnone ⟨l, hl, hself⟩
  · intro m hm
    by_cases hne : m = l
    · exact .inr (hne ▸ rfl)
    · exact .inl (hothers m hm hne)

end Clause

/-! ## Clause lists -/

theorem Solution.satisfies_iff {s : Solution} {k : ClauseList} :
    s.satisfies k = true ↔ ∀ c ∈ k.clauses, c.evaluate s = .satisfied := by
  simp [satisfies]

/-- The clauses that a smaller solution satisfies need not be looked at again. -/
theorem Solution.satisfies_unsatisfied {s t : Solution} (hst : ∀ l ∈ s, l ∈ t) (k : ClauseList) :
    t.satisfies (k.unsatisfied s) = t.satisfies k := by
  rw [Bool.eq_iff_iff, satisfies_iff, satisfies_iff]
  simp only [ClauseList.unsatisfied, ClauseList.filter, List.mem_filter, decide_eq_true_eq]
  constructor
  · intro h c hc
    by_cases hsat : c.evaluate s = .satisfied
    · exact Clause.evaluate_of_satisfied hst hsat
    · exact h c ⟨hc, hsat⟩
  · intro h c hc
    exact h c hc.1

namespace Clause

/-- What a solution says about clauses carries over to every solution that holds its literals.
Satisfied clauses stay satisfied. If the larger solution does not contradict itself, falsified
clauses stay falsified, and a unit clause becomes satisfied or falsified with its literal and stays
unit otherwise. Adding the literal of a unit clause satisfies the clause and adding its negation
falsifies it, even if the solution contradicts itself. A clause list is satisfied exactly if the
clauses are that the smaller solution does not satisfy. -/
theorem evaluate_monotone (s t : Solution) (hst : ∀ l ∈ s, l ∈ t) :
    (∀ c : Clause, c.evaluate s = .satisfied → c.evaluate t = .satisfied) ∧
    ((∀ l ∈ t, -l ∉ t) → ∀ c : Clause,
      (c.evaluate s = .falsified → c.evaluate t = .falsified) ∧
      ∀ l, c.evaluate s = .unit l →
        (l ∈ t → c.evaluate t = .satisfied) ∧ (-l ∈ t → c.evaluate t = .falsified) ∧
        (l ∉ t → -l ∉ t → c.evaluate t = .unit l)) ∧
    (∀ (c : Clause) (l : Literal), c.evaluate s = .unit l →
      c.evaluate (s.push l) = .satisfied ∧ c.evaluate (s.push (-l)) = .falsified) ∧
    ∀ k : ClauseList, t.satisfies k = t.satisfies (k.unsatisfied s) := by
  refine ⟨fun c => evaluate_of_satisfied hst, ?_, ?_, fun k => ?_⟩
  · intro ht c
    refine ⟨evaluate_of_falsified hst ht, fun l h => ⟨?_, ?_, ?_⟩⟩
    · exact evaluate_of_unit_of_mem h
    · exact evaluate_of_unit_of_neg_mem hst ht h
    · exact evaluate_of_unit_of_open hst ht h
  · intro c l h
    exact ⟨evaluate_of_unit_of_mem h (Solution.mem_push.2 (.inr rfl)), evaluate_push_neg_of_unit h⟩
  · rw [Solution.satisfies_unsatisfied hst k]

/-- Three unit clauses under a solution and a larger one that decides two of their literals, and one
of them under a solution that contradicts itself. -/
theorem evaluate_monotone_decided :
    (∃ (s t : Solution) (c d e : Clause) (l m n : Literal),
      s.literals.map Literal.toInt = [-1] ∧ t.literals.map Literal.toInt = [3, -1, 2] ∧
      c.literals.map Literal.toInt = [1, 2, 1] ∧ d.literals.map Literal.toInt = [-3, 1] ∧
      e.literals.map Literal.toInt = [4, 1, 4] ∧ (∀ x ∈ s, x ∈ t) ∧ (∀ x ∈ t, -x ∉ t) ∧
      c.evaluate s = .unit l ∧ c.evaluate t = .satisfied ∧
      d.evaluate s = .unit m ∧ d.evaluate t = .falsified ∧
      e.evaluate s = .unit n ∧ e.evaluate t = .unit n ∧
      t.satisfies ⟨[c, e], none⟩ = t.satisfies (ClauseList.unsatisfied ⟨[c, e], none⟩ s)) ∧
    ∃ (s : Solution) (c : Clause) (l : Literal), s.literals.map Literal.toInt = [5, -1, -5] ∧
      c.literals.map Literal.toInt = [1, 2, 1] ∧ l.toInt = 2 ∧ c.evaluate s = .unit l ∧
      c.evaluate (s.push l) = .satisfied ∧ c.evaluate (s.push (-l)) = .falsified := by
  let x : Variable := ⟨1, by decide, by decide⟩
  let y : Variable := ⟨2, by decide, by decide⟩
  let z : Variable := ⟨3, by decide, by decide⟩
  let w : Variable := ⟨4, by decide, by decide⟩
  let u : Variable := ⟨5, by decide, by decide⟩
  let c : Clause := ⟨[.ofVar x true, .ofVar y true, .ofVar x true]⟩
  constructor
  · let s : Solution := ⟨[.ofVar x false]⟩
    let t : Solution := ⟨[.ofVar z true, .ofVar x false, .ofVar y true]⟩
    let d : Clause := ⟨[.ofVar z false, .ofVar x true]⟩
    let e : Clause := ⟨[.ofVar w true, .ofVar x true, .ofVar w true]⟩
    have hst : ∀ l ∈ s.literals, l ∈ t.literals := by decide
    have ht : ∀ l ∈ t.literals, -l ∉ t.literals := by decide
    have hc : c.evaluate s = .unit (.ofVar y true) := by decide
    have hd : d.evaluate s = .unit (.ofVar z false) := by decide
    have he : e.evaluate s = .unit (.ofVar w true) := by decide
    obtain ⟨-, hlarger, -, hlist⟩ := evaluate_monotone s t hst
    exact ⟨s, t, c, d, e, _, _, _, by decide, by decide, by decide, by decide, by decide, hst, ht,
      hc, ((hlarger ht c).2 _ hc).1 (by decide), hd, ((hlarger ht d).2 _ hd).2.1 (by decide),
      he, ((hlarger ht e).2 _ he).2.2 (by decide) (by decide), hlist _⟩
  · let s : Solution := ⟨[.ofVar u true, .ofVar x false, .ofVar u false]⟩
    have hc : c.evaluate s = .unit (.ofVar y true) := by decide
    obtain ⟨-, -, hpush, -⟩ := evaluate_monotone s s fun _ hl => hl
    obtain ⟨hsatisfied, hfalsified⟩ := hpush c _ hc
    exact ⟨s, c, _, by decide, by decide, by decide, hc, hsatisfied, hfalsified⟩

end Clause

end Clausal
