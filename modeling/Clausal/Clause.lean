/-
  Clausal.Clause

  Clauses against partial solutions, and resolution. Evaluation looks at two things only: whether
  some literal of the clause is in the solution, and which distinct literals of the clause the
  solution leaves open, that is, does not hold negated. The order and repetition of literals do not
  matter, which the four laws `evaluate_eq_satisfied_iff` to `evaluate_eq_unit_iff` show by being
  stated over membership.
-/
import Clausal.Assignment.Basic
import Clausal.Distinct

namespace Clausal

/-- What a solution says about a clause. -/
inductive Evaluation where
  /-- Some literal of the clause is in the solution. -/
  | satisfied
  /-- Every literal of the clause is in the solution negated. -/
  | falsified
  /-- All literals but this one are in the solution negated. -/
  | unit (literal : Literal)
  /-- At least two literals are undecided. -/
  | unknown
deriving DecidableEq

namespace Clause

/-! ## Evaluation -/

/-- The distinct literals of a clause that the solution does not falsify. -/
def pending (c : Clause) (s : Solution) : List Literal :=
  (c.literals.filter (-· ∉ s)).eraseDups

/-- What a solution says about a clause. -/
def evaluate (c : Clause) (s : Solution) : Evaluation :=
  if c.literals.any (· ∈ s) then .satisfied
  else
    match c.pending s with
    | [] => .falsified
    | [l] => .unit l
    | _ => .unknown

/-- Whether exactly one distinct literal of the clause is not falsified by the solution; that
literal may be undecided or satisfied. -/
def isUnit (c : Clause) (s : Solution) : Bool :=
  (c.pending s).length == 1

theorem mem_pending {c : Clause} {s : Solution} {l : Literal} :
    l ∈ c.pending s ↔ l ∈ c ∧ -l ∉ s := by
  simp [pending, Assignment.mem_def]

theorem nodup_pending (c : Clause) (s : Solution) : (c.pending s).Nodup :=
  nodup_eraseDups _

/-- A literal is the only open one exactly when it is open and all others are falsified. -/
theorem pending_eq_singleton_iff {c : Clause} {s : Solution} {l : Literal} :
    c.pending s = [l] ↔ l ∈ c ∧ -l ∉ s ∧ ∀ m ∈ c, m ≠ l → -m ∈ s := by
  have hnodup := nodup_pending c s
  have hmem : ∀ m, m ∈ c.pending s ↔ m ∈ c ∧ -m ∉ s := fun m => mem_pending
  constructor
  · intro h
    have hl := (hmem l).1 (h ▸ List.mem_singleton_self l)
    refine ⟨hl.1, hl.2, fun m hm hne => Decidable.byContradiction fun hneg => hne ?_⟩
    simpa [h] using (hmem m).2 ⟨hm, hneg⟩
  · rintro ⟨hl, hneg, hothers⟩
    have hall : ∀ m ∈ c.pending s, m = l := fun m hm =>
      Decidable.byContradiction fun hne => ((hmem m).1 hm).2 (hothers m ((hmem m).1 hm).1 hne)
    have hself := (hmem l).2 ⟨hl, hneg⟩
    match hp : c.pending s with
    | [] => simp [hp] at hself
    | [m] => rw [hall m (by simp [hp])]
    | m :: m' :: rest =>
      have hm := hall m (by simp [hp])
      have hm' := hall m' (by simp [hp])
      simp [hp, hm, hm'] at hnodup

theorem evaluate_eq_satisfied_iff {c : Clause} {s : Solution} :
    c.evaluate s = .satisfied ↔ ∃ l ∈ c, l ∈ s := by
  unfold evaluate
  split
  · next h => simpa [Assignment.mem_def] using h
  · next h =>
    have h' : ¬∃ l ∈ c, l ∈ s := by simpa [Assignment.mem_def] using h
    simp only [h', iff_false]
    split <;> nofun

/-- With no literal satisfied, the open literals decide. -/
theorem evaluate_of_not_satisfied {c : Clause} {s : Solution} (h : ¬∃ l ∈ c, l ∈ s) :
    c.evaluate s =
      match c.pending s with
      | [] => .falsified
      | [l] => .unit l
      | _ => .unknown := by
  have h' : ¬(c.literals.any (· ∈ s)) = true := by simpa [Assignment.mem_def] using h
  rw [evaluate, if_neg h']

theorem evaluate_eq_falsified_iff {c : Clause} {s : Solution} :
    c.evaluate s = .falsified ↔ (¬∃ l ∈ c, l ∈ s) ∧ ∀ l ∈ c, -l ∈ s := by
  by_cases h : ∃ l ∈ c, l ∈ s
  · rw [evaluate_eq_satisfied_iff.2 h]
    simp [h]
  · rw [evaluate_of_not_satisfied h]
    have hnil : c.pending s = [] ↔ ∀ l ∈ c, -l ∈ s := by
      simp [List.eq_nil_iff_forall_not_mem, mem_pending]
    rw [← hnil]
    simp only [h, not_false_eq_true, true_and]
    split <;> simp_all

theorem evaluate_eq_unit_iff {c : Clause} {s : Solution} {l : Literal} :
    c.evaluate s = .unit l ↔
      (¬∃ m ∈ c, m ∈ s) ∧ l ∈ c ∧ -l ∉ s ∧ ∀ m ∈ c, m ≠ l → -m ∈ s := by
  by_cases h : ∃ l ∈ c, l ∈ s
  · rw [evaluate_eq_satisfied_iff.2 h]
    simp [h]
  · rw [evaluate_of_not_satisfied h, ← pending_eq_singleton_iff]
    simp only [h, not_false_eq_true, true_and]
    split <;> simp_all

/-! ## Resolution -/

/-- The literals of two clauses without `l` from the first and without its negation from the second,
each at its first occurrence. The clauses need not hold these literals. -/
def resolve (c d : Clause) (l : Literal) : Clause :=
  ⟨(c.literals.filter (· ≠ l) ++ d.literals.filter (· ≠ -l)).eraseDups⟩

theorem mem_resolve {c d : Clause} {l m : Literal} :
    m ∈ c.resolve d l ↔ (m ∈ c ∧ m ≠ l) ∨ (m ∈ d ∧ m ≠ -l) := by
  simp [resolve, Assignment.mem_def]

end Clause

end Clausal
