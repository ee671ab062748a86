/-
  Clausal.Clause.Scan

  Evaluation and the unit test by counting. One pass goes through the distinct literals of a clause.
  It counts them, counts those among them that the solution falsifies, and remembers the last one of
  the others (`Tally`). A literal that the solution holds ends the pass at once. If none does, the
  counts decide: the clause is unit when one literal less is falsified than was read.

  The unit test counts the literals that are not falsified and does not look at the others.

  `evaluate` and `isUnit` say the same by the list of these literals. The remembered literal depends
  on the order in which the pass reads, but it is used only when there is no other one.
-/
import Clausal.Clause

namespace Clausal

/-- What a pass through literals has counted. -/
structure Tally where
  /-- The number of literals. -/
  distinct : Nat
  /-- The number of those that the solution holds negated. -/
  falsified : Nat
  /-- The last one of the others. -/
  lastOpen : Option Literal

namespace Tally

/-! ## Passes -/

/-- The counts before the first literal. -/
def start : Tally := ⟨0, 0, none⟩

/-- Count one more literal. One that the solution holds ends the pass. -/
def count? (s : Solution) (t : Tally) (l : Literal) : Option Tally :=
  if l ∈ s then none
  else if -l ∈ s then some { t with distinct := t.distinct + 1, falsified := t.falsified + 1 }
  else some { t with distinct := t.distinct + 1, lastOpen := some l }

/-- What the counts say about a clause without a literal in the solution. -/
def evaluation (t : Tally) : Evaluation :=
  match t.lastOpen with
  | none => .falsified
  | some l => if t.falsified + 1 = t.distinct then .unit l else .unknown

/-! ## What a pass has counted -/

/-- The counts of a list of literals. -/
def of (s : Solution) (ls : List Literal) : Tally where
  distinct := ls.length
  falsified := ls.countP (-· ∈ s)
  lastOpen := (ls.filter (-· ∉ s)).getLast?

variable {s : Solution}

/-- One more literal takes a pass from the counts of a list to those of the longer list. -/
theorem count?_of (done : List Literal) {l : Literal} (hl : l ∉ s) :
    count? s (of s done) l = some (of s (done ++ [l])) := by
  rw [count?, if_neg hl]
  by_cases hneg : -l ∈ s <;> simp [of, hneg]

/-- A pass ends at a literal of the solution, or else with the counts of all that it has read. -/
theorem foldlM_count? (done rest : List Literal) :
    rest.foldlM (count? s) (of s done) =
      if rest.any (· ∈ s) then none else some (of s (done ++ rest)) := by
  induction rest generalizing done with
  | nil => simp
  | cons l rest ih =>
    rw [List.foldlM_cons]
    by_cases hl : l ∈ s
    · simp [count?, hl]
    · rw [count?_of done hl]
      show rest.foldlM (count? s) (of s (done ++ [l])) = _
      rw [ih, ← List.append_cons, List.any_cons, decide_eq_false hl, Bool.false_or]

/-- The literals of a list are those that the solution falsifies and the others. -/
theorem falsified_add_length_open (s : Solution) (ls : List Literal) :
    (of s ls).falsified + (ls.filter (-· ∉ s)).length = (of s ls).distinct := by
  have hsplit := ls.length_eq_countP_add_countP (-· ∈ s)
  simpa [of, List.countP_eq_length_filter] using hsplit.symm

/-- The counts tell apart whether no literal, one literal or more of them are not falsified. -/
theorem evaluation_of (s : Solution) (ls : List Literal) :
    (of s ls).evaluation =
      match ls.filter (-· ∉ s) with
      | [] => .falsified
      | [l] => .unit l
      | _ => .unknown := by
  have hcount := falsified_add_length_open s ls
  have hlast : (of s ls).lastOpen = (ls.filter (-· ∉ s)).getLast? := rfl
  rw [evaluation, hlast]
  match hopen : ls.filter (-· ∉ s) with
  | [] => rfl
  | [l] =>
    rw [hopen, List.length_singleton] at hcount
    simp [hcount]
  | l :: m :: rest =>
    -- With two open literals the counts differ by more than one.
    rw [hopen, List.length_cons, List.length_cons] at hcount
    have hne : (of s ls).falsified + 1 ≠ (of s ls).distinct := by omega
    rw [List.getLast?_eq_some_getLast (List.cons_ne_nil _ _)]
    simp [hne]

end Tally

namespace Clause

/-! ## Evaluation -/

/-- What a pass that counts says about the clause. -/
def evaluateScan (c : Clause) (s : Solution) : Evaluation :=
  (c.literals.eraseDups.foldlM (Tally.count? s) .start).elim .satisfied Tally.evaluation

/-- Whether exactly one of the distinct literals is not falsified. -/
def isUnitScan (c : Clause) (s : Solution) : Bool :=
  c.literals.eraseDups.countP (-· ∉ s) == 1

/-- It makes no difference whether repetitions are left out before or after. -/
theorem pending_eq_filter (c : Clause) (s : Solution) :
    c.pending s = c.literals.eraseDups.filter (-· ∉ s) :=
  eraseDups_filter _ c.literals

/-- Counting gives the evaluation of the clause. -/
theorem evaluateScan_eq (c : Clause) (s : Solution) : c.evaluateScan s = c.evaluate s := by
  have hpass := Tally.foldlM_count? (s := s) [] c.literals.eraseDups
  have hany : c.literals.eraseDups.any (· ∈ s) = c.literals.any (· ∈ s) := by
    rw [Bool.eq_iff_iff]
    simp
  rw [evaluateScan, evaluate, pending_eq_filter, ← hany]
  show ((c.literals.eraseDups.foldlM (Tally.count? s) (Tally.of s [])).elim _ _) = _
  rw [hpass]
  split
  · rfl
  · exact Tally.evaluation_of s c.literals.eraseDups

/-- Counting gives the unit test. -/
theorem isUnitScan_eq (c : Clause) (s : Solution) : c.isUnitScan s = c.isUnit s := by
  rw [isUnitScan, isUnit, pending_eq_filter, List.countP_eq_length_filter]

end Clause

end Clausal
