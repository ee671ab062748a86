/-
  Clausal.Dimacs.ClauseScanner

  A clause taken off the front of a line in one pass. Behind a first number more are taken as long
  as a gap and a number follow (`scanMore`); a gap behind which no number follows is not taken. The
  numbers taken have to be those of literals and a last zero, and nothing but gaps may be left.

  `clause?` of the reader cuts a line into words first and cannot leave anything. Both find the same
  clauses, so it makes no difference whether a bad line is noticed at its bad word or at its end.
-/
import Clausal.Dimacs.Reader

namespace Clausal.Dimacs

open Text

/-! ## Numbers -/

/-- The number behind a nonempty run of gaps, and the text behind it. -/
def scanNext? (cs : List Char) : Option (Int32 × List Char) := do
  Numeral.scan (← skipGaps? cs)

theorem length_lt_of_skipGaps? {cs rest : List Char} (h : skipGaps? cs = some rest) :
    rest.length < cs.length := by
  cases cs with
  | nil => cases h
  | cons c cs =>
    simp only [skipGaps?, Option.ite_none_right_eq_some, Option.some.injEq] at h
    obtain ⟨-, rfl⟩ := h
    exact Nat.lt_succ_of_le (List.dropWhile_suffix isGap).length_le

theorem length_le_of_scan {cs rest : List Char} {n : Int32}
    (h : Numeral.scan cs = some (n, rest)) : rest.length ≤ cs.length := by
  have hsigned : ∀ {negative : Bool} {digits : List Char},
      Numeral.scanSigned negative digits = some (n, rest) → rest.length ≤ digits.length := by
    intro negative digits h
    simp only [Numeral.scanSigned, Option.ite_none_right_eq_some, Option.some.injEq,
      Prod.mk.injEq] at h
    obtain ⟨-, -, rfl⟩ := h
    exact (List.dropWhile_suffix Char.isDigit).length_le
  unfold Numeral.scan at h
  split at h
  · exact Nat.le_succ_of_le (hsigned h)
  · exact hsigned h

/-- Every number taken makes the text shorter, by the gap in front of it. -/
theorem length_lt_of_scanNext? {cs rest : List Char} {n : Int32}
    (h : scanNext? cs = some (n, rest)) : rest.length < cs.length := by
  obtain ⟨behind, hskip, hscan⟩ := Option.bind_eq_some_iff.1 h
  exact Nat.lt_of_le_of_lt (length_le_of_scan hscan) (length_lt_of_skipGaps? hskip)

/-- The numbers that follow one another behind gaps, and the text behind the last one. -/
def scanMore (cs : List Char) : List Int32 × List Char :=
  match h : scanNext? cs with
  | some (n, rest) =>
    have : rest.length < cs.length := length_lt_of_scanNext? h
    let (ns, left) := scanMore rest
    (n :: ns, left)
  | none => ([], cs)
termination_by cs.length

/-- The numbers with gaps between them that start a text, at least one, and the text behind the last
one. -/
def scanNumbers? (cs : List Char) : Option (List Int32 × List Char) := do
  let (n, rest) ← Numeral.scan cs
  let (ns, left) := scanMore rest
  return (n :: ns, left)

/-! ## Clauses -/

/-- The clause that numbers say: those of its literals and, as the last one, zero. -/
def clauseOfNumbers? (numbers : List Int32) : Option Clause :=
  if numbers.getLast? = some 0 then
    Assignment.mk <$> numbers.dropLast.mapM Literal.ofRaw?
  else none

/-- The clause on a line, taken off its front. -/
def scanClause? (line : List Char) : Option Clause := do
  let (numbers, left) ← scanNumbers? (line.dropWhile isGap)
  let c ← clauseOfNumbers? numbers
  if left.dropWhile isGap = [] then some c else none

end Clausal.Dimacs
