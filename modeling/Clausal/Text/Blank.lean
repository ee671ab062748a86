/-
  Clausal.Text.Blank

  The two classes of blank characters that line-based formats of this library distinguish.
  `isBlank` is the Unicode property White_Space: it decides what is trimmed from the ends of a
  line. `isGap` is the smaller set of space, tab, carriage return and line feed: it decides what
  separates the words inside a line. Every gap is a blank (`isBlank_of_isGap`), so a trimmed line
  neither starts nor ends with a gap.
-/

namespace Clausal.Text

/-- The code points with the Unicode property White_Space, as closed ranges in ascending order. -/
def blankRanges : List (Nat × Nat) :=
  [(0x09, 0x0D), (0x20, 0x20), (0x85, 0x85), (0xA0, 0xA0), (0x1680, 0x1680), (0x2000, 0x200A),
    (0x2028, 0x2029), (0x202F, 0x202F), (0x205F, 0x205F), (0x3000, 0x3000)]

/-- Whether a character has the Unicode property White_Space. -/
def isBlank (c : Char) : Bool :=
  blankRanges.any fun (low, high) => low ≤ c.toNat && c.toNat ≤ high

/-- Whether a character separates words inside a line: space, tab, carriage return, line feed. -/
def isGap (c : Char) : Bool :=
  c == ' ' || c == '\t' || c == '\r' || c == '\n'

theorem isGap_iff {c : Char} : isGap c = true ↔ c = ' ' ∨ c = '\t' ∨ c = '\r' ∨ c = '\n' := by
  simp [isGap, or_assoc]

/-- Every gap character is blank. -/
theorem isBlank_of_isGap {c : Char} (h : isGap c = true) : isBlank c = true := by
  rcases isGap_iff.1 h with rfl | rfl | rfl | rfl <;> decide

/-- Digits are not blank. -/
theorem isBlank_eq_false_of_isDigit {c : Char} (h : c.isDigit = true) : isBlank c = false := by
  have h' : 48 ≤ c.toNat ∧ c.toNat ≤ 57 := by
    simpa [Char.isDigit, UInt32.le_iff_toNat_le] using h
  simp [isBlank, blankRanges]
  omega

end Clausal.Text
