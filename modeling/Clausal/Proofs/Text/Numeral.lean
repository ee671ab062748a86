/-
  Clausal.Proofs.Text.Numeral

  Which texts are numerals of 32-bit integers: digits, with a minus in front for the negative ones,
  whose value is in range. `Denotes` says so without reading anything; reading a numeral off the
  front of a text finds exactly the numerals that no digit follows (`scan_eq_some_iff`), and reading
  a whole word exactly the numerals (`read?_eq_some_iff`).
-/
import Clausal.Text.Numeral
import Mathlib.Algebra.Group.Nat.Defs
import Mathlib.Data.List.TakeWhile

namespace Clausal.Numeral

/-- The text is a numeral of the integer: digits, behind a minus or not. -/
inductive Denotes : List Char → Int32 → Prop where
  /-- Digits stand for their value. -/
  | plain {digits : List Char} {n : Int32} : digits ≠ [] → (∀ c ∈ digits, c.isDigit = true) →
      n.toInt = value digits → Denotes digits n
  /-- Digits behind a minus stand for the negation of their value. -/
  | minus {digits : List Char} {n : Int32} : digits ≠ [] → (∀ c ∈ digits, c.isDigit = true) →
      n.toInt = -(value digits : Int) → Denotes ('-' :: digits) n

/-- A digit is neither a gap nor any other blank. -/
theorem isGap_eq_false_of_isDigit {c : Char} (h : c.isDigit = true) : Text.isGap c = false := by
  by_contra hgap
  have hblank := Text.isBlank_of_isGap (by simpa using hgap)
  rw [Text.isBlank_eq_false_of_isDigit h] at hblank
  cases hblank

theorem Denotes.ne_nil {cs : List Char} {n : Int32} (h : Denotes cs n) : cs ≠ [] := by
  cases h with
  | plain hne _ _ => exact hne
  | minus _ _ _ => simp

/-- A numeral holds no gap. -/
theorem Denotes.isGap_eq_false {cs : List Char} {n : Int32} (h : Denotes cs n) :
    ∀ c ∈ cs, Text.isGap c = false := by
  intro c hc
  cases h with
  | plain _ hdigits _ => exact isGap_eq_false_of_isDigit (hdigits c hc)
  | minus _ hdigits _ =>
    rcases List.mem_cons.1 hc with rfl | hc
    · decide
    · exact isGap_eq_false_of_isDigit (hdigits c hc)

/-- There is no gap to drop in front of a numeral. -/
theorem Denotes.dropWhile_isGap_append {cs : List Char} {n : Int32} (h : Denotes cs n)
    (rest : List Char) : (cs ++ rest).dropWhile Text.isGap = cs ++ rest := by
  obtain ⟨c, cs, rfl⟩ := List.exists_cons_of_ne_nil h.ne_nil
  have hc : Text.isGap c = false := h.isGap_eq_false c List.mem_cons_self
  rw [List.cons_append, List.dropWhile_cons_of_neg (by simp [hc])]

/-- Digits run up to the first character that is none. -/
theorem takeWhile_digits_append {digits rest : List Char} (hdigits : ∀ c ∈ digits, c.isDigit = true)
    (hrest : NoDigitFirst rest) : (digits ++ rest).takeWhile Char.isDigit = digits ∧
      (digits ++ rest).dropWhile Char.isDigit = rest := by
  rw [List.takeWhile_append_of_pos hdigits, List.dropWhile_append_of_pos hdigits]
  cases rest with
  | nil => simp
  | cons c rest =>
    have hc : c.isDigit = false := hrest c rfl
    simp [hc]

/-- The digits that start a text are read as one number, if it is in range with its sign. -/
theorem scanSigned_eq_some_iff {negative : Bool} {cs rest : List Char} {n : Int32} :
    scanSigned negative cs = some (n, rest) ↔
      ∃ digits, cs = digits ++ rest ∧ digits ≠ [] ∧ (∀ c ∈ digits, c.isDigit = true) ∧
        NoDigitFirst rest ∧ n.toInt = if negative then -(value digits : Int) else value digits := by
  refine ⟨?_, ?_⟩
  · intro h
    unfold scanSigned at h
    simp only [Option.ite_none_right_eq_some, Option.some.injEq, Prod.mk.injEq] at h
    obtain ⟨⟨hne, hlow, hhigh⟩, rfl, rfl⟩ := h
    refine ⟨_, List.takeWhile_append_dropWhile.symm, hne, fun c => List.mem_takeWhile_imp, ?_, ?_⟩
    · intro c hc
      have hhead := List.head?_dropWhile_not Char.isDigit cs
      rw [Option.mem_def.1 hc] at hhead
      exact hhead
    · -- The bounds that were checked are those of the word, so nothing wraps around.
      rw [Int32.toInt_minValue] at hlow
      rw [Int32.toInt_maxValue] at hhigh
      rw [Int32.toInt_ofInt_of_le (by omega) (by omega)]
  · intro h
    obtain ⟨digits, rfl, hne, hdigits, hrest, hn⟩ := h
    -- The range check holds because the value is that of a word.
    obtain ⟨htake, hdrop⟩ := takeWhile_digits_append hdigits hrest
    unfold scanSigned
    simp only [htake, hdrop, ← hn]
    rw [if_pos ⟨hne, n.minValue_le_toInt, n.toInt_le⟩, Int32.ofInt_toInt]

/-- Reading off the front finds the numerals that no digit follows. -/
theorem scan_eq_some_iff {cs rest : List Char} {n : Int32} :
    scan cs = some (n, rest) ↔
      ∃ numeral, cs = numeral ++ rest ∧ Denotes numeral n ∧ NoDigitFirst rest := by
  refine ⟨?_, ?_⟩
  · intro h
    unfold scan at h
    split at h
    · -- The minus is taken off before the digits are scanned.
      obtain ⟨digits, rfl, hne, hdigits, hrest, hn⟩ := scanSigned_eq_some_iff.1 h
      exact ⟨'-' :: digits, rfl, .minus hne hdigits (by simpa using hn), hrest⟩
    · obtain ⟨digits, rfl, hne, hdigits, hrest, hn⟩ := scanSigned_eq_some_iff.1 h
      exact ⟨digits, rfl, .plain hne hdigits (by simpa using hn), hrest⟩
  · intro h
    obtain ⟨numeral, rfl, hnumeral, hrest⟩ := h
    cases hnumeral with
    | minus hne hdigits hn =>
      rw [List.cons_append, scan, scanSigned_eq_some_iff]
      exact ⟨_, rfl, hne, hdigits, hrest, by simpa using hn⟩
    | plain hne hdigits hn =>
      have hscan : scan (numeral ++ rest) = scanSigned false (numeral ++ rest) := by
        unfold scan
        split
        · next heq =>
          -- The first character would be both a digit and a minus.
          obtain ⟨d, ds, rfl⟩ := List.exists_cons_of_ne_nil hne
          obtain ⟨rfl, -⟩ := List.cons.inj heq
          exact absurd (hdigits _ List.mem_cons_self) (by decide)
        · rfl
      rw [hscan, scanSigned_eq_some_iff]
      exact ⟨numeral, rfl, hne, hdigits, hrest, by simpa using hn⟩

/-- The words that are read as a number are its numerals. -/
theorem read?_eq_some_iff {cs : List Char} {n : Int32} : read? cs = some n ↔ Denotes cs n := by
  have hread : read? cs = some n ↔ scan cs = some (n, []) := by
    unfold read?
    split
    · next m h => simp [h]
    · next h =>
      simp only [false_iff, reduceCtorEq]
      intro heq
      exact h n heq
  rw [hread, scan_eq_some_iff]
  refine ⟨?_, ?_⟩
  · intro h
    obtain ⟨numeral, rfl, h, -⟩ := h
    rwa [List.append_nil]
  · intro h
    exact ⟨cs, (List.append_nil cs).symm, h, by simp [NoDigitFirst]⟩

theorem mem_ofInt {n : Int} {c : Char} (h : c ∈ ofInt n) : c = '-' ∨ c.isDigit = true := by
  unfold ofInt at h
  split at h
  · rcases List.mem_cons.1 h with hc | h
    · exact .inl hc
    · exact .inr (isDigit_of_mem_ofNat h)
  · exact .inr (isDigit_of_mem_ofNat h)

/-- The numeral of a natural number denotes that number only. -/
theorem denotes_ofNat_iff {n : Nat} {k : Int32} : Denotes (ofNat n) k ↔ k.toInt = n := by
  refine ⟨?_, ?_⟩
  · intro h
    generalize hcs : ofNat n = cs at h
    cases h with
    | plain _ _ hk => rw [hk, ← hcs, value_ofNat]
    | minus _ _ _ =>
      -- A numeral of a natural number has no sign.
      have hminus : '-' ∈ ofNat n := hcs ▸ List.mem_cons_self
      exact absurd (isDigit_of_mem_ofNat hminus) (by decide)
  · intro h
    exact .plain (ofNat_ne_nil n) (fun _ => isDigit_of_mem_ofNat) (by rw [h, value_ofNat])

/-- Reading the numeral of a natural number off the front leaves nothing. -/
theorem scan_ofNat_eq_some_iff {n : Nat} {k : Int32} {rest : List Char} :
    scan (ofNat n) = some (k, rest) ↔ k.toInt = n ∧ rest = [] := by
  rw [scan_eq_some_iff]
  refine ⟨?_, ?_⟩
  · rintro ⟨numeral, heq, hnumeral, hrest⟩
    cases rest with
    | nil =>
      rw [List.append_nil] at heq
      exact ⟨denotes_ofNat_iff.1 (heq ▸ hnumeral), rfl⟩
    | cons c rest =>
      -- All characters are digits, also the one behind what is read.
      have hc : c ∈ ofNat n := heq ▸ List.mem_append_right numeral List.mem_cons_self
      have hdigit := hrest c rfl
      rw [isDigit_of_mem_ofNat hc] at hdigit
      cases hdigit
  · rintro ⟨hk, rfl⟩
    exact ⟨ofNat n, (List.append_nil _).symm, denotes_ofNat_iff.2 hk, by simp [NoDigitFirst]⟩

/-- The natural numbers among the 32-bit integers. -/
theorem exists_toInt_eq_iff {n : Nat} : (∃ k : Int32, k.toInt = n) ↔ n < 2 ^ 31 := by
  refine ⟨?_, ?_⟩
  · rintro ⟨k, hk⟩
    have hlt : k.toInt < 2147483648 := k.toInt_lt
    omega
  · intro h
    exact ⟨Int32.ofInt n, Int32.toInt_ofInt_of_le (by omega) (by omega)⟩

/-- A written number is a numeral. -/
theorem denotes_ofInt (n : Int32) : Denotes (ofInt n.toInt) n :=
  read?_eq_some_iff.1 (read?_ofInt n)

end Clausal.Numeral
