/-
  Clausal.Text.Numeral

  Decimal numerals of integers. `Numeral.ofInt` writes one: an optional minus and digits without
  leading zeros. `Numeral.scan` reads one off the front of a text: an optional minus and a longest
  nonempty run of ASCII digits, leading zeros allowed, whose value is a signed 32-bit integer.
  Reading undoes writing whatever follows, as long as no digit follows (`scan_ofInt_append`).
-/
import Clausal.Text.Blank

namespace Clausal.Numeral

/-! ## Writing -/

/-- The decimal digits of a natural number, without leading zeros. -/
def ofNat (n : Nat) : List Char :=
  Nat.toDigits 10 n

/-- The decimal numeral of an integer. -/
def ofInt (n : Int) : List Char :=
  if n < 0 then '-' :: ofNat n.natAbs else ofNat n.natAbs

theorem ofNat_ne_nil (n : Nat) : ofNat n ≠ [] :=
  Nat.toDigits_ne_nil

theorem isDigit_of_mem_ofNat {n : Nat} {c : Char} (h : c ∈ ofNat n) : c.isDigit = true :=
  Nat.isDigit_of_mem_toDigits (by decide) (by decide) h

/-- A numeral holds no blank character. -/
theorem isBlank_of_mem_ofInt {n : Int} {c : Char} (h : c ∈ ofInt n) : Text.isBlank c = false := by
  have hdigit : ∀ {c : Char}, c ∈ ofNat n.natAbs → Text.isBlank c = false := fun hc =>
    Text.isBlank_eq_false_of_isDigit (isDigit_of_mem_ofNat hc)
  unfold ofInt at h
  split at h
  · rcases List.mem_cons.1 h with rfl | h
    · decide
    · exact hdigit h
  · exact hdigit h

/-! ## Reading -/

/-- The natural number that a run of digits denotes. -/
def value (digits : List Char) : Nat :=
  Nat.ofDigitChars 10 digits 0

@[simp] theorem value_ofNat (n : Nat) : value (ofNat n) = n :=
  Nat.ofDigitChars_ten_toDigits

/-- The integer with a given sign whose magnitude is written in front of `cs`, and the rest. -/
def scanSigned (negative : Bool) (cs : List Char) : Option (Int32 × List Char) :=
  let digits := cs.takeWhile Char.isDigit
  let n : Int := if negative then -(value digits : Int) else value digits
  if digits ≠ [] ∧ Int32.minValue.toInt ≤ n ∧ n ≤ Int32.maxValue.toInt then
    some (Int32.ofInt n, cs.dropWhile Char.isDigit)
  else none

/-- The 32-bit integer whose numeral starts `cs`, and the text behind the numeral. -/
def scan : List Char → Option (Int32 × List Char)
  | '-' :: cs => scanSigned true cs
  | cs => scanSigned false cs

/-- The 32-bit integer whose numeral is all of `cs`. -/
def read? (cs : List Char) : Option Int32 :=
  match scan cs with
  | some (n, []) => some n
  | _ => none

/-! ## Reading undoes writing -/

/-- A text that does not start with a digit. -/
def NoDigitFirst (cs : List Char) : Prop :=
  ∀ c ∈ cs.head?, c.isDigit = false

theorem takeWhile_ofNat_append {n : Nat} {rest : List Char} (h : NoDigitFirst rest) :
    (ofNat n ++ rest).takeWhile Char.isDigit = ofNat n := by
  rw [List.takeWhile_append_of_pos fun c hc => isDigit_of_mem_ofNat hc]
  cases rest with
  | nil => simp
  | cons c rest => simp [h c rfl]

theorem dropWhile_ofNat_append {n : Nat} {rest : List Char} (h : NoDigitFirst rest) :
    (ofNat n ++ rest).dropWhile Char.isDigit = rest := by
  rw [List.dropWhile_append_of_pos fun c hc => isDigit_of_mem_ofNat hc]
  cases rest with
  | nil => simp
  | cons c rest => simp [h c rfl]

/-- Digits with a sign in front give the number that they denote. -/
theorem scanSigned_ofNat_append {negative : Bool} {n : Nat} {m : Int32} {rest : List Char}
    (hm : m.toInt = if negative then -(n : Int) else n) (h : NoDigitFirst rest) :
    scanSigned negative (ofNat n ++ rest) = some (m, rest) := by
  unfold scanSigned
  simp only [takeWhile_ofNat_append h, dropWhile_ofNat_append h, value_ofNat]
  rw [← hm, if_pos ⟨ofNat_ne_nil n, m.minValue_le_toInt, m.toInt_le⟩, Int32.ofInt_toInt]

/-- A text that starts with a digit is read without a sign. -/
theorem scan_ofNat_append (n : Nat) (rest : List Char) :
    scan (ofNat n ++ rest) = scanSigned false (ofNat n ++ rest) := by
  cases hd : ofNat n with
  | nil => exact absurd hd (ofNat_ne_nil n)
  | cons c cs =>
    have hc : c.isDigit = true := isDigit_of_mem_ofNat (hd ▸ List.mem_cons_self)
    unfold scan
    split
    · next heq =>
      obtain ⟨rfl, -⟩ := List.cons.inj heq
      exact absurd hc (by decide)
    · rfl

/-- Reading a written number gives the number back, with everything behind it. -/
theorem scan_ofInt_append (n : Int32) {rest : List Char} (h : NoDigitFirst rest) :
    scan (ofInt n.toInt ++ rest) = some (n, rest) := by
  unfold ofInt
  split
  · next hneg =>
    rw [List.cons_append, scan]
    exact scanSigned_ofNat_append (by rw [if_pos rfl]; omega) h
  · next hneg =>
    rw [scan_ofNat_append]
    exact scanSigned_ofNat_append (by rw [if_neg Bool.false_ne_true]; omega) h

@[simp] theorem read?_ofInt (n : Int32) : read? (ofInt n.toInt) = some n := by
  have h : scan (ofInt n.toInt ++ []) = some (n, []) :=
    scan_ofInt_append n (by simp [NoDigitFirst])
  rw [List.append_nil] at h
  simp [read?, h]

end Clausal.Numeral
