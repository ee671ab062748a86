/-
  Clausal.Literal

  Variables and literals as solvers number them. A variable is an index between 1 and 2^31 - 1; a
  literal is a signed 32-bit word whose magnitude is the index of its variable and whose sign is its
  polarity. The words 0 and -2^31 are no literals: the first has no sign, the second no negation.

  Every operation is pinned down by the integer a literal stands for (`Literal.toInt`), and a
  literal is the same as its variable together with its sign (`Literal.ofVar_var`,
  `Literal.var_ofVar`, `Literal.isPositive_ofVar`).
-/
import Clausal.Text.Numeral

namespace Clausal

/-! ## Variables -/

/-- The largest index of a variable, which is the largest signed 32-bit word. -/
def Variable.maxIndex : Nat := 2147483647

/-- A variable, identified by an index that starts at 1 and fits a literal. -/
structure Variable where
  /-- The number of the variable. -/
  index : Nat
  index_pos : 0 < index
  index_le : index ≤ Variable.maxIndex
deriving DecidableEq

/-- What is wrong with a number that was meant to name a variable or a literal. -/
inductive RangeError where
  /-- The number is not the index of a variable. -/
  | variable
  /-- The word is not a literal. -/
  | literal
deriving DecidableEq

/-- The text of a range error. -/
def RangeError.message : RangeError → String
  | .variable => "variable index must be in 1..=i32::MAX"
  | .literal => "literal must be nonzero and above i32::MIN"

namespace Variable

/-- The variable with a given index, if there is one. -/
def ofIndex? (index : Nat) : Option Variable :=
  if h : 0 < index ∧ index ≤ maxIndex then some ⟨index, h.1, h.2⟩ else none

/-- The variable with a given index, or the reason why there is none. -/
def ofIndex (index : Nat) : Except RangeError Variable :=
  match ofIndex? index with
  | some v => .ok v
  | none => .error .variable

/-- The index in decimal digits. -/
def digits (v : Variable) : List Char :=
  Numeral.ofNat v.index

instance : ToString Variable := ⟨fun v => String.ofList v.digits⟩

theorem ext_index {v w : Variable} (h : v.index = w.index) : v = w := by
  cases v; cases w; cases h; rfl

@[simp] theorem ofIndex?_index (v : Variable) : ofIndex? v.index = some v := by
  simp [ofIndex?, v.index_pos, v.index_le]

theorem ofIndex?_eq_some_iff {index : Nat} {v : Variable} :
    ofIndex? index = some v ↔ v.index = index := by
  constructor
  · unfold ofIndex?
    split
    · rintro ⟨rfl⟩; rfl
    · nofun
  · rintro rfl; simp

theorem ofIndex_eq_ok_iff {index : Nat} {v : Variable} :
    ofIndex index = .ok v ↔ v.index = index := by
  rw [← ofIndex?_eq_some_iff, ofIndex]
  cases ofIndex? index <;> simp

/-- The indices are the numbers in the range. -/
theorem exists_index_iff {index : Nat} :
    (∃ v : Variable, v.index = index) ↔ 0 < index ∧ index ≤ maxIndex := by
  constructor
  · rintro ⟨v, rfl⟩
    exact ⟨v.index_pos, v.index_le⟩
  · rintro ⟨hpos, hle⟩
    exact ⟨⟨index, hpos, hle⟩, rfl⟩

end Variable

/-! ## Literals -/

/-- A literal, represented by a word that is neither zero nor the most negative one. -/
structure Literal where
  /-- The signed number of the literal. -/
  raw : Int32
  raw_ne_zero : raw ≠ 0
  raw_ne_minValue : raw ≠ Int32.minValue
deriving DecidableEq

namespace Literal

/-- The literal with a given word, if the word is one. -/
def ofRaw? (raw : Int32) : Option Literal :=
  if h : raw ≠ 0 ∧ raw ≠ Int32.minValue then some ⟨raw, h.1, h.2⟩ else none

/-- The literal with a given word, or the reason why there is none. -/
def ofRaw (raw : Int32) : Except RangeError Literal :=
  match ofRaw? raw with
  | some l => .ok l
  | none => .error .literal

/-- The integer that a literal stands for. -/
def toInt (l : Literal) : Int :=
  l.raw.toInt

theorem ext_toInt {l m : Literal} (h : l.toInt = m.toInt) : l = m := by
  cases l; cases m
  cases Int32.toInt.inj h
  rfl

theorem toInt_ne_zero (l : Literal) : l.toInt ≠ 0 := fun h =>
  l.raw_ne_zero (Int32.toInt.inj (h.trans Int32.toInt_zero.symm))

theorem neg_maxIndex_le_toInt (l : Literal) : -(Variable.maxIndex : Int) ≤ l.toInt := by
  have hle : -2147483648 ≤ l.raw.toInt := l.raw.le_toInt
  have hne : l.raw.toInt ≠ -2147483648 := fun h => l.raw_ne_minValue (Int32.toInt.inj h)
  simp only [toInt, Variable.maxIndex]
  omega

theorem toInt_le_maxIndex (l : Literal) : l.toInt ≤ Variable.maxIndex := by
  have hlt : l.raw.toInt < 2147483648 := l.raw.toInt_lt
  simp only [toInt, Variable.maxIndex]
  omega

theorem ofRaw?_eq_some_iff {raw : Int32} {l : Literal} : ofRaw? raw = some l ↔ l.raw = raw := by
  constructor
  · unfold ofRaw?
    split
    · rintro ⟨rfl⟩; rfl
    · nofun
  · rintro rfl
    simp [ofRaw?, l.raw_ne_zero, l.raw_ne_minValue]

@[simp] theorem ofRaw?_raw (l : Literal) : ofRaw? l.raw = some l :=
  ofRaw?_eq_some_iff.2 rfl

/-- The words of literals are all but zero and the most negative one. -/
theorem exists_raw_iff {raw : Int32} :
    (∃ l : Literal, l.raw = raw) ↔ raw ≠ 0 ∧ raw ≠ Int32.minValue := by
  constructor
  · rintro ⟨l, rfl⟩
    exact ⟨l.raw_ne_zero, l.raw_ne_minValue⟩
  · rintro ⟨hzero, hmin⟩
    exact ⟨⟨raw, hzero, hmin⟩, rfl⟩

/-! ### Variable and sign -/

/-- The variable of a literal: its magnitude. -/
def var (l : Literal) : Variable where
  index := l.toInt.natAbs
  index_pos := Int.natAbs_pos.2 l.toInt_ne_zero
  index_le := by
    have := l.neg_maxIndex_le_toInt
    have := l.toInt_le_maxIndex
    omega

/-- Whether a literal is its variable itself and not the variable's negation. -/
def isPositive (l : Literal) : Bool :=
  0 < l.raw

theorem isPositive_iff {l : Literal} : l.isPositive = true ↔ 0 < l.toInt := by
  simp [isPositive, toInt, Int32.lt_iff_toInt_lt]

/-- The word of a variable with a sign. -/
def signedWord (v : Variable) (positive : Bool) : Int32 :=
  if positive then Int32.ofNat v.index else -Int32.ofNat v.index

theorem toInt_signedWord (v : Variable) (positive : Bool) :
    (signedWord v positive).toInt = if positive then (v.index : Int) else -(v.index : Int) := by
  have hpos := v.index_pos
  have hle : v.index ≤ 2147483647 := v.index_le
  have hword : (Int32.ofNat v.index).toInt = v.index := by
    rw [Int32.toInt_ofNat', Int.bmod_eq_of_le] <;> simp [Int32.size]
    omega
  cases positive
  · simp only [signedWord, Bool.false_eq_true, if_false, Int32.toInt_neg, hword]
    rw [Int.bmod_eq_of_le] <;> simp <;> omega
  · simp [signedWord, hword]

/-- The literal over a variable with a given sign. -/
def ofVar (v : Variable) (positive : Bool) : Literal where
  raw := signedWord v positive
  raw_ne_zero h := by
    have hword := toInt_signedWord v positive
    have hpos := v.index_pos
    rw [h, Int32.toInt_zero] at hword
    split at hword <;> omega
  raw_ne_minValue h := by
    have hword := toInt_signedWord v positive
    have hle : v.index ≤ 2147483647 := v.index_le
    rw [h, Int32.toInt_minValue] at hword
    split at hword <;> omega

@[simp] theorem toInt_ofVar (v : Variable) (positive : Bool) :
    (ofVar v positive).toInt = if positive then (v.index : Int) else -(v.index : Int) :=
  toInt_signedWord v positive

@[simp] theorem var_ofVar (v : Variable) (positive : Bool) : (ofVar v positive).var = v := by
  apply Variable.ext_index
  simp only [var, toInt_ofVar]
  split <;> omega

@[simp] theorem isPositive_ofVar (v : Variable) (positive : Bool) :
    (ofVar v positive).isPositive = positive := by
  have hpos := v.index_pos
  rw [Bool.eq_iff_iff, isPositive_iff, toInt_ofVar]
  cases positive <;> simp
  omega

theorem toInt_eq_signed_index (l : Literal) :
    l.toInt = if l.isPositive then (l.var.index : Int) else -(l.var.index : Int) := by
  have hne := l.toInt_ne_zero
  by_cases h : 0 < l.toInt
  · simp only [isPositive_iff.2 h, if_true, var]
    omega
  · have hneg : l.isPositive = false := by
      simpa using mt isPositive_iff.1 h
    simp only [hneg, Bool.false_eq_true, if_false, var]
    omega

/-- A literal is its variable with its sign. -/
@[simp] theorem ofVar_var (l : Literal) : ofVar l.var l.isPositive = l :=
  ext_toInt (by rw [toInt_ofVar, ← toInt_eq_signed_index])

theorem ext_var {l m : Literal} (hvar : l.var = m.var) (hsign : l.isPositive = m.isPositive) :
    l = m := by
  rw [← ofVar_var l, ← ofVar_var m, hvar, hsign]

/-! ### Negation -/

theorem toInt_neg_raw (l : Literal) : (-l.raw).toInt = -l.toInt := by
  have hlow : -2147483647 ≤ l.toInt := l.neg_maxIndex_le_toInt
  have hhigh : l.toInt ≤ 2147483647 := l.toInt_le_maxIndex
  simp only [toInt] at hlow hhigh ⊢
  rw [Int32.toInt_neg, Int.bmod_eq_of_le] <;> simp <;> omega

/-- The literal of the same variable with the other sign. -/
def neg (l : Literal) : Literal where
  raw := -l.raw
  raw_ne_zero h := by
    have hneg := l.toInt_neg_raw
    have hne := l.toInt_ne_zero
    rw [h, Int32.toInt_zero] at hneg
    omega
  raw_ne_minValue h := by
    have hneg := l.toInt_neg_raw
    have hle : l.toInt ≤ 2147483647 := l.toInt_le_maxIndex
    rw [h, Int32.toInt_minValue] at hneg
    omega

instance : Neg Literal := ⟨neg⟩

@[simp] theorem toInt_neg (l : Literal) : (-l).toInt = -l.toInt :=
  l.toInt_neg_raw

@[simp] theorem neg_neg (l : Literal) : - -l = l :=
  ext_toInt (by simp)

theorem neg_inj {l m : Literal} : -l = -m ↔ l = m :=
  ⟨fun h => by rw [← neg_neg l, h, neg_neg], fun h => h ▸ rfl⟩

theorem neg_ne_self (l : Literal) : -l ≠ l := fun h => by
  have hint := congrArg toInt h
  have hne := l.toInt_ne_zero
  rw [toInt_neg] at hint
  omega

@[simp] theorem var_neg (l : Literal) : (-l).var = l.var :=
  Variable.ext_index (by simp [var])

@[simp] theorem isPositive_neg (l : Literal) : (-l).isPositive = !l.isPositive := by
  have hne := l.toInt_ne_zero
  rw [Bool.eq_iff_iff, Bool.not_eq_true', ← Bool.not_eq_true, isPositive_iff, isPositive_iff,
    toInt_neg]
  omega

/-! ### Comparison and text -/

/-- Whether two literals are over one variable. -/
def sameVar (l m : Literal) : Bool :=
  l.var == m.var

/-- Two literals are over one variable exactly when they are equal or each other's negation. -/
theorem sameVar_iff {l m : Literal} : l.sameVar m = true ↔ l = m ∨ l = -m := by
  rw [sameVar, beq_iff_eq]
  constructor
  · intro h
    by_cases hsign : l.isPositive = m.isPositive
    · exact .inl (ext_var h hsign)
    · exact .inr (ext_var (by simpa using h) (by simpa using Bool.eq_not_of_ne hsign))
  · rintro (rfl | rfl) <;> simp

/-- Literals are ordered as the integers they stand for. -/
instance : Ord Literal := ⟨fun l m => compare l.toInt m.toInt⟩

/-- The literal as a signed decimal numeral. -/
def digits (l : Literal) : List Char :=
  Numeral.ofInt l.toInt

instance : ToString Literal := ⟨fun l => String.ofList l.digits⟩

end Literal

end Clausal
