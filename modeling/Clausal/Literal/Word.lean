/-
  Clausal.Literal.Word

  The arithmetic of literals on bare words, of which nothing is known but that they have 32 bits.
  The checks of the range are made only where a word comes from outside (`index?`, `literal?`).
  Building a literal from an index, negation and the way back to the index compute with what they
  are given: the index is read as a signed word, and a negation whose result does not fit a word is
  an error.

  `Variable` and `Literal` carry the ranges in their types, so their operations have no errors. On
  the words of literals and the indices of variables the two arithmetics are the same
  (`negate_raw`, `toNat_magnitude_raw`, `ofIndex_eq`), and so are their checks (`literal_eq`,
  `index_eq`).
-/
import Clausal.Literal

namespace Clausal

/-- What stops an operation on words. -/
inductive WordError where
  /-- The check of a range does not let the word pass. -/
  | refused (e : RangeError)
  /-- The result does not fit a word. -/
  | overflow
deriving DecidableEq

namespace Word

/-! ## Words from outside -/

/-- The word as the index of a variable, unless it is zero or too large for a literal. -/
def index? (word : UInt32) : Option UInt32 :=
  if Int32.maxValue.toUInt32 < word then none
  else if word = 0 then none
  else some word

/-- The word as the index of a variable, or the reason why it is none. -/
def index (word : UInt32) : Except WordError UInt32 :=
  match index? word with
  | some index => .ok index
  | none => .error (.refused .variable)

/-- The word as a literal, unless it is zero or the most negative one. -/
def literal? (word : Int32) : Option Int32 :=
  if word = Int32.minValue then none
  else if word = 0 then none
  else some word

/-- The word as a literal, or the reason why it is none. -/
def literal (word : Int32) : Except WordError Int32 :=
  match literal? word with
  | some raw => .ok raw
  | none => .error (.refused .literal)

/-! ## Arithmetic -/

/-- The word with the opposite value, if there is one. -/
def negate (raw : Int32) : Except WordError Int32 :=
  if (-raw).toInt = -raw.toInt then .ok (-raw) else .error .overflow

/-- The word without its sign. -/
def magnitude (raw : Int32) : UInt32 :=
  raw.abs.toUInt32

/-- Whether the value of the word is above zero. -/
def isPositive (raw : Int32) : Bool :=
  0 < raw

/-- Whether two words differ in their signs at most. -/
def sameMagnitude (raw raw' : Int32) : Bool :=
  magnitude raw == magnitude raw'

/-- The literal over an index with a sign. The index is read as a signed word, which is checked
again behind the sign. -/
def ofIndex (index : UInt32) (positive : Bool) : Except WordError Int32 := do
  let word ← if positive then .ok index.toInt32 else negate index.toInt32
  literal word

/-! ## Agreement with variables and literals

The checks first, then what is computed with words that have passed one. -/

theorem index?_eq_some_iff {word index : UInt32} :
    index? word = some index ↔ word = index ∧ ∃ v : Variable, v.index = index.toNat := by
  have hmax : Int32.maxValue.toUInt32 < word ↔ Variable.maxIndex < word.toNat :=
    UInt32.lt_iff_toNat_lt
  have hzero : word = 0 ↔ word.toNat = 0 := UInt32.toNat_inj.symm
  simp only [index?, hmax, hzero, Variable.exists_index_iff]
  constructor
  · intro h
    split at h
    · cases h
    · split at h
      · cases h
      · obtain rfl := Option.some.inj h
        exact ⟨rfl, by omega, by omega⟩
  · rintro ⟨rfl, hpos, hle⟩
    rw [if_neg (by omega), if_neg (by omega)]

theorem index_eq_ok_iff {word index : UInt32} :
    Word.index word = .ok index ↔ word = index ∧ ∃ v : Variable, v.index = index.toNat := by
  rw [← index?_eq_some_iff, Word.index]
  cases index? word <;> simp

/-- The check of an index passes the numbers of variables. -/
theorem index?_eq (word : UInt32) :
    (index? word).map UInt32.toNat = (Variable.ofIndex? word.toNat).map Variable.index := by
  apply Option.ext
  intro i
  simp only [Option.map_eq_some_iff, index?_eq_some_iff, Variable.ofIndex?_eq_some_iff]
  constructor
  · rintro ⟨index, ⟨rfl, v, hv⟩, rfl⟩
    exact ⟨v, hv, hv⟩
  · rintro ⟨v, hv, rfl⟩
    exact ⟨word, ⟨rfl, v, hv⟩, hv.symm⟩

theorem index_eq (word : UInt32) :
    (Word.index word).map UInt32.toNat =
      ((Variable.ofIndex word.toNat).map Variable.index).mapError .refused := by
  calc (Word.index word).map UInt32.toNat
      = ((index? word).map UInt32.toNat).elim (.error (.refused .variable)) .ok := by
        rw [Word.index]
        cases index? word <;> rfl
    _ = ((Variable.ofIndex? word.toNat).map Variable.index).elim
          (.error (.refused .variable)) .ok := by
        rw [index?_eq]
    _ = ((Variable.ofIndex word.toNat).map Variable.index).mapError .refused := by
        rw [Variable.ofIndex]
        cases Variable.ofIndex? word.toNat <;> rfl

theorem literal?_eq_some_iff {word raw : Int32} :
    literal? word = some raw ↔ word = raw ∧ ∃ l : Literal, l.raw = raw := by
  rw [literal?, Literal.exists_raw_iff]
  constructor
  · intro h
    split at h
    · cases h
    · next hmin =>
      split at h
      · cases h
      · next hzero =>
        obtain rfl := Option.some.inj h
        exact ⟨rfl, hzero, hmin⟩
  · rintro ⟨rfl, hzero, hmin⟩
    rw [if_neg hmin, if_neg hzero]

theorem literal_eq_ok_iff {word raw : Int32} :
    literal word = .ok raw ↔ word = raw ∧ ∃ l : Literal, l.raw = raw := by
  rw [← literal?_eq_some_iff, literal]
  cases literal? word <;> simp

/-- The check of a word passes the words of literals. -/
theorem literal?_eq (word : Int32) : literal? word = (Literal.ofRaw? word).map Literal.raw := by
  apply Option.ext
  intro raw
  simp only [Option.map_eq_some_iff, literal?_eq_some_iff, Literal.ofRaw?_eq_some_iff]
  constructor
  · rintro ⟨rfl, l, hl⟩
    exact ⟨l, hl, hl⟩
  · rintro ⟨l, rfl, rfl⟩
    exact ⟨rfl, l, rfl⟩

theorem literal_eq (word : Int32) :
    literal word = ((Literal.ofRaw word).map Literal.raw).mapError .refused := by
  rw [literal, Literal.ofRaw, literal?_eq]
  cases Literal.ofRaw? word <;> rfl

/-- No negation of a literal overflows. -/
theorem negate_raw (l : Literal) : negate l.raw = .ok (-l).raw := by
  have hfits : (-l.raw).toInt = -l.raw.toInt := l.toInt_neg_raw
  rw [negate, if_pos hfits]
  rfl

/-- The magnitude is exact for every word, since that of the most negative one fits an unsigned
word. -/
theorem toNat_magnitude (raw : Int32) : (magnitude raw).toNat = raw.toInt.natAbs := by
  show raw.toBitVec.abs.toNat = raw.toBitVec.toInt.natAbs
  have hlt := raw.toBitVec.isLt
  rw [BitVec.toNat_abs, BitVec.toInt_eq_msb_cond]
  split <;> omega

theorem toNat_magnitude_raw (l : Literal) : (magnitude l.raw).toNat = l.var.index :=
  toNat_magnitude l.raw

theorem sameMagnitude_raw (l m : Literal) : sameMagnitude l.raw m.raw = l.sameVar m := by
  rw [Bool.eq_iff_iff, sameMagnitude, beq_iff_eq, Literal.sameVar, beq_iff_eq, ← UInt32.toNat_inj,
    toNat_magnitude_raw, toNat_magnitude_raw]
  exact ⟨Variable.ext_index, congrArg Variable.index⟩

/-- An index and a sign make the literal over the variable with the index. -/
theorem ofIndex_eq {v : Variable} {index : UInt32} (h : index.toNat = v.index) (positive : Bool) :
    ofIndex index positive = .ok (Literal.ofVar v positive).raw := by
  have hword : index.toInt32 = (Literal.ofVar v true).raw := by
    show index.toInt32 = Int32.ofNat v.index
    rw [← h, ← UInt32.toInt32_ofNat', UInt32.ofNat_toNat]
  have hneg : (-Literal.ofVar v true).raw = (Literal.ofVar v false).raw := rfl
  have hliteral : ∀ l : Literal, literal l.raw = .ok l.raw := fun l =>
    literal_eq_ok_iff.2 ⟨rfl, l, rfl⟩
  cases positive
  · rw [ofIndex, hword, negate_raw, hneg]
    exact hliteral _
  · rw [ofIndex, hword]
    exact hliteral _

end Word

end Clausal
