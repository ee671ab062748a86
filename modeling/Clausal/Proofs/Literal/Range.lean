/-
  Clausal.Proofs.Literal.Range

  Which words a sequence of operations can end with. Only words from outside are checked, and the
  others need no check: whatever is obtained is the word of a literal or the index of a variable
  (`Number.Obtained.sound`, with one case for each operation). So no negation overflows, no literal
  that is built over an index is refused, and the index of a literal would pass the check that it is
  never put to.
-/
import Clausal.Literal.Word

namespace Clausal

/-! ## Sequences of operations -/

/-- What operations on words end with. -/
inductive Number where
  /-- The index of a variable. -/
  | var (index : UInt32)
  /-- The word of a literal. -/
  | lit (raw : Int32)

namespace Number

/-- The number is the result of the last one of a sequence of operations, each on words from outside
or on the result of the one before. -/
inductive Obtained : Number → Prop where
  | index? {word index : UInt32} : Word.index? word = some index → Obtained (.var index)
  | index {word index : UInt32} : Word.index word = .ok index → Obtained (.var index)
  | literal? {word raw : Int32} : Word.literal? word = some raw → Obtained (.lit raw)
  | literal {word raw : Int32} : Word.literal word = .ok raw → Obtained (.lit raw)
  | ofIndex {index : UInt32} {positive : Bool} {raw : Int32} : Obtained (.var index) →
      Word.ofIndex index positive = .ok raw → Obtained (.lit raw)
  | negate {raw raw' : Int32} : Obtained (.lit raw) →
      Word.negate raw = .ok raw' → Obtained (.lit raw')
  | magnitude {raw : Int32} : Obtained (.lit raw) → Obtained (.var (Word.magnitude raw))

/-- The number is the index of a variable or the word of a literal. -/
def Sound : Number → Prop
  | .var index => ∃ v : Variable, v.index = index.toNat
  | .lit raw => ∃ l : Literal, l.raw = raw

/-- No operation leads out of the variables and literals. -/
theorem Obtained.sound {n : Number} (h : n.Obtained) : n.Sound := by
  induction h with
  | index? h => exact (Word.index?_eq_some_iff.1 h).2
  | index h => exact (Word.index_eq_ok_iff.1 h).2
  | literal? h => exact (Word.literal?_eq_some_iff.1 h).2
  | literal h => exact (Word.literal_eq_ok_iff.1 h).2
  | ofIndex _ h ih =>
    obtain ⟨v, hv⟩ := ih
    rw [Word.ofIndex_eq hv.symm] at h
    exact ⟨_, Except.ok.inj h⟩
  | negate _ h ih =>
    obtain ⟨l, rfl⟩ := ih
    rw [Word.negate_raw] at h
    exact ⟨_, Except.ok.inj h⟩
  | magnitude _ ih =>
    obtain ⟨l, rfl⟩ := ih
    exact ⟨l.var, (Word.toNat_magnitude_raw l).symm⟩

/-- What is obtained are all variables and literals, since each of them passes its check. -/
theorem obtained_iff {n : Number} : n.Obtained ↔ n.Sound := by
  constructor
  · exact Obtained.sound
  · intro h
    cases n with
    | var index => exact .index? (Word.index?_eq_some_iff.2 ⟨rfl, h⟩)
    | lit raw => exact .literal? (Word.literal?_eq_some_iff.2 ⟨rfl, h⟩)

end Number

namespace Literal

open Number Word

/-- The index and the sign of a literal make the literal. -/
theorem ofIndex_magnitude_raw (l : Literal) :
    ofIndex (magnitude l.raw) (Word.isPositive l.raw) = .ok l.raw := by
  rw [ofIndex_eq (toNat_magnitude_raw l)]
  exact congrArg (fun m : Literal => Except.ok m.raw) l.ofVar_var

/-- What a sequence of operations on words ends with is a word other than zero and the most negative
one, or an index between 1 and the largest signed word. On these no operation fails: the negation
fits a word, and an index with a sign makes a literal with that index and that sign. The operations
do on words what those on literals do, so an index and a sign determine a literal, negation undoes
itself and changes the sign alone, and two literals have one index exactly when they are equal or
each other's negation. Words from outside are let pass or refused as variables and literals are. -/
theorem arithmetic_in_range :
    (∀ raw, Obtained (.lit raw) ↔ raw ≠ 0 ∧ raw ≠ Int32.minValue) ∧
    (∀ index, Obtained (.var index) ↔ 1 ≤ index.toNat ∧ index.toNat ≤ Variable.maxIndex) ∧
    (∀ raw, Obtained (.lit raw) →
      negate raw = .ok (-raw) ∧ (-raw).toInt = -raw.toInt ∧
      1 ≤ (magnitude raw).toNat ∧ (magnitude raw).toNat ≤ Variable.maxIndex ∧
      index? (magnitude raw) = some (magnitude raw) ∧
      ofIndex (magnitude raw) (Word.isPositive raw) = .ok raw) ∧
    (∀ index positive, Obtained (.var index) → ∃ raw, ofIndex index positive = .ok raw ∧
      magnitude raw = index ∧ Word.isPositive raw = positive) ∧
    (∀ l : Literal, negate l.raw = .ok (-l).raw ∧ (magnitude l.raw).toNat = l.var.index ∧
      Word.isPositive l.raw = l.isPositive ∧ ofVar l.var l.isPositive = l ∧
      - -l = l ∧ (-l).var = l.var ∧ (-l).isPositive = !l.isPositive) ∧
    (∀ (v : Variable) (positive : Bool),
      (∀ index : UInt32, index.toNat = v.index →
        ofIndex index positive = .ok (ofVar v positive).raw) ∧
      (ofVar v positive).var = v ∧ (ofVar v positive).isPositive = positive) ∧
    (∀ l m : Literal, sameMagnitude l.raw m.raw = l.sameVar m ∧
      (l.sameVar m = true ↔ l = m ∨ l = -m)) ∧
    (∀ word, literal? word = (ofRaw? word).map raw ∧
      Word.literal word = ((ofRaw word).map raw).mapError .refused) ∧
    ∀ word, (index? word).map UInt32.toNat = (Variable.ofIndex? word.toNat).map Variable.index ∧
      (Word.index word).map UInt32.toNat =
        ((Variable.ofIndex word.toNat).map Variable.index).mapError .refused := by
  refine ⟨fun raw => obtained_iff.trans exists_raw_iff,
    fun index => obtained_iff.trans Variable.exists_index_iff, ?_, ?_, ?_, ?_, ?_,
    fun word => ⟨literal?_eq word, literal_eq word⟩, fun word => ⟨index?_eq word, index_eq word⟩⟩
  · intro raw h
    have hvar := h.magnitude.sound
    obtain ⟨hpos, hle⟩ := Variable.exists_index_iff.1 hvar
    obtain ⟨l, rfl⟩ := h.sound
    exact ⟨negate_raw l, l.toInt_neg_raw, hpos, hle, index?_eq_some_iff.2 ⟨rfl, hvar⟩,
      l.ofIndex_magnitude_raw⟩
  · intro index positive h
    obtain ⟨v, hv⟩ := h.sound
    refine ⟨_, ofIndex_eq hv.symm positive, ?_, isPositive_ofVar v positive⟩
    rw [← UInt32.toNat_inj, toNat_magnitude_raw, var_ofVar, hv]
  · intro l
    exact ⟨negate_raw l, toNat_magnitude_raw l, rfl, l.ofVar_var, l.neg_neg, l.var_neg,
      l.isPositive_neg⟩
  · intro v positive
    exact ⟨fun index h => ofIndex_eq h positive, var_ofVar v positive, isPositive_ofVar v positive⟩
  · intro l m
    exact ⟨sameMagnitude_raw l m, sameVar_iff⟩

/-- The largest index, reached through the literal of the least word, and the two words next to the
range, where negation overflows and no check is passed. -/
theorem arithmetic_in_range_limits :
    Obtained (.lit (-2147483647)) ∧ negate (-2147483647) = .ok 2147483647 ∧
    magnitude (-2147483647) = 2147483647 ∧ Obtained (.var 2147483647) ∧
    index? 2147483647 = some 2147483647 ∧ ofIndex 2147483647 false = .ok (-2147483647) ∧
    (∃ raw, ofIndex 2147483647 true = .ok raw ∧ magnitude raw = 2147483647 ∧
      Word.isPositive raw = true) ∧
    ¬Obtained (.lit (-2147483648)) ∧ negate (-2147483648) = .error .overflow ∧
    ¬Obtained (.var 2147483648) ∧ ofIndex 2147483648 false = .error .overflow := by
  obtain ⟨hlit, hvar, hliteral, hindex, -⟩ := arithmetic_in_range
  have hleast : Obtained (.lit (-2147483647)) := (hlit _).2 (by decide)
  have hlargest : Obtained (.var 2147483647) := hleast.magnitude
  obtain ⟨hneg, -, -, -, hpasses, hback⟩ := hliteral _ hleast
  exact ⟨hleast, hneg, by decide, hlargest, hpasses, hback, hindex _ true hlargest,
    fun h => ((hlit _).1 h).2 (by decide), rfl, fun h => absurd ((hvar _).1 h).2 (by decide), rfl⟩

end Literal

end Clausal
