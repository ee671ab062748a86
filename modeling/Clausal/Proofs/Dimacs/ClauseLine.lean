/-
  Clausal.Proofs.Dimacs.ClauseLine

  The lines that are clauses, character by character. `IsClauseLine` describes them without cutting
  or scanning anything: numerals with nonempty runs of gaps between them, the last one of zero, the
  others of numbers that are neither zero nor the most negative word, and gaps or nothing at the two
  ends.

  A line can be read in two ways. Cutting it into words gives the numerals because a numeral holds
  no gap (`forall₂_denotes_words_iff`). Scanning it from the front takes one numeral after the other
  as long as it can; since what it leaves has to be gaps, stopping early never hides a bad word
  (`scanMore_append`). Both ways find the clauses of exactly these lines.
-/
import Clausal.Proofs.Dimacs.Format
import Mathlib.Algebra.Group.Int.Defs

namespace Clausal.Dimacs

open Text Numeral

/-! ## Descriptions -/

/-- The text is numerals of the numbers in order, each behind a nonempty run of gaps. -/
inductive NumeralsBehindGaps : List Char → List Int32 → Prop where
  | nil : NumeralsBehindGaps [] []
  | cons {gap numeral rest : List Char} {n : Int32} {ns : List Int32} : Gaps gap →
      Denotes numeral n → NumeralsBehindGaps rest ns →
      NumeralsBehindGaps (gap ++ (numeral ++ rest)) (n :: ns)

/-- The line is numerals of the numbers in order, at least one, with gaps between them. Gaps may
stand in front of the first numeral and behind the last one. -/
inductive IsNumberLine : List Char → List Int32 → Prop where
  | intro {before numeral behind after : List Char} {n : Int32} {ns : List Int32} :
      (∀ c ∈ before, isGap c = true) → Denotes numeral n → NumeralsBehindGaps behind ns →
      (∀ c ∈ after, isGap c = true) →
      IsNumberLine (before ++ (numeral ++ (behind ++ after))) (n :: ns)

/-- The line is numerals of the literals of the clause in order, none of them zero or the most
negative word, and of a last zero. -/
inductive IsClauseLine (line : List Char) (c : Clause) : Prop where
  | intro {numbers : List Int32} : IsNumberLine line (numbers ++ [0]) →
      (∀ n ∈ numbers, n.toInt ≠ 0 ∧ n.toInt ≠ -2 ^ 31) →
      c.literals.map Literal.toInt = numbers.map Int32.toInt → IsClauseLine line c

/-- The numbers in front of the zero are the words of the literals. -/
theorem isClauseLine_iff {line : List Char} {c : Clause} :
    IsClauseLine line c ↔ IsNumberLine line (c.literals.map Literal.raw ++ [0]) := by
  constructor
  · intro h
    cases h with
    | @intro numbers hline _ hliterals =>
      have hraw : c.literals.map Literal.raw = numbers := by
        apply List.map_injective_iff.2 fun _ _ => Int32.toInt.inj
        rw [List.map_map]
        exact hliterals
      rw [hraw]
      exact hline
  · intro h
    refine .intro h ?_ (by rw [List.map_map]; rfl)
    intro n hn
    obtain ⟨l, -, rfl⟩ := List.mem_map.1 hn
    have hlow : -2147483647 ≤ l.toInt := l.neg_maxIndex_le_toInt
    exact ⟨l.toInt_ne_zero, fun heq => by rw [Literal.toInt, heq] at hlow; omega⟩

/-! ## Cutting a line into words -/

theorem NumeralsBehindGaps.gapFirst_append {behind after : List Char} {ns : List Int32}
    (h : NumeralsBehindGaps behind ns) (hafter : ∀ c ∈ after, isGap c = true) :
    GapFirst (behind ++ after) := by
  cases h with
  | nil => exact fun c hc => hafter c (List.mem_of_head? hc)
  | cons hgap _ _ =>
    rw [List.append_assoc]
    exact hgap.gapFirst_append _

/-- The words of a text behind a word are numerals when the text is numerals behind gaps, up to gaps
at its end. -/
theorem forall₂_denotes_words_iff {cs : List Char} {ns : List Int32} (hcs : GapFirst cs) :
    List.Forall₂ Denotes (words cs) ns ↔
      ∃ behind after, cs = behind ++ after ∧ NumeralsBehindGaps behind ns ∧
        ∀ c ∈ after, isGap c = true := by
  constructor
  · intro h
    generalize hwords : words cs = ws at h
    induction h generalizing cs with
    | nil => exact ⟨[], cs, rfl, .nil, words_eq_nil_iff.1 hwords⟩
    | @cons w n ws ns hw _ ih =>
      obtain ⟨gap, rest, rfl, hgap, hrest, hws⟩ := words_eq_cons_of_gapFirst hcs hwords
      obtain ⟨behind, after, rfl, hbehind, hafter⟩ := ih hrest hws
      refine ⟨gap ++ (w ++ behind), after, ?_, .cons hgap hw hbehind, hafter⟩
      simp only [List.append_assoc]
  · rintro ⟨behind, after, rfl, hbehind, hafter⟩
    clear hcs
    induction hbehind with
    | nil =>
      rw [List.nil_append, words_eq_nil_iff.2 hafter]
      exact .nil
    | @cons gap numeral rest n ns hgap hnumeral hrest ih =>
      have hwords :
          words (gap ++ (numeral ++ rest) ++ after) = numeral :: words (rest ++ after) := by
        rw [List.append_assoc, List.append_assoc, words_gaps_append hgap.gap,
          words_append hnumeral.ne_nil hnumeral.isGap_eq_false (hrest.gapFirst_append hafter)]
      rw [hwords]
      exact .cons hnumeral ih

/-- A line is numbers when its words are their numerals. -/
theorem isNumberLine_iff_words {line : List Char} {ns : List Int32} :
    IsNumberLine line ns ↔ ns ≠ [] ∧ List.Forall₂ Denotes (words line) ns := by
  constructor
  · intro h
    cases h with
    | intro hbefore hnumeral hbehind hafter =>
      have hrest := hbehind.gapFirst_append hafter
      rw [words_gaps_append hbefore, words_append hnumeral.ne_nil hnumeral.isGap_eq_false hrest]
      have hwords := (forall₂_denotes_words_iff hrest).2 ⟨_, _, rfl, hbehind, hafter⟩
      exact ⟨List.cons_ne_nil _ _, .cons hnumeral hwords⟩
  · rintro ⟨hne, h⟩
    generalize hwords : words line = ws at h
    cases h with
    | nil => exact absurd rfl hne
    | cons hw hws =>
      obtain ⟨before, rest, rfl, hbefore, -, -, hrest, rfl⟩ := words_eq_cons_iff.1 hwords
      obtain ⟨behind, after, rfl, hbehind, hafter⟩ := (forall₂_denotes_words_iff hrest).1 hws
      exact .intro hbefore hw hbehind hafter

/-! ## Scanning a line from its front -/

/-- A number behind gaps is taken if no digit follows its numeral. -/
theorem scanNext?_append {gap numeral rest : List Char} {n : Int32} (hgap : Gaps gap)
    (hnumeral : Denotes numeral n) (hrest : NoDigitFirst rest) :
    scanNext? (gap ++ (numeral ++ rest)) = some (n, rest) := by
  rw [scanNext?, skipGaps?_append hgap, hnumeral.dropWhile_isGap_append]
  exact scan_eq_some_iff.2 ⟨numeral, rfl, hnumeral, hrest⟩

/-- Behind gaps at the end of a text there is no number. -/
theorem scanNext?_gaps {after : List Char} (h : ∀ c ∈ after, isGap c = true) :
    scanNext? after = none := by
  cases after with
  | nil => rfl
  | cons c cs =>
    have hdrop := skipGaps?_append ⟨List.cons_ne_nil c cs, h⟩ []
    rw [List.append_nil] at hdrop
    rw [scanNext?, hdrop]
    rfl

theorem scanMore_of_some {cs rest : List Char} {n : Int32} (h : scanNext? cs = some (n, rest)) :
    scanMore cs = (n :: (scanMore rest).1, (scanMore rest).2) := by
  rw [scanMore]
  split
  · next heq =>
    rw [h] at heq
    cases heq
    rfl
  · next heq =>
    rw [h] at heq
    cases heq

theorem scanMore_of_none {cs : List Char} (h : scanNext? cs = none) : scanMore cs = ([], cs) := by
  rw [scanMore]
  split
  · next heq =>
    rw [h] at heq
    cases heq
  · rfl

/-- What is taken are numerals behind gaps, and nothing is lost. -/
theorem exists_numeralsBehindGaps_scanMore (cs : List Char) :
    ∃ behind, cs = behind ++ (scanMore cs).2 ∧ NumeralsBehindGaps behind (scanMore cs).1 := by
  cases hnext : scanNext? cs with
  | none =>
    rw [scanMore_of_none hnext]
    exact ⟨[], rfl, .nil⟩
  | some next =>
    obtain ⟨n, rest⟩ := next
    have hlt : rest.length < cs.length := length_lt_of_scanNext? hnext
    obtain ⟨cs', hskip, hscan⟩ := Option.bind_eq_some_iff.1 hnext
    obtain ⟨gap, rfl, hgap⟩ := gaps_of_skipGaps? hskip
    obtain ⟨numeral, rfl, hnumeral, -⟩ := scan_eq_some_iff.1 hscan
    obtain ⟨behind, hrest, hbehind⟩ := exists_numeralsBehindGaps_scanMore rest
    rw [scanMore_of_some hnext]
    refine ⟨gap ++ (numeral ++ behind), ?_, .cons hgap hnumeral hbehind⟩
    rw [List.append_assoc, List.append_assoc, ← hrest]
termination_by cs.length

/-- All numerals behind gaps are taken, and gaps behind them are left. -/
theorem scanMore_append {behind after : List Char} {ns : List Int32}
    (h : NumeralsBehindGaps behind ns) (hafter : ∀ c ∈ after, isGap c = true) :
    scanMore (behind ++ after) = (ns, after) := by
  induction h with
  | nil => exact scanMore_of_none (scanNext?_gaps hafter)
  | @cons gap numeral rest n ns hgap hnumeral hrest ih =>
    have hnext : scanNext? (gap ++ (numeral ++ rest) ++ after) = some (n, rest ++ after) := by
      rw [List.append_assoc, List.append_assoc]
      exact scanNext?_append hgap hnumeral
        (noDigitFirst_of_gapFirst (hrest.gapFirst_append hafter))
    rw [scanMore_of_some hnext, ih]

theorem scanNumbers?_of_scan {cs rest : List Char} {n : Int32} (h : scan cs = some (n, rest)) :
    scanNumbers? cs = some (n :: (scanMore rest).1, (scanMore rest).2) := by
  rw [scanNumbers?, h]
  rfl

/-- A line is numbers when scanning it takes them and leaves nothing but gaps. -/
theorem isNumberLine_iff_scanNumbers? {line : List Char} {ns : List Int32} :
    IsNumberLine line ns ↔ ∃ left, scanNumbers? (line.dropWhile isGap) = some (ns, left) ∧
      left.dropWhile isGap = [] := by
  constructor
  · intro h
    cases h with
    | @intro before numeral behind after n ns hbefore hnumeral hbehind hafter =>
      have hscan : scan (numeral ++ (behind ++ after)) = some (n, behind ++ after) :=
        scan_eq_some_iff.2 ⟨numeral, rfl, hnumeral,
          noDigitFirst_of_gapFirst (hbehind.gapFirst_append hafter)⟩
      refine ⟨after, ?_, List.dropWhile_eq_nil_iff.2 hafter⟩
      rw [List.dropWhile_append_of_pos hbefore, hnumeral.dropWhile_isGap_append,
        scanNumbers?_of_scan hscan, scanMore_append hbehind hafter]
  · rintro ⟨left, hscan, hleft⟩
    obtain ⟨⟨n, rest⟩, hfirst, hmore⟩ := Option.bind_eq_some_iff.1 hscan
    obtain ⟨rfl, rfl⟩ := Prod.mk.inj (Option.some.inj hmore)
    obtain ⟨numeral, hdrop, hnumeral, -⟩ := scan_eq_some_iff.1 hfirst
    obtain ⟨behind, hrest, hbehind⟩ := exists_numeralsBehindGaps_scanMore rest
    have hline : line = line.takeWhile isGap ++ (numeral ++ (behind ++ (scanMore rest).2)) := by
      rw [← hrest, ← hdrop, List.takeWhile_append_dropWhile]
    rw [hline]
    exact .intro (fun c => List.mem_takeWhile_imp) hnumeral hbehind
      (List.dropWhile_eq_nil_iff.1 hleft)

/-! ## Clauses -/

theorem scanClause?_eq_some_iff {line : List Char} {c : Clause} :
    scanClause? line = some c ↔ IsNumberLine line (c.literals.map Literal.raw ++ [0]) := by
  rw [isNumberLine_iff_scanNumbers?]
  simp only [scanClause?, Option.bind_eq_bind, Option.bind_eq_some_iff,
    Option.ite_none_right_eq_some, Option.some.injEq, clauseOfNumbers?_eq_some_iff]
  constructor
  · rintro ⟨⟨numbers, left⟩, hscan, c, rfl, hleft, rfl⟩
    exact ⟨left, hscan, hleft⟩
  · rintro ⟨left, hscan, hleft⟩
    exact ⟨(_, left), hscan, c, rfl, hleft, rfl⟩

/-- A line is read as a clause, by words or from its front, exactly when it is numerals with gaps
between them, of the literals of the clause and of a last zero. -/
theorem clause?_eq_some_iff_isClauseLine (line : List Char) (c : Clause) :
    (clause? line = some c ↔ IsClauseLine line c) ∧
      (scanClause? line = some c ↔ IsClauseLine line c) := by
  have hne : c.literals.map Literal.raw ++ [0] ≠ [] := List.concat_ne_nil _ _
  rw [clause?_eq_some_iff, scanClause?_eq_some_iff, isClauseLine_iff, isNumberLine_iff_words]
  exact ⟨(and_iff_right hne).symm, Iff.rfl⟩

/-- Leading zeros count for nothing, zero may have a sign, and every gap separates. -/
example : (clause? "\t007 -2\r-0 ".toList).map (·.literals.map Literal.toInt) = some [7, -2] := by
  decide

end Clausal.Dimacs
