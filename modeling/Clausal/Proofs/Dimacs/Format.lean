/-
  Clausal.Proofs.Dimacs.Format

  The three kinds of lines of the format, described without reading them: the header (`IsHeader`),
  the comment that names a variable (`NamesVariable`) and the clause, a sequence of numerals. For
  each there is a law that the reader takes exactly the lines described and finds exactly what they
  say (`headerVariables?_eq_some_iff`, `naming?_eq_some_iff`, `clause?_eq_some_iff`).
-/
import Clausal.Dimacs.ClauseScanner
import Clausal.Proofs.Collect
import Clausal.Proofs.Text.Numeral
import Clausal.Proofs.Text.Split

namespace Clausal.Dimacs

open Text Numeral

/-! ## Gaps -/

/-- A nonempty run of gaps. -/
structure Gaps (cs : List Char) : Prop where
  ne_nil : cs ≠ []
  gap : ∀ c ∈ cs, isGap c = true

theorem gaps_space : Gaps [' '] :=
  ⟨by simp, by simp [isGap]⟩

theorem Gaps.gapFirst_append {gap : List Char} (h : Gaps gap) (rest : List Char) :
    GapFirst (gap ++ rest) := by
  obtain ⟨g, gs, rfl⟩ := List.exists_cons_of_ne_nil h.ne_nil
  intro c hc
  obtain rfl : g = c := Option.some.inj hc
  exact h.gap g List.mem_cons_self

theorem noDigitFirst_of_gapFirst {cs : List Char} (h : GapFirst cs) : NoDigitFirst cs := by
  intro c hc
  have hgap := h c hc
  by_contra hdigit
  rw [isGap_eq_false_of_isDigit (by simpa using hdigit)] at hgap
  cases hgap

/-- What stands behind a word is a gap and the next word. -/
theorem words_eq_cons_of_gapFirst {cs w : List Char} {ws : List (List Char)} (hcs : GapFirst cs)
    (h : words cs = w :: ws) : ∃ gap rest, cs = gap ++ (w ++ rest) ∧ Gaps gap ∧
      GapFirst rest ∧ words rest = ws := by
  obtain ⟨gap, rest, rfl, hgap, hne, hw, hrest, hws⟩ := words_eq_cons_iff.1 h
  refine ⟨gap, rest, rfl, ⟨?_, hgap⟩, hrest, hws⟩
  rintro rfl
  -- Without a gap the word itself would have to start with one.
  obtain ⟨c, w, rfl⟩ := List.exists_cons_of_ne_nil hne
  have hc := hw c List.mem_cons_self
  rw [hcs c rfl] at hc
  cases hc

theorem skipGaps?_append {gap : List Char} (h : Gaps gap) (rest : List Char) :
    skipGaps? (gap ++ rest) = some (rest.dropWhile isGap) := by
  obtain ⟨g, gs, rfl⟩ := List.exists_cons_of_ne_nil h.ne_nil
  have hg : isGap g = true := h.gap g List.mem_cons_self
  have hgs : ∀ c ∈ gs, isGap c = true := fun c hc => h.gap c (List.mem_cons_of_mem _ hc)
  rw [List.cons_append, skipGaps?, if_pos hg, List.dropWhile_append_of_pos hgs]

/-- What is skipped is a run of gaps. -/
theorem gaps_of_skipGaps? {cs rest : List Char} (h : skipGaps? cs = some rest) :
    ∃ gap, cs = gap ++ rest ∧ Gaps gap := by
  cases cs with
  | nil => cases h
  | cons c cs =>
    simp only [skipGaps?, Option.ite_none_right_eq_some, Option.some.injEq] at h
    obtain ⟨hc, rfl⟩ := h
    refine ⟨c :: cs.takeWhile isGap, ?_, ⟨by simp, ?_⟩⟩
    · rw [List.cons_append, List.takeWhile_append_dropWhile]
    · intro d hd
      rcases List.mem_cons.1 hd with rfl | hd
      · exact hc
      · exact List.mem_takeWhile_imp hd

/-! ## The header -/

/-- The line is a header for a number of variables: `p`, `cnf`, that number and the number of
clauses, with gaps between them. Anything may follow the last digit of the number of clauses. -/
inductive IsHeader : List Char → Int32 → Prop where
  | intro {gap₁ gap₂ gap₃ v c rest : List Char} {declared clauses : Int32} :
      Gaps gap₁ → Gaps gap₂ → Gaps gap₃ → Denotes v declared → Denotes c clauses →
      NoDigitFirst rest →
      IsHeader (['p'] ++ (gap₁ ++ (['c', 'n', 'f'] ++ (gap₂ ++ (v ++ (gap₃ ++ (c ++ rest)))))))
        declared

/-- The words of a text that starts with a numeral: the first one starts with it as well. -/
theorem exists_words_denotes_append {numeral rest : List Char} {n : Int32}
    (hnumeral : Denotes numeral n) (hrest : NoDigitFirst rest) :
    ∃ w ws tail, words (numeral ++ rest) = w :: ws ∧ scan w = some (n, tail) := by
  -- The word goes on up to the next gap, and its tail still starts with no digit.
  refine ⟨numeral ++ rest.takeWhile (!isGap ·), words (rest.dropWhile (!isGap ·)),
    rest.takeWhile (!isGap ·), ?_, ?_⟩
  · rw [← words_append]
    · rw [List.append_assoc, List.takeWhile_append_dropWhile]
    · simp [hnumeral.ne_nil]
    · intro c hc
      rcases List.mem_append.1 hc with hc | hc
      · exact hnumeral.isGap_eq_false c hc
      · simpa using List.mem_takeWhile_imp hc
    · intro c hc
      simpa using head?_dropWhile_eq_false _ _ c hc
  · rw [scan_eq_some_iff]
    refine ⟨numeral, rfl, hnumeral, ?_⟩
    intro c hc
    cases rest with
    | nil => cases hc
    | cons d rest =>
      rw [List.takeWhile_cons] at hc
      split at hc
      · exact hrest c hc
      · cases hc

/-- The reader takes exactly the headers. -/
theorem headerVariables?_eq_some_iff {line : List Char} {n : Nat}
    (hline : ∀ c ∈ line.head?, isGap c = false) :
    headerVariables? line = some n ↔ ∃ declared, IsHeader line declared ∧
      n = declared.toInt.toNat := by
  refine ⟨?_, ?_⟩
  · intro h
    unfold headerVariables? at h
    split at h
    · next v c tail hwords =>
      simp only [Option.bind_eq_bind, Option.bind_eq_some_iff, Option.some.injEq] at h
      obtain ⟨declared, hv, ⟨clauses, behind⟩, hc, rfl⟩ := h
      rw [read?_eq_some_iff] at hv
      obtain ⟨c, rfl, hc, hbehind⟩ := scan_eq_some_iff.1 hc
      obtain ⟨gap, rest₁, rfl, hgap, -, -, hrest₁, hwords₁⟩ := words_eq_cons_iff.1 hwords
      -- A line that does not start with a gap starts with its first word.
      obtain rfl : gap = [] := by
        cases gap with
        | nil => rfl
        | cons g gap =>
          have hg := hline g rfl
          rw [hgap g List.mem_cons_self] at hg
          cases hg
      obtain ⟨gap₁, rest₂, rfl, hgap₁, hrest₂, hwords₂⟩ :=
        words_eq_cons_of_gapFirst hrest₁ hwords₁
      obtain ⟨gap₂, rest₃, rfl, hgap₂, hrest₃, hwords₃⟩ :=
        words_eq_cons_of_gapFirst hrest₂ hwords₂
      obtain ⟨gap₃, rest₄, rfl, hgap₃, hrest₄, -⟩ := words_eq_cons_of_gapFirst hrest₃ hwords₃
      refine ⟨declared, ?_, rfl⟩
      -- What follows the last number is the rest of its word or, if that is empty, a gap.
      have hend : NoDigitFirst (behind ++ rest₄) := by
        cases behind with
        | nil => exact noDigitFirst_of_gapFirst hrest₄
        | cons d behind => exact hbehind
      have hheader := IsHeader.intro hgap₁ hgap₂ hgap₃ hv hc hend
      simpa only [List.nil_append, List.append_assoc] using hheader
    · cases h
  · intro h
    obtain ⟨declared, hheader, rfl⟩ := h
    cases hheader with
    | @intro gap₁ gap₂ gap₃ v c rest _ clauses hgap₁ hgap₂ hgap₃ hv hc hrest =>
      obtain ⟨w, ws, tail, hwords, hscan⟩ := exists_words_denotes_append hc hrest
      unfold headerVariables?
      rw [words_append (by simp) (by simp [isGap]) (hgap₁.gapFirst_append _),
        words_gaps_append hgap₁.gap,
        words_append (by simp) (by simp [isGap]) (hgap₂.gapFirst_append _),
        words_gaps_append hgap₂.gap,
        words_append hv.ne_nil hv.isGap_eq_false (hgap₃.gapFirst_append _),
        words_gaps_append hgap₃.gap, hwords]
      simp [read?_eq_some_iff.2 hv, hscan]

/-! ## Naming comments -/

/-- The line is a comment that gives the variable with an index a name: `c`, the index and the name,
with gaps between them. The name is trimmed, is not blank and holds no carriage return. -/
inductive NamesVariable : List Char → Nat → String → Prop where
  | intro {gap₁ numeral gap₂ rest : List Char} {n : Int32} {index : Nat} :
      Gaps gap₁ → Denotes numeral n → n.toInt = index → 0 < index → Gaps gap₂ → '\r' ∉ rest →
      trim rest ≠ [] →
      NamesVariable ('c' :: (gap₁ ++ (numeral ++ (gap₂ ++ rest)))) index
        (String.ofList (trim rest))

theorem NamesVariable.index_pos {line : List Char} {index : Nat} {name : String}
    (h : NamesVariable line index name) : 0 < index := by
  cases h with
  | intro _ _ _ hpos _ _ _ => exact hpos

theorem NamesVariable.index_le {line : List Char} {index : Nat} {name : String}
    (h : NamesVariable line index name) : index ≤ Variable.maxIndex := by
  cases h with
  | @intro _ _ _ _ n _ _ _ hn _ _ _ _ =>
    have hlt : n.toInt < 2147483648 := n.toInt_lt
    simp only [Variable.maxIndex]
    omega

theorem trim_gaps_append {gap : List Char} (h : ∀ c ∈ gap, isGap c = true) (cs : List Char) :
    trim (gap ++ cs) = trim cs :=
  trim_append_left (fun c hc => isBlank_of_isGap (h c hc)) cs

/-- The reader takes exactly the naming comments. -/
theorem naming?_eq_some_iff {line : List Char} {v : Variable} {name : String} :
    naming? line = some (v, name) ↔ NamesVariable line v.index name := by
  refine ⟨?_, ?_⟩
  · intro h
    unfold naming? at h
    split at h
    · next rest =>
      simp only [Option.bind_eq_bind, Option.bind_eq_some_iff, Option.ite_none_right_eq_some,
        Option.some.injEq, Prod.mk.injEq] at h
      obtain ⟨rest₁, h₁, ⟨n, rest₂⟩, hscan, rest₃, h₃, w, hw, ⟨hcr, hne⟩, rfl, rfl⟩ := h
      obtain ⟨gap₁, rfl, hgap₁⟩ := gaps_of_skipGaps? h₁
      obtain ⟨numeral, rfl, hnumeral, -⟩ := scan_eq_some_iff.1 hscan
      obtain ⟨gap₂, rfl, hgap₂⟩ := gaps_of_skipGaps? h₃
      have hindex : w.index = n.toInt.toNat := Variable.ofIndex?_eq_some_iff.1 hw
      have hpos := w.index_pos
      exact .intro hgap₁ hnumeral (by omega) hpos hgap₂ hcr hne
    · cases h
  · intro h
    generalize hindex : v.index = index at h
    cases h with
    | @intro gap₁ numeral gap₂ rest n _ hgap₁ hnumeral hn _ hgap₂ hcr hne =>
      have hskip₁ : skipGaps? (gap₁ ++ (numeral ++ (gap₂ ++ rest))) =
          some (numeral ++ (gap₂ ++ rest)) := by
        rw [skipGaps?_append hgap₁, hnumeral.dropWhile_isGap_append]
      have hscan : scan (numeral ++ (gap₂ ++ rest)) = some (n, gap₂ ++ rest) :=
        scan_eq_some_iff.2
          ⟨numeral, rfl, hnumeral, noDigitFirst_of_gapFirst (hgap₂.gapFirst_append rest)⟩
      -- The reader skips all gaps, also those that the description counts to the name.
      have htrim : trim (rest.dropWhile isGap) = trim rest := by
        conv_rhs => rw [← List.takeWhile_append_dropWhile (p := isGap) (l := rest)]
        exact (trim_gaps_append (fun c => List.mem_takeWhile_imp) _).symm
      have hcr' : '\r' ∉ rest.dropWhile isGap := fun hmem =>
        hcr ((List.dropWhile_suffix isGap).mem hmem)
      -- A positive number is not changed by its conversion to an index.
      have hv : Variable.ofIndex? n.toInt.toNat = some v :=
        Variable.ofIndex?_eq_some_iff.2 (by omega)
      simp only [naming?, hskip₁, hscan, skipGaps?_append hgap₂, hv, htrim, Option.bind_eq_bind,
        Option.bind_some]
      rw [if_pos ⟨hcr', hne⟩]

/-- A line that is no comment names no variable. -/
theorem naming?_eq_none {line : List Char} (h : isComment line = false) : naming? line = none := by
  unfold naming?
  split
  · cases h
  · rfl

/-! ## Clauses -/

/-- The numbers that say a clause are those of its literals and a last zero. -/
theorem clauseOfNumbers?_eq_some_iff {numbers : List Int32} {c : Clause} :
    clauseOfNumbers? numbers = some c ↔ numbers = c.literals.map Literal.raw ++ [0] := by
  -- A word is the number of at most one literal, so the numbers determine the clause.
  have hliterals : ∀ numbers, numbers.mapM Literal.ofRaw? = some c.literals ↔
      numbers = c.literals.map Literal.raw := by
    intro numbers
    rw [mapM_eq_some_iff, ← List.forall₂_eq_eq_eq, List.forall₂_map_right_iff]
    simp only [Literal.ofRaw?_eq_some_iff]
    exact ⟨List.Forall₂.imp fun _ _ h => h.symm, List.Forall₂.imp fun _ _ h => h.symm⟩
  refine ⟨?_, ?_⟩
  · intro h
    simp only [clauseOfNumbers?, Option.ite_none_right_eq_some, Option.map_eq_map,
      Option.map_eq_some_iff] at h
    obtain ⟨hlast, literals, hl, rfl⟩ := h
    -- The last number is the zero that is dropped, all others are literals.
    obtain ⟨init, rfl⟩ := List.getLast?_eq_some_iff.1 hlast
    rw [List.dropLast_concat, hliterals] at hl
    rw [hl]
  · rintro rfl
    rw [clauseOfNumbers?, if_pos List.getLast?_concat, List.dropLast_concat,
      (hliterals _).2 rfl]
    rfl

/-- The reader takes as a clause exactly the words that are numerals of its literals and of a last
zero. -/
theorem clause?_eq_some_iff {line : List Char} {c : Clause} :
    clause? line = some c ↔
      List.Forall₂ Denotes (words line) (c.literals.map Literal.raw ++ [0]) := by
  have hclause : clause? line = (words line).mapM read? >>= clauseOfNumbers? := rfl
  simp only [hclause, Option.bind_eq_bind, Option.bind_eq_some_iff, clauseOfNumbers?_eq_some_iff,
    exists_eq_right, mapM_eq_some_iff, read?_eq_some_iff]

end Clausal.Dimacs
