/-
  Clausal.Proofs.Dimacs.Reading

  What each part of the reader computes: the content lines of a text that is made of trimmed lines
  (`contentLines_flatMap`), the name of each variable (`nameOf_eq_iff`), the number of variables
  (`mentioned_le_iff`), and the three outcomes of numbering them. Together they give every outcome
  of reading a text from what its content lines are (`readChars_of_header`).
-/
import Clausal.Proofs.ClauseList
import Clausal.Proofs.Dimacs.Format
import Mathlib.Data.List.Nodup

namespace Clausal.Dimacs

open Text

/-! ## Content -/

theorem mem_contentLines {text line : List Char} (h : line ∈ contentLines text) :
    Trimmed line ∧ line ≠ [] := by
  obtain ⟨hmap, hne⟩ := List.mem_filter.1 h
  obtain ⟨raw, -, rfl⟩ := List.mem_map.1 hmap
  exact ⟨trimmed_trim raw, of_decide_eq_true hne⟩

/-- A content line does not start with a gap. -/
theorem isGap_head?_of_mem_contentLines {text line : List Char} (h : line ∈ contentLines text) :
    ∀ c ∈ line.head?, isGap c = false := by
  intro c hc
  have hblank := (mem_contentLines h).1.head c hc
  by_contra hgap
  rw [isBlank_of_isGap (by simpa using hgap)] at hblank
  cases hblank

theorem contentLines_append_cons (xs ys : List Char) :
    contentLines (xs ++ '\n' :: ys) = contentLines xs ++ contentLines ys := by
  rw [contentLines, lines_append_cons, List.map_append, List.filter_append]
  rfl

/-- The content of texts that are each ended by a line feed is that of one text after the other. -/
theorem contentLines_flatMap_eq (ls : List (List Char)) :
    contentLines (ls.flatMap (· ++ ['\n'])) = ls.flatMap contentLines := by
  induction ls with
  | nil => rfl
  | cons l ls ih =>
    rw [List.flatMap_cons, List.flatMap_cons, List.append_assoc, List.singleton_append,
      contentLines_append_cons, ih]

/-- A text made of trimmed lines that are not empty has these lines as its content. -/
theorem contentLines_flatMap {ls : List (List Char)}
    (h : ∀ l ∈ ls, '\n' ∉ l ∧ Trimmed l ∧ l ≠ []) :
    contentLines (ls.flatMap (· ++ ['\n'])) = ls := by
  have hmap : ls.map trim = ls := by
    conv_rhs => rw [← List.map_id ls]
    exact List.map_congr_left fun l hl => (h l hl).2.1.trim_eq
  have hfilter : ls.filter (· ≠ []) = ls :=
    List.filter_eq_self.2 fun l hl => decide_eq_true (h l hl).2.2
  rw [contentLines, lines_flatMap_append fun l hl => (h l hl).1, List.map_append, hmap,
    List.filter_append, hfilter]
  simp [trim]

/-! ## Names -/

/-- The name of a variable is the one that the last naming of its index gives, or its numeral. -/
theorem nameOf_eq_iff {namings : List (Variable × String)} {index : Nat} {name : String} :
    nameOf namings index = name ↔
      (∃ before v after, namings = before ++ (v, name) :: after ∧ v.index = index ∧
        ∀ p ∈ after, p.1.index ≠ index) ∨
      (∀ p ∈ namings, p.1.index ≠ index) ∧ name = index.repr := by
  unfold nameOf
  cases hfind : namings.reverse.find? (·.1.index = index) with
  | none =>
    have hnone : ∀ p ∈ namings, p.1.index ≠ index := by simpa using hfind
    refine ⟨?_, ?_⟩
    · rintro rfl
      exact .inr ⟨hnone, rfl⟩
    · rintro (⟨before, v, after, rfl, hv, -⟩ | ⟨-, rfl⟩)
      · exact absurd hv (hnone _ (List.mem_append_right _ List.mem_cons_self))
      · rfl
  | some found =>
    obtain ⟨v, other⟩ := found
    obtain ⟨hv, after, before, hsplit, hafter⟩ := List.find?_eq_some_iff_append.1 hfind
    rw [List.reverse_eq_iff, List.reverse_append, List.reverse_cons, List.append_assoc,
      List.singleton_append] at hsplit
    have hv : v.index = index := of_decide_eq_true hv
    have hafter' : ∀ p ∈ after.reverse, p.1.index ≠ index := by
      intro p hp
      have := hafter p (List.mem_reverse.1 hp)
      simpa using this
    refine ⟨?_, ?_⟩
    · -- The search goes through the namings from the last one back.
      rintro rfl
      exact .inl ⟨before.reverse, v, after.reverse, hsplit, hv, hafter'⟩
    · rintro (⟨before', w, after', rfl, hw, hafter₂⟩ | ⟨hnone, -⟩)
      · -- Any other last naming would have been found in its place.
        rw [List.reverse_append, List.reverse_cons, List.append_assoc, List.find?_append,
          List.find?_eq_none.2 (by simpa using hafter₂)] at hfind
        simp only [Option.none_or, List.singleton_append, List.find?_cons, hw, decide_true,
          Option.some.injEq, Prod.mk.injEq] at hfind
        exact hfind.2.symm
      · rw [hsplit] at hnone
        exact absurd hv (hnone _ (List.mem_append_right _ List.mem_cons_self))

@[simp] theorem length_namesUpTo (namings : List (Variable × String)) (count : Nat) :
    (namesUpTo namings count).length = count := by
  rw [namesUpTo_eq, List.length_map, List.length_range]

theorem size_of_names_eq {m : VariableMap} {namings : List (Variable × String)} {count : Nat}
    (h : m.names = namesUpTo namings count) : m.size = count := by
  rw [VariableMap.size, h, length_namesUpTo]

/-- The names up to a number are distinct when no two variables up to it share one. -/
theorem nodup_namesUpTo_iff {namings : List (Variable × String)} {count : Nat} :
    (namesUpTo namings count).Nodup ↔
      ∀ i j, 0 < i → i ≤ count → 0 < j → j ≤ count → nameOf namings i = nameOf namings j →
        i = j := by
  rw [namesUpTo_eq, List.nodup_map_iff_inj_on List.nodup_range]
  simp only [List.mem_range]
  refine ⟨?_, ?_⟩
  · intro h i j hi hic hj hjc heq
    -- The list counts from 0, the variables from 1.
    have hi' : i - 1 + 1 = i := by omega
    have hj' : j - 1 + 1 = j := by omega
    have := h (i - 1) (by omega) (j - 1) (by omega) (by rw [hi', hj', heq])
    omega
  · intro h i hi j hj heq
    have := h (i + 1) (j + 1) (by omega) (by omega) (by omega) (by omega) heq
    omega

/-- A map over the names up to a number gives each variable up to it its name. -/
theorem name?_of_names_eq {m : VariableMap} {namings : List (Variable × String)} {count : Nat}
    (h : m.names = namesUpTo namings count) {v : Variable} {name : String} :
    m.name? v = some name ↔ v.index ≤ count ∧ nameOf namings v.index = name := by
  have hpos := v.index_pos
  have hv : v.index - 1 + 1 = v.index := by omega
  rw [VariableMap.name?, h, namesUpTo_eq, List.getElem?_map, Option.map_eq_some_iff]
  refine ⟨?_, ?_⟩
  · intro h
    obtain ⟨i, hi, rfl⟩ := h
    obtain ⟨hlt, rfl⟩ := List.getElem?_eq_some_iff.1 hi
    rw [List.length_range] at hlt
    rw [List.getElem_range, hv]
    exact ⟨by omega, rfl⟩
  · intro h
    obtain ⟨hle, rfl⟩ := h
    exact ⟨v.index - 1, List.getElem?_range (by omega), by rw [hv]⟩

/-! ## Numbering -/

/-- The number of variables that a header, clauses and namings mention. -/
def mentioned (namings : List (Variable × String)) (declared : Nat) (clauses : List Clause) : Nat :=
  (namings.map (·.1.index)).foldl max (max declared (ClauseList.mk clauses none).highestIndex)

/-- The number of variables mentioned bounds every number that is mentioned, and nothing below it
does. -/
theorem mentioned_le_iff {namings : List (Variable × String)} {declared : Nat}
    {clauses : List Clause} {n : Nat} :
    mentioned namings declared clauses ≤ n ↔ declared ≤ n ∧
      (∀ c ∈ clauses, ∀ l ∈ c, l.var.index ≤ n) ∧ ∀ p ∈ namings, p.1.index ≤ n := by
  rw [mentioned, foldl_max_le_iff, Nat.max_le, ClauseList.highestIndex_le_iff, and_assoc,
    List.forall_mem_map]

theorem number_of_lt {namings : List (Variable × String)} {declared : Nat} {clauses : List Clause}
    (h : maxVariables < mentioned namings declared clauses) :
    number namings declared clauses =
      .error (.tooManyVariables (mentioned namings declared clauses)) :=
  if_pos h

theorem number_of_not_nodup {namings : List (Variable × String)} {declared : Nat}
    {clauses : List Clause} (hle : mentioned namings declared clauses ≤ maxVariables)
    (h : ¬(namesUpTo namings (mentioned namings declared clauses)).Nodup) :
    number namings declared clauses = .error .repeatedName := by
  have hlength := length_namesUpTo namings (mentioned namings declared clauses)
  have hmax : maxVariables ≤ Variable.maxIndex := by decide
  have hnone := (VariableMap.ofDistinct?_eq_none_iff (by omega)).2 h
  unfold mentioned at hle hnone
  simp only [number, if_neg (Nat.not_lt.2 hle), hnone]

theorem number_of_names_eq {namings : List (Variable × String)} {declared : Nat}
    {clauses : List Clause} (hle : mentioned namings declared clauses ≤ maxVariables)
    {m : VariableMap} (h : m.names = namesUpTo namings (mentioned namings declared clauses)) :
    number namings declared clauses = .ok ⟨clauses, some m⟩ := by
  have hsome := VariableMap.ofDistinct?_eq_some_iff.2 h
  unfold mentioned at hle hsome
  simp only [number, if_neg (Nat.not_lt.2 hle), hsome]

/-- Numbering succeeds when there are not too many variables and their names are distinct; the
result has these names in order and keeps the clauses. -/
theorem number_eq_ok_iff {namings : List (Variable × String)} {declared : Nat}
    {clauses : List Clause} {l : ClauseList} :
    number namings declared clauses = .ok l ↔
      mentioned namings declared clauses ≤ maxVariables ∧
        ∃ m, m.names = namesUpTo namings (mentioned namings declared clauses) ∧
          l = ⟨clauses, some m⟩ := by
  refine ⟨?_, ?_⟩
  · intro h
    by_cases hle : mentioned namings declared clauses ≤ maxVariables
    · refine ⟨hle, ?_⟩
      by_cases hnodup : (namesUpTo namings (mentioned namings declared clauses)).Nodup
      · have hlength := length_namesUpTo namings (mentioned namings declared clauses)
        have hmax : maxVariables ≤ Variable.maxIndex := by decide
        obtain ⟨m, hm⟩ := VariableMap.exists_names_eq hnodup (by omega)
        rw [number_of_names_eq hle hm] at h
        exact ⟨m, hm, (Except.ok.inj h).symm⟩
      · rw [number_of_not_nodup hle hnodup] at h
        cases h
    · rw [number_of_lt (by omega)] at h
      cases h
  · intro h
    obtain ⟨hle, m, hm, rfl⟩ := h
    exact number_of_names_eq hle hm

/-! ## Texts -/

theorem readClause_eq_ok_iff {line : List Char} {c : Clause} :
    readClause line = .ok c ↔ clause? line = some c := by
  unfold readClause
  split
  · next d h => simp [h]
  · next h => simp [h]

theorem readClause_eq_error_iff {line : List Char} {e : ReadError} :
    readClause line = .error e ↔ clause? line = none ∧ e = .invalidClause (String.ofList line) := by
  unfold readClause
  split
  · next d h => simp [h]
  · next h => simp [h, eq_comm]

/-- Without a line that is no comment there is nothing to read. -/
theorem readChars_of_nil {text : List Char}
    (h : (contentLines text).filter (!isComment ·) = []) : readChars text = .error .emptyInput := by
  simp only [readChars, h]

/-- With a bad header nothing else is looked at. -/
theorem readChars_of_not_header {text header : List Char} {body : List (List Char)}
    (h : (contentLines text).filter (!isComment ·) = header :: body)
    (hheader : headerVariables? header = none) : readChars text = .error .invalidHeader := by
  simp only [readChars, h, readHeader, hheader]
  rfl

/-- Behind a good header the clauses are read and then numbered. -/
theorem readChars_of_header {text header : List Char} {body : List (List Char)} {declared : Nat}
    (h : (contentLines text).filter (!isComment ·) = header :: body)
    (hheader : headerVariables? header = some declared) :
    readChars text = body.mapM readClause >>=
      number ((contentLines text).filterMap naming?) declared := by
  simp only [readChars, h, readHeader, hheader]
  rfl

/-- What a text that is read consists of, and what is read. -/
theorem readChars_eq_ok_iff {text : List Char} {l : ClauseList} :
    readChars text = .ok l ↔ ∃ header body declared,
      (contentLines text).filter (!isComment ·) = header :: body ∧
      headerVariables? header = some declared ∧
      List.Forall₂ (fun line c => clause? line = some c) body l.clauses ∧
      number ((contentLines text).filterMap naming?) declared l.clauses = .ok l := by
  refine ⟨?_, ?_⟩
  · intro h
    cases hlines : (contentLines text).filter (!isComment ·) with
    | nil =>
      rw [readChars_of_nil hlines] at h
      cases h
    | cons header body =>
      cases hheader : headerVariables? header with
      | none =>
        rw [readChars_of_not_header hlines hheader] at h
        cases h
      | some declared =>
        rw [readChars_of_header hlines hheader] at h
        cases hbody : body.mapM readClause with
        | error e =>
          rw [hbody] at h
          cases h
        | ok clauses =>
          rw [hbody] at h
          have hnumber :
              number ((contentLines text).filterMap naming?) declared clauses = .ok l := h
          -- Numbering keeps the clauses, so those of the result are the ones that were read.
          obtain ⟨-, m, -, rfl⟩ := number_eq_ok_iff.1 hnumber
          rw [mapM_eq_ok_iff] at hbody
          simp only [readClause_eq_ok_iff] at hbody
          exact ⟨header, body, declared, rfl, hheader, hbody, hnumber⟩
  · intro h
    obtain ⟨header, body, declared, hlines, hheader, hbody, hnumber⟩ := h
    rw [readChars_of_header hlines hheader]
    have hclauses : body.mapM readClause = .ok l.clauses := by
      rw [mapM_eq_ok_iff]
      simpa only [readClause_eq_ok_iff] using hbody
    rw [hclauses]
    exact hnumber

/-- A list that is read has a numbering, which covers all its variables. -/
theorem exists_variableMap_of_read {text : String} {l : ClauseList} (h : read text = .ok l) :
    ∃ m, l.variableMap = some m ∧ l.highestIndex ≤ m.size := by
  obtain ⟨_, _, declared, -, -, -, hnumber⟩ := readChars_eq_ok_iff.1 h
  obtain ⟨-, m, hm, hl⟩ := number_eq_ok_iff.1 hnumber
  refine ⟨m, by rw [hl], ?_⟩
  rw [size_of_names_eq hm]
  exact ClauseList.highestIndex_le_iff.2 (mentioned_le_iff.1 (Nat.le_refl _)).2.1

end Clausal.Dimacs
