/-
  Clausal.Proofs.Dimacs.WellFormed

  What holds of every list that is read, whatever the text. Its names are either remainders of
  comments, trimmed and without line breaks, or numerals; no two variables share one, and every
  literal is over a variable with a name (`WellFormed`). That is all that a written text needs to be
  read back unchanged, apart from the number of clauses, which has to fit the header.
-/
import Clausal.Proofs.Dimacs.UnescapedNames

namespace Clausal.Dimacs

open Text Numeral

/-! ## Names that are read -/

/-- A plain name is its own trim, is not empty and holds no line break. -/
theorem plainName_iff {name : String} : PlainName name ↔
    name ≠ "" ∧ trim name.toList = name.toList ∧ '\r' ∉ name.toList ∧ '\n' ∉ name.toList := by
  refine ⟨?_, ?_⟩
  · intro h
    exact ⟨h.ne_empty, h.trimmed.trim_eq, h.no_carriage_return, h.no_line_feed⟩
  · rintro ⟨hne, htrim, hcr, hlf⟩
    exact ⟨hne, htrim ▸ trimmed_trim name.toList, hcr, hlf⟩

/-- Trimming only takes characters away. -/
theorem mem_of_mem_trim {cs : List Char} {c : Char} (h : c ∈ trim cs) : c ∈ cs := by
  obtain ⟨before, after, heq, -, -⟩ := exists_blanks_trim cs
  rw [heq]
  exact List.mem_append_left after (List.mem_append_right before h)

theorem not_mem_of_mem_contentLines {text line : List Char} (h : line ∈ contentLines text) :
    '\n' ∉ line := by
  obtain ⟨raw, hraw, rfl⟩ := List.mem_map.1 (List.mem_filter.1 h).1
  obtain ⟨-, hlines, -⟩ := lines_eq_iff.1 (rfl : lines text = lines text)
  exact fun hmem => hlines raw hraw (mem_of_mem_trim hmem)

/-- The name that a comment gives is plain. -/
theorem NamesVariable.plainName {line : List Char} {index : Nat} {name : String}
    (h : NamesVariable line index name) (hline : '\n' ∉ line) : PlainName name := by
  cases h with
  | @intro gap₁ numeral gap₂ rest _ _ _ _ _ _ _ hcr hne =>
    have hrest : '\n' ∉ rest := fun hmem => hline (by simp [hmem])
    refine ⟨?_, ?_, ?_, ?_⟩
    · rw [Ne, ← String.toList_eq_nil_iff, String.toList_ofList]
      exact hne
    · rw [String.toList_ofList]
      exact trimmed_trim rest
    · rw [String.toList_ofList]
      exact fun hmem => hcr (mem_of_mem_trim hmem)
    · rw [String.toList_ofList]
      exact fun hmem => hrest (mem_of_mem_trim hmem)

/-- A numeral is a plain name. -/
theorem plainName_repr (n : Nat) : PlainName n.repr := by
  have hchars : n.repr.toList = Numeral.ofNat n := String.toList_ofList
  have hdigit : ∀ c ∈ Numeral.ofNat n, isBlank c = false := fun c hc =>
    isBlank_eq_false_of_isDigit (isDigit_of_mem_ofNat hc)
  refine ⟨?_, ?_, ?_, ?_⟩
  · rw [Ne, ← String.toList_eq_nil_iff, hchars]
    exact ofNat_ne_nil n
  · rw [hchars]
    exact ⟨fun c hc => hdigit c (List.mem_of_head? hc),
      fun c hc => hdigit c (List.mem_of_getLast? hc)⟩
  · rw [hchars]
    exact not_mem_ofNat_of_not_isDigit rfl
  · rw [hchars]
    exact not_mem_ofNat_of_not_isDigit rfl

/-- Every variable of a text gets a plain name. -/
theorem plainName_nameOf (text : List Char) (index : Nat) :
    PlainName (nameOf ((contentLines text).filterMap naming?) index) := by
  rcases nameOf_eq_iff.1 rfl with ⟨before, v, after, hsplit, -, -⟩ | ⟨-, hnumeral⟩
  · have hmem := hsplit ▸ List.mem_append_right before List.mem_cons_self
    obtain ⟨line, hline, hnaming⟩ := List.mem_filterMap.1 hmem
    exact (naming?_eq_some_iff.1 hnaming).plainName (not_mem_of_mem_contentLines hline)
  · rw [hnumeral]
    exact plainName_repr index

/-! ## Lists that are read -/

/-- The list is numbered by the map, which has names for the variables up to some number and not
too many of them. The names are distinct and such that a comment can carry them, and every variable
in a clause has one. -/
structure WellFormed (l : ClauseList) (m : VariableMap) : Prop where
  variableMap_eq : l.variableMap = some m
  size_le : m.size ≤ 2 ^ 24
  named_iff : ∀ v, (m.name? v).isSome ↔ v.index ≤ m.size
  distinct : ∀ v w name, m.name? v = some name → m.name? w = some name → v = w
  plain : ∀ v name, m.name? v = some name →
    name ≠ "" ∧ trim name.toList = name.toList ∧ '\r' ∉ name.toList ∧ '\n' ∉ name.toList
  covered : ∀ c ∈ l.clauses, ∀ lit ∈ c, lit.var.index ≤ m.size

theorem exists_wellFormed_of_read {text : String} {l : ClauseList} (h : read text = .ok l) :
    ∃ m, WellFormed l m := by
  obtain ⟨_, _, declared, -, -, -, hnumber⟩ := readChars_eq_ok_iff.1 h
  obtain ⟨hle, m, hm, hl⟩ := number_eq_ok_iff.1 hnumber
  have hsize := size_of_names_eq hm
  refine ⟨m, by rw [hl], ?_, ?_, ?_, ?_, ?_⟩
  · rw [hsize]
    exact hle
  · exact fun v => VariableMap.name?_isSome_iff
  · exact fun v w name => VariableMap.name?_inj
  · intro v name hname
    obtain ⟨-, rfl⟩ := (name?_of_names_eq hm).1 hname
    exact plainName_iff.1 (plainName_nameOf text.toList v.index)
  · rw [hsize]
    exact (mentioned_le_iff.1 (Nat.le_refl _)).2.1

/-- A well-formed list is read back unchanged if its clauses can be counted in the header. -/
theorem WellFormed.read_write_self {l : ClauseList} {m : VariableMap} (h : WellFormed l m)
    (hsize : l.size < 2 ^ 31) : read (write l) = .ok l := by
  have hnumbering := ClauseList.numbering_of_eq_some h.variableMap_eq
  have hcount : l.variableCount ≤ 2 ^ 24 := by
    have hhighest := ClauseList.highestIndex_le_iff.2 h.covered
    have hle := h.size_le
    rw [ClauseList.variableCount_eq, hnumbering]
    omega
  have hnames : ∀ name ∈ l.numbering.names, PlainName name := by
    rw [hnumbering]
    intro name hname
    obtain ⟨v, hv⟩ := VariableMap.mem_names_iff.1 hname
    exact plainName_iff.2 (h.plain v name hv)
  exact read_write_of_covered hsize hcount hnames h.variableMap_eq h.covered

/-- What is read is well formed, and writing it and reading it again changes nothing, exactly as
long as the clauses can be counted in the header. -/
theorem wellFormed_of_read {text : String} {l : ClauseList} (h : read text = .ok l) :
    (∃ m, WellFormed l m) ∧ (read (write l) = .ok l ↔ l.size < 2 ^ 31) := by
  obtain ⟨m, hm⟩ := exists_wellFormed_of_read h
  exact ⟨⟨m, hm⟩, fun hread => (read_write_eq_ok_iff.1 hread).1, hm.read_write_self⟩

/-- A text with blanks of several kinds, a variable that is named twice, one that only a comment
mentions and one that only a clause does. -/
def irregular : String :=
  "c 2 b\n\tc 2 \u3000y z\u00a0\r\np cnf 1 0\n 3 -3 0\n\nc 5 2\n-4 0\n"

theorem wellFormed_of_read_irregular :
    ∃ (l : ClauseList) (m : VariableMap), read irregular = .ok l ∧ l.variableMap = some m ∧
      m.names = ["1", "y z", "3", "4", "2"] ∧
      l.clauses.map (·.literals.map Literal.toInt) = [[3, -3], [-4]] ∧ WellFormed l m ∧
      read (write l) = .ok l := by
  let m : VariableMap := ⟨["1", "y z", "3", "4", "2"], by decide, by decide⟩
  let x : Variable := ⟨3, by decide, by decide⟩
  let y : Variable := ⟨4, by decide, by decide⟩
  let l : ClauseList :=
    { clauses := [⟨[.ofVar x true, .ofVar x false]⟩, ⟨[.ofVar y false]⟩]
      variableMap := some m }
  have hread : read irregular = .ok l := by
    refine readChars_eq_ok_iff.2
      ⟨"p cnf 1 0".toList, ["3 -3 0".toList, "-4 0".toList], 1, by decide, by decide, ?_, ?_⟩
    · exact .cons (by decide) (.cons (by decide) .nil)
    · refine number_eq_ok_iff.2 ⟨by decide, m, ?_, rfl⟩
      rw [namesUpTo_eq]
      decide
  obtain ⟨⟨m', hm'⟩, hiff⟩ := wellFormed_of_read hread
  obtain rfl : m = m' := Option.some.inj hm'.variableMap_eq
  exact ⟨l, m, hread, rfl, rfl, by decide, hm', hiff.2 (by decide)⟩

end Clausal.Dimacs
