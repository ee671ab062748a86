/-
  Clausal.Proofs.Dimacs.UnescapedNames

  Reading back a list whose names are any texts. Names are written without escaping, so a name with
  line feeds puts lines of its own in front of the header (`nameContent`). Behind the names stand
  the header and the clauses, each on a line of its own, whatever the names are.

  The first line that is no comment has to be a header and all later ones clauses. The written
  header is no clause (`clause?_headerLine`). So as soon as a name puts a line there that is no
  comment, the text is refused, and otherwise the clauses are those that were written
  (`read_write_eq_ok_iff`).
-/
import Clausal.Proofs.Dimacs.RoundTrip

namespace Clausal.Dimacs

open Text Numeral

/-! ## Written lines -/

/-- The header is no clause, since its first word is no number. -/
theorem clause?_headerLine (variableCount clauseCount : Nat) :
    clause? (headerLine variableCount clauseCount) = none := by
  rw [Option.eq_none_iff_forall_not_mem]
  intro c hc
  rw [Option.mem_def, clause?_eq_some_iff, words_headerLine] at hc
  obtain ⟨k, -, hk, -⟩ := List.forall₂_cons_left_iff.1 hc
  rw [← read?_eq_some_iff] at hk
  cases hk

/-! ## Written texts -/

theorem filter_contentLines_writeChars (l : ClauseList) :
    (contentLines (writeChars l)).filter (!isComment ·) = (nameContent l).filter (!isComment ·) ++
      headerLine l.variableCount l.size :: l.clauses.map clauseLine := by
  rw [contentLines_writeChars, List.filter_append, filter_headerLine_cons]

/-- Only the lines of the names can name variables. -/
theorem filterMap_naming?_contentLines_writeChars (l : ClauseList) :
    (contentLines (writeChars l)).filterMap naming? = (nameContent l).filterMap naming? := by
  have hbehind : (headerLine l.variableCount l.size :: l.clauses.map clauseLine).filterMap
      naming? = [] := by
    rw [List.filterMap_eq_nil_iff, ← filter_headerLine_cons]
    intro line hline
    exact naming?_eq_none (by simpa using (List.mem_filter.1 hline).2)
  rw [contentLines_writeChars, List.filterMap_append, hbehind, List.append_nil]

/-! ## Reading what is written -/

/-- The written clauses are read as themselves. -/
theorem forall₂_clause?_iff {clauses found : List Clause} :
    List.Forall₂ (fun line c => clause? line = some c) (clauses.map clauseLine) found ↔
      clauses = found := by
  rw [List.forall₂_map_left_iff, ← List.forall₂_eq_eq_eq]
  simp only [clause?_clauseLine, Option.some.injEq]

/-- A written text is read when there are not too many clauses for the header, the names put only
comments there and the variables can be numbered. -/
theorem read_write_eq_ok_iff {l l' : ClauseList} : read (write l) = .ok l' ↔
    l.size < 2 ^ 31 ∧ (∀ line ∈ nameContent l, isComment line = true) ∧
      number ((nameContent l).filterMap naming?) l.variableCount l.clauses = .ok l' := by
  have hmax : l.variableCount ≤ 2147483647 := l.variableCount_le_maxIndex
  have hcomments : (nameContent l).filter (!isComment ·) = [] ↔
      ∀ line ∈ nameContent l, isComment line = true := by simp
  rw [read, toList_write, readChars_eq_ok_iff, filter_contentLines_writeChars,
    filterMap_naming?_contentLines_writeChars, ← hcomments]
  refine ⟨?_, ?_⟩
  · rintro ⟨header, body, declared, hlines, hheader, hbody, hnumber⟩
    cases hforeign : (nameContent l).filter (!isComment ·) with
    | nil =>
      -- The first line that is no comment is the written header.
      rw [hforeign, List.nil_append] at hlines
      obtain ⟨rfl, rfl⟩ := List.cons.inj hlines
      obtain ⟨rfl, -, hsize⟩ := headerVariables?_headerLine_eq_some_iff.1 hheader
      rw [forall₂_clause?_iff.1 hbody]
      exact ⟨hsize, rfl, hnumber⟩
    | cons line lines =>
      -- Another line takes its place, so the written header has to be a clause.
      rw [hforeign, List.cons_append] at hlines
      obtain ⟨-, rfl⟩ := List.cons.inj hlines
      have hmem : headerLine l.variableCount l.size ∈
          lines ++ headerLine l.variableCount l.size :: l.clauses.map clauseLine :=
        List.mem_append_right lines List.mem_cons_self
      obtain ⟨c, -, hc⟩ := exists_of_mem_left hbody hmem
      rw [clause?_headerLine] at hc
      cases hc
  · rintro ⟨hsize, hforeign, hnumber⟩
    obtain ⟨-, m, -, hl⟩ := number_eq_ok_iff.1 hnumber
    refine ⟨headerLine l.variableCount l.size, l.clauses.map clauseLine, l.variableCount, ?_, ?_,
      ?_, ?_⟩
    · rw [hforeign, List.nil_append]
    · exact headerVariables?_headerLine_eq_some_iff.2 ⟨rfl, by omega, hsize⟩
    · rw [forall₂_clause?_iff, hl]
    · rw [hl] at hnumber ⊢
      exact hnumber

/-- Names cannot corrupt clauses. Whatever the names are, a written text that is read gives exactly
the clauses that were written, over no fewer variables, and all lines that the names put there are
comments. -/
theorem clauses_eq_of_read_write {l l' : ClauseList} (h : read (write l) = .ok l') :
    l'.clauses = l.clauses ∧ l.variableCount ≤ l'.variableCount ∧
      ∀ line ∈ nameContent l, isComment line = true := by
  obtain ⟨-, hcomments, hnumber⟩ := read_write_eq_ok_iff.1 h
  obtain ⟨-, m, hm, rfl⟩ := number_eq_ok_iff.1 hnumber
  refine ⟨rfl, ?_, hcomments⟩
  -- The number of variables in the header is one of those that are mentioned.
  have hsize := size_of_names_eq hm
  have hdeclared := (mentioned_le_iff.1 (Nat.le_refl
    (mentioned ((nameContent l).filterMap naming?) l.variableCount l.clauses))).1
  have hcount := ClauseList.variableCount_eq ⟨l.clauses, some m⟩
  rw [ClauseList.numbering_of_eq_some rfl] at hcount
  omega

/-- A list with names that put further comments into the written text. -/
def commenting : ClauseList :=
  misleading ["x\n  c 7 y", "\r\n", "p cnf 9 9\nc 2 z"] (by decide) rfl

/-- A list with a name that puts another header into the written text. -/
def interrupting : ClauseList :=
  misleading ["x\np cnf 9 9", "y", "z"] (by decide) rfl

/-- Comments that names put into the text change names and add variables; another header there makes
the text be refused. -/
theorem clauses_eq_of_read_write_injected :
    (∃ l, read (write commenting) = .ok l ∧ l.clauses = commenting.clauses ∧
      l.numbering.names = ["x", "z", "p cnf 9 9", "4", "5", "6", "y"]) ∧
    ∃ e, read (write interrupting) = .error e := by
  refine ⟨?_, ?_⟩
  · let m : VariableMap := ⟨["x", "z", "p cnf 9 9", "4", "5", "6", "y"], by decide, by decide⟩
    have hread : read (write commenting) = .ok ⟨commenting.clauses, some m⟩ := by
      refine read_write_eq_ok_iff.2 ⟨by decide, by decide, ?_⟩
      refine number_eq_ok_iff.2 ⟨by decide, m, ?_, rfl⟩
      rw [namesUpTo_eq]
      decide
    exact ⟨_, hread, (clauses_eq_of_read_write hread).1, rfl⟩
  · cases hread : read (write interrupting) with
    | error e => exact ⟨e, rfl⟩
    | ok l =>
      have hcomment := (clauses_eq_of_read_write hread).2.2 "p cnf 9 9".toList (by decide)
      exact absurd hcomment (by decide)

end Clausal.Dimacs
