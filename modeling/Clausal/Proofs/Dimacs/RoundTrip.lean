/-
  Clausal.Proofs.Dimacs.RoundTrip

  Reading back what is written. Each written line is one of the lines that the format describes: a
  name is written as a naming comment, the sizes as a header and a clause as a clause. What a
  written text holds apart from the names is its header and its clauses (`contentLines_writeChars`).
  If the names are plain, the content is the lines that were written, and reading it numbers the
  variables again. Variables beyond the numbering come back under their numerals, which fails
  exactly when the numbering has given such a numeral to another variable as its name.
-/
import Clausal.Dimacs.Writer
import Clausal.Proofs.Dimacs.Reading
import Mathlib.Algebra.Group.Nat.Defs
import Std.Data.String.ToNat

namespace Clausal.Dimacs

open Text Numeral

/-! ## Names that comments carry -/

/-- A name that a comment carries unchanged: not empty, without blanks at its ends and without line
breaks. -/
structure PlainName (name : String) : Prop where
  ne_empty : name ≠ ""
  trimmed : Trimmed name.toList
  no_carriage_return : '\r' ∉ name.toList
  no_line_feed : '\n' ∉ name.toList

instance (name : String) : Decidable (PlainName name) :=
  decidable_of_iff
    (name ≠ "" ∧ Trimmed name.toList ∧ '\r' ∉ name.toList ∧ '\n' ∉ name.toList)
    ⟨fun ⟨h₁, h₂, h₃, h₄⟩ => ⟨h₁, h₂, h₃, h₄⟩, fun ⟨h₁, h₂, h₃, h₄⟩ => ⟨h₁, h₂, h₃, h₄⟩⟩

theorem PlainName.toList_ne_nil {name : String} (h : PlainName name) : name.toList ≠ [] := by
  intro hnil
  exact h.ne_empty (String.toList_eq_nil_iff.1 hnil)

/-! ## Written numbers -/

theorem not_mem_ofNat_of_not_isDigit {n : Nat} {c : Char} (h : c.isDigit = false) :
    c ∉ Numeral.ofNat n := by
  intro hc
  rw [isDigit_of_mem_ofNat hc] at h
  cases h

theorem not_mem_digits_of_isBlank {l : Literal} {c : Char} (h : isBlank c = true) :
    c ∉ l.digits := by
  intro hc
  rw [isBlank_of_mem_ofInt hc] at h
  cases h

theorem denotes_digits (l : Literal) : Denotes l.digits l.raw :=
  denotes_ofInt l.raw

/-! ## Written lines -/

/-- The written name of a variable is a comment that names it. -/
theorem namesVariable_nameLine {index : Nat} {name : String} (hpos : 0 < index)
    (hle : index ≤ Variable.maxIndex) (hname : PlainName name) :
    NamesVariable (nameLine index name) index name := by
  have hlt : index < 2 ^ 31 := Nat.lt_succ_of_le hle
  obtain ⟨k, hk⟩ := exists_toInt_eq_iff.2 hlt
  have hnames := NamesVariable.intro gaps_space (denotes_ofNat_iff.2 hk) hk hpos gaps_space
    hname.no_carriage_return (by rw [hname.trimmed.trim_eq]; exact hname.toList_ne_nil)
  rw [hname.trimmed.trim_eq, String.ofList_toList] at hnames
  exact hnames

theorem words_headerLine (variableCount clauseCount : Nat) :
    words (headerLine variableCount clauseCount) =
      [['p'], ['c', 'n', 'f'], Numeral.ofNat variableCount, Numeral.ofNat clauseCount] := by
  have hnumeral : ∀ n, words (Numeral.ofNat n) = [Numeral.ofNat n] := fun n =>
    words_eq_singleton (ofNat_ne_nil n) fun c hc =>
      isGap_eq_false_of_isDigit (isDigit_of_mem_ofNat hc)
  have hline : headerLine variableCount clauseCount =
      (['p', ' ', 'c', 'n', 'f'] ++ ' ' :: Numeral.ofNat variableCount) ++
        ' ' :: Numeral.ofNat clauseCount := by simp [headerLine]
  rw [hline, words_append_cons rfl, words_append_cons rfl, hnumeral, hnumeral]
  rfl

/-- The written sizes are a header when both of them fit a word. -/
theorem headerVariables?_headerLine_eq_some_iff {variableCount clauseCount n : Nat} :
    headerVariables? (headerLine variableCount clauseCount) = some n ↔
      n = variableCount ∧ variableCount < 2 ^ 31 ∧ clauseCount < 2 ^ 31 := by
  simp only [headerVariables?, words_headerLine, Option.bind_eq_bind, Option.bind_eq_some_iff,
    Option.some.injEq, Prod.exists, read?_eq_some_iff, denotes_ofNat_iff, scan_ofNat_eq_some_iff,
    ← exists_toInt_eq_iff]
  refine ⟨?_, ?_⟩
  · rintro ⟨k, hk, m, _, ⟨hm, -⟩, rfl⟩
    exact ⟨by omega, ⟨k, hk⟩, ⟨m, hm⟩⟩
  · rintro ⟨rfl, ⟨k, hk⟩, ⟨m, hm⟩⟩
    exact ⟨k, hk, m, [], ⟨hm, rfl⟩, by omega⟩

theorem words_clauseLine (c : Clause) :
    words (clauseLine c) = c.literals.map Literal.digits ++ [['0']] := by
  unfold clauseLine
  -- Each literal is a word of its own, since a space follows it.
  induction c.literals with
  | nil => rfl
  | cons l ls ih =>
    have hdigits := denotes_digits l
    have hspace : GapFirst ([' '] ++ (ls.flatMap (·.digits ++ [' ']) ++ ['0'])) := by
      intro d hd
      obtain rfl : ' ' = d := Option.some.inj hd
      rfl
    rw [List.flatMap_cons, List.append_assoc, List.append_assoc,
      words_append hdigits.ne_nil hdigits.isGap_eq_false hspace,
      words_gaps_append gaps_space.gap, ih]
    rfl

/-- A written clause is read as itself. -/
@[simp] theorem clause?_clauseLine (c : Clause) : clause? (clauseLine c) = some c := by
  rw [clause?_eq_some_iff, words_clauseLine]
  refine List.rel_append ?_ (.cons ?_ .nil)
  · rw [List.forall₂_map_left_iff, List.forall₂_map_right_iff, List.forall₂_same]
    exact fun l _ => denotes_digits l
  · exact denotes_ofInt 0

/-! ## Written texts -/

theorem trimmed_append {cs ds : List Char} (hcs : cs ≠ []) (hds : ds ≠ [])
    (hhead : ∀ c ∈ cs.head?, isBlank c = false) (hlast : ∀ c ∈ ds.getLast?, isBlank c = false) :
    Trimmed (cs ++ ds) := by
  refine ⟨?_, ?_⟩
  · rwa [List.head?_append_of_ne_nil _ hcs]
  · rwa [List.getLast?_append_of_ne_nil _ hds]

theorem nameLine_eq (index : Nat) (name : String) :
    nameLine index name = 'c' :: ' ' :: (Numeral.ofNat index ++ [' ']) ++ name.toList := by
  simp [nameLine]

theorem isContentLine_nameLine {index : Nat} {name : String} (h : PlainName name) :
    '\n' ∉ nameLine index name ∧ Trimmed (nameLine index name) ∧ nameLine index name ≠ [] := by
  have hdigits : '\n' ∉ Numeral.ofNat index := not_mem_ofNat_of_not_isDigit rfl
  refine ⟨by simp [nameLine, hdigits, h.no_line_feed], ?_, by simp [nameLine]⟩
  rw [nameLine_eq]
  exact trimmed_append (by simp) h.toList_ne_nil (by simp; decide) h.trimmed.last

theorem isContentLine_headerLine (variableCount clauseCount : Nat) :
    '\n' ∉ headerLine variableCount clauseCount ∧ Trimmed (headerLine variableCount clauseCount) ∧
      headerLine variableCount clauseCount ≠ [] := by
  have hv : '\n' ∉ Numeral.ofNat variableCount := not_mem_ofNat_of_not_isDigit rfl
  have hc : '\n' ∉ Numeral.ofNat clauseCount := not_mem_ofNat_of_not_isDigit rfl
  refine ⟨by simp [headerLine, hv, hc], ?_, by simp [headerLine]⟩
  have hlast : ∀ c ∈ (Numeral.ofNat clauseCount).getLast?, isBlank c = false := fun c hc =>
    isBlank_eq_false_of_isDigit (isDigit_of_mem_ofNat (List.mem_of_getLast? hc))
  have heq : headerLine variableCount clauseCount =
      (['p', ' ', 'c', 'n', 'f', ' '] ++ Numeral.ofNat variableCount ++ [' ']) ++
        Numeral.ofNat clauseCount := by simp [headerLine]
  rw [heq]
  exact trimmed_append (by simp) (ofNat_ne_nil clauseCount) (by simp; decide) hlast

/-- A clause line starts with a digit or a minus. -/
theorem head?_clauseLine {c : Clause} {d : Char} (h : d ∈ (clauseLine c).head?) :
    isBlank d = false ∧ d ≠ 'c' := by
  unfold clauseLine at h
  -- The line starts with its first literal or, if there is none, with the final zero.
  cases hl : c.literals with
  | nil =>
    rw [hl] at h
    obtain rfl : '0' = d := Option.some.inj h
    decide
  | cons l ls =>
    rw [hl, List.flatMap_cons, List.append_assoc, List.append_assoc,
      List.head?_append_of_ne_nil _ (denotes_digits l).ne_nil] at h
    have hmem : d ∈ l.digits := List.mem_of_head? h
    refine ⟨isBlank_of_mem_ofInt hmem, ?_⟩
    rintro rfl
    rcases mem_ofInt hmem with h | h
    · exact absurd h (by decide)
    · exact absurd h (by decide)

theorem isContentLine_clauseLine (c : Clause) :
    '\n' ∉ clauseLine c ∧ Trimmed (clauseLine c) ∧ clauseLine c ≠ [] := by
  have hdigits : ∀ l ∈ c.literals, '\n' ∉ l.digits := fun l _ => not_mem_digits_of_isBlank rfl
  refine ⟨?_, ⟨fun d hd => (head?_clauseLine hd).1, ?_⟩, by simp [clauseLine]⟩
  · simp only [clauseLine, List.mem_append, List.mem_flatMap, List.mem_singleton, not_or,
      not_exists, not_and]
    exact ⟨fun l hl => ⟨hdigits l hl, by decide⟩, by decide⟩
  · intro d hd
    rw [clauseLine, List.getLast?_concat] at hd
    obtain rfl : '0' = d := Option.some.inj hd
    rfl

theorem nameLines_eq (l : ClauseList) :
    nameLines l = l.numbering.entries.map fun (index, name) => nameLine index name := by
  unfold nameLines ClauseList.numbering
  cases l.variableMap <;> rfl

/-- The lines that the names of a list put into the written text. -/
def nameContent (l : ClauseList) : List (List Char) :=
  (nameLines l).flatMap contentLines

/-- The content of a written text is what the names put there, the header and the clauses. -/
theorem contentLines_writeChars (l : ClauseList) : contentLines (writeChars l) =
    nameContent l ++ headerLine l.variableCount l.size :: l.clauses.map clauseLine := by
  have hbehind : ∀ line ∈ headerLine l.variableCount l.size :: l.clauses.map clauseLine,
      '\n' ∉ line ∧ Trimmed line ∧ line ≠ [] := by
    intro line hline
    rcases List.mem_cons.1 hline with rfl | hline
    · exact isContentLine_headerLine _ _
    · obtain ⟨c, -, rfl⟩ := List.mem_map.1 hline
      exact isContentLine_clauseLine c
  rw [writeChars, contentLines_flatMap_eq, writtenLines, List.flatMap_append,
    ← contentLines_flatMap_eq (headerLine _ _ :: _), contentLines_flatMap hbehind, nameContent]

/-- Plain names put their own comments into the text and nothing else. -/
theorem nameContent_eq {l : ClauseList} (hnames : ∀ name ∈ l.numbering.names, PlainName name) :
    nameContent l = nameLines l := by
  rw [nameContent, ← contentLines_flatMap_eq]
  refine contentLines_flatMap fun line hline => ?_
  rw [nameLines_eq] at hline
  obtain ⟨⟨index, name⟩, hentry, rfl⟩ := List.mem_map.1 hline
  obtain ⟨v, -, hname⟩ := VariableMap.mem_entries_iff.1 hentry
  exact isContentLine_nameLine (hnames name (VariableMap.mem_names_iff.2 ⟨v, hname⟩))

/-- The content of a text that is written with plain names is its lines. -/
theorem contentLines_writeChars_of_plainName {l : ClauseList}
    (hnames : ∀ name ∈ l.numbering.names, PlainName name) :
    contentLines (writeChars l) = writtenLines l := by
  rw [contentLines_writeChars, nameContent_eq hnames, writtenLines]

@[simp] theorem isComment_clauseLine (c : Clause) : isComment (clauseLine c) = false := by
  rw [isComment, beq_eq_false_iff_ne]
  exact fun h => (head?_clauseLine (Option.mem_def.2 h)).2 rfl

/-- The header and the clauses are no comments. -/
theorem filter_headerLine_cons (variableCount clauseCount : Nat) (clauses : List Clause) :
    (headerLine variableCount clauseCount :: clauses.map clauseLine).filter (!isComment ·) =
      headerLine variableCount clauseCount :: clauses.map clauseLine := by
  refine List.filter_eq_self.2 fun line hline => ?_
  rcases List.mem_cons.1 hline with rfl | hline
  · simp [isComment, headerLine]
  · obtain ⟨c, -, rfl⟩ := List.mem_map.1 hline
    rw [isComment_clauseLine, Bool.not_false]

/-- The lines that are no comments are the header and the clauses. -/
theorem filter_writtenLines (l : ClauseList) : (writtenLines l).filter (!isComment ·) =
    headerLine l.variableCount l.size :: l.clauses.map clauseLine := by
  have hnames : (nameLines l).filter (!isComment ·) = [] := by
    rw [List.filter_eq_nil_iff, nameLines_eq]
    intro line hline
    obtain ⟨entry, -, rfl⟩ := List.mem_map.1 hline
    simp [isComment, nameLine]
  rw [writtenLines, List.filter_append, hnames, List.nil_append, filter_headerLine_cons]

/-- The namings of a written text are the numbering. -/
theorem mem_namings_writtenLines_iff {l : ClauseList}
    (hnames : ∀ name ∈ l.numbering.names, PlainName name) {v : Variable} {name : String} :
    (v, name) ∈ (writtenLines l).filterMap naming? ↔ l.numbering.name? v = some name := by
  -- Each line of a name is read as naming just that variable.
  have hline : ∀ {w : Variable} {other : String}, l.numbering.name? w = some other →
      naming? (nameLine w.index other) = some (w, other) := by
    intro w other hw
    have hplain := hnames other (VariableMap.mem_names_iff.2 ⟨w, hw⟩)
    exact naming?_eq_some_iff.2 (namesVariable_nameLine w.index_pos w.index_le hplain)
  rw [List.mem_filterMap]
  refine ⟨?_, ?_⟩
  · intro h
    obtain ⟨line, hmem, hnaming⟩ := h
    rcases List.mem_append.1 hmem with hmem | hmem
    · rw [nameLines_eq] at hmem
      obtain ⟨⟨index, other⟩, hentry, rfl⟩ := List.mem_map.1 hmem
      obtain ⟨w, rfl, hw⟩ := VariableMap.mem_entries_iff.1 hentry
      rw [hline hw] at hnaming
      obtain ⟨rfl, rfl⟩ := Prod.mk.inj (Option.some.inj hnaming)
      exact hw
    · -- What follows the names is no comment.
      have hfilter : line ∈ (writtenLines l).filter (!isComment ·) := by
        rw [filter_writtenLines]
        exact hmem
      have hcomment := (List.mem_filter.1 hfilter).2
      rw [Bool.not_eq_true'] at hcomment
      rw [naming?_eq_none hcomment] at hnaming
      cases hnaming
  · intro hv
    refine ⟨nameLine v.index name, List.mem_append_left _ ?_, hline hv⟩
    rw [nameLines_eq]
    exact List.mem_map.2 ⟨(v.index, name), VariableMap.mem_entries_iff.2 ⟨v, rfl, hv⟩, rfl⟩

/-! ## Names read back -/

/-- A variable beyond the numbering has a numeral that the numbering uses as a name. -/
def Clashes (l : ClauseList) : Prop :=
  ∃ index ≤ l.variableCount, l.numbering.size < index ∧ index.repr ∈ l.numbering.names

instance (l : ClauseList) : Decidable (Clashes l) :=
  inferInstanceAs (Decidable (∃ index ≤ l.variableCount,
    l.numbering.size < index ∧ index.repr ∈ l.numbering.names))

section Names

variable {l : ClauseList} (hnames : ∀ name ∈ l.numbering.names, PlainName name)
include hnames

/-- A variable gets its own name back, and its numeral if it has none. -/
theorem nameOf_writtenLines (v : Variable) : nameOf ((writtenLines l).filterMap naming?) v.index =
    (l.numbering.name? v).getD v.index.repr := by
  rcases nameOf_eq_iff.1 rfl with ⟨before, w, after, hsplit, hw, -⟩ | ⟨hnone, heq⟩
  · obtain rfl := Variable.ext_index hw
    have hmem := hsplit ▸ List.mem_append_right before List.mem_cons_self
    rw [(mem_namings_writtenLines_iff hnames).1 hmem, Option.getD_some]
  · rw [heq]
    cases hv : l.numbering.name? v with
    | none => rw [Option.getD_none]
    | some name => exact absurd rfl (hnone _ ((mem_namings_writtenLines_iff hnames).2 hv))

theorem mentioned_writtenLines : mentioned ((writtenLines l).filterMap naming?) l.variableCount
    l.clauses = l.variableCount := by
  have hcount := l.variableCount_eq
  apply Nat.le_antisymm
  · refine mentioned_le_iff.2 ⟨Nat.le_refl _, ?_, ?_⟩
    · exact ClauseList.highestIndex_le_iff.1 (by omega)
    · rintro ⟨v, name⟩ hmem
      have hv := (mem_namings_writtenLines_iff hnames).1 hmem
      have hle := VariableMap.name?_isSome_iff.1 (Option.isSome_of_eq_some hv)
      show v.index ≤ l.variableCount
      omega
  · exact (mentioned_le_iff.1 (Nat.le_refl _)).1

/-- The names read back are distinct unless a numeral that is needed is taken. -/
theorem nodup_namesUpTo_writtenLines_iff :
    (namesUpTo ((writtenLines l).filterMap naming?) l.variableCount).Nodup ↔ ¬Clashes l := by
  have hmax := l.variableCount_le_maxIndex
  rw [nodup_namesUpTo_iff]
  refine ⟨?_, ?_⟩
  · rintro hinj ⟨index, hle, hlt, hmem⟩
    obtain ⟨v, hv⟩ := VariableMap.mem_names_iff.1 hmem
    have hsize := VariableMap.name?_isSome_iff.1 (Option.isSome_of_eq_some hv)
    have hpos := v.index_pos
    let w : Variable := ⟨index, by omega, by omega⟩
    have hnone : l.numbering.name? w = none := VariableMap.name?_eq_none_iff.2 hlt
    -- The variable of that name and the one beyond the numbering get the same name.
    have hsame : nameOf ((writtenLines l).filterMap naming?) v.index =
        nameOf ((writtenLines l).filterMap naming?) w.index := by
      rw [nameOf_writtenLines hnames, nameOf_writtenLines hnames, hv, hnone]
      rfl
    have heq : v.index = index := hinj v.index index hpos (by omega) (by omega) hle hsame
    omega
  · intro hclash i j hi hic hj hjc heq
    let v : Variable := ⟨i, hi, by omega⟩
    let w : Variable := ⟨j, hj, by omega⟩
    -- A numeral that is no name of the numbering.
    have hfree : ∀ u : Variable, u.index ≤ l.variableCount → l.numbering.name? u = none →
        ∀ u', l.numbering.name? u' ≠ some u.index.repr := by
      intro u hu hnone u' hu'
      refine hclash ⟨u.index, hu, VariableMap.name?_eq_none_iff.1 hnone, ?_⟩
      exact VariableMap.mem_names_iff.2 ⟨u', hu'⟩
    have hname : (l.numbering.name? v).getD i.repr = (l.numbering.name? w).getD j.repr := by
      rw [← nameOf_writtenLines hnames v, ← nameOf_writtenLines hnames w]
      exact heq
    -- Two given names belong to one variable, two numerals to one index, and a given name is no
    -- numeral that is needed.
    cases hv : l.numbering.name? v with
    | some name =>
      cases hw : l.numbering.name? w with
      | some other =>
        rw [hv, hw, Option.getD_some, Option.getD_some] at hname
        subst hname
        exact congrArg Variable.index (VariableMap.name?_inj hv hw)
      | none =>
        rw [hv, hw, Option.getD_some, Option.getD_none] at hname
        exact absurd (hname ▸ hv) (hfree w hjc hw v)
    | none =>
      cases hw : l.numbering.name? w with
      | some other =>
        rw [hv, hw, Option.getD_some, Option.getD_none] at hname
        exact absurd (hname ▸ hw) (hfree v hic hv w)
      | none =>
        rw [hv, hw, Option.getD_none, Option.getD_none] at hname
        exact Nat.repr_inj.1 hname

end Names

/-! ## Reading what is written -/

/-- Reading a written text is numbering its variables again. -/
theorem read_write_eq {l : ClauseList} (hsize : l.size < 2 ^ 31) (hcount : l.variableCount < 2 ^ 31)
    (hnames : ∀ name ∈ l.numbering.names, PlainName name) : read (write l) =
      number ((writtenLines l).filterMap naming?) l.variableCount l.clauses := by
  have hlines : (contentLines (writeChars l)).filter (!isComment ·) =
      headerLine l.variableCount l.size :: l.clauses.map clauseLine := by
    rw [contentLines_writeChars_of_plainName hnames, filter_writtenLines]
  have hclauses : (l.clauses.map clauseLine).mapM readClause = .ok l.clauses := by
    rw [mapM_eq_ok_iff, List.forall₂_map_left_iff, List.forall₂_same]
    exact fun c _ => readClause_eq_ok_iff.2 (clause?_clauseLine c)
  have hheader := headerVariables?_headerLine_eq_some_iff.2 ⟨rfl, hcount, hsize⟩
  rw [read, toList_write, readChars_of_header hlines hheader, hclauses,
    contentLines_writeChars_of_plainName hnames]
  rfl

section Outcomes

variable {l : ClauseList} (hsize : l.size < 2 ^ 31) (hcount : l.variableCount ≤ 2 ^ 24)
  (hnames : ∀ name ∈ l.numbering.names, PlainName name)
include hsize hcount hnames

theorem read_write_of_clashes (hclash : Clashes l) : read (write l) = .error .repeatedName := by
  have hmentioned := mentioned_writtenLines hnames
  rw [read_write_eq hsize (by omega) hnames]
  apply number_of_not_nodup (hmentioned.trans_le hcount)
  rw [hmentioned, nodup_namesUpTo_writtenLines_iff hnames]
  exact not_not_intro hclash

theorem exists_read_write (hclash : ¬Clashes l) :
    ∃ m, read (write l) = .ok ⟨l.clauses, some m⟩ ∧ m.size = l.variableCount ∧
      ∀ v : Variable, v.index ≤ l.variableCount →
        m.name? v = some ((l.numbering.name? v).getD v.index.repr) := by
  have hmentioned := mentioned_writtenLines hnames
  have hnodup := (nodup_namesUpTo_writtenLines_iff hnames).2 hclash
  have hlength := length_namesUpTo ((writtenLines l).filterMap naming?) l.variableCount
  have hmax := l.variableCount_le_maxIndex
  obtain ⟨m, hm⟩ := VariableMap.exists_names_eq hnodup (by omega)
  refine ⟨m, ?_, ?_, ?_⟩
  · rw [read_write_eq hsize (by omega) hnames,
      number_of_names_eq (hmentioned.trans_le hcount) (by rw [hm, hmentioned])]
  · exact size_of_names_eq hm
  · intro v hv
    exact (name?_of_names_eq hm).2 ⟨hv, nameOf_writtenLines hnames v⟩

/-- A list whose numbering covers all its variables comes back as it is. -/
theorem read_write_of_covered {m : VariableMap} (hm : l.variableMap = some m)
    (hcovered : ∀ c ∈ l.clauses, ∀ lit ∈ c, lit.var.index ≤ m.size) :
    read (write l) = .ok l := by
  have hnumbering := ClauseList.numbering_of_eq_some hm
  have hvariables : l.variableCount = m.size := by
    have hhighest := ClauseList.highestIndex_le_iff.2 hcovered
    rw [ClauseList.variableCount_eq, hnumbering]
    omega
  have hclash : ¬Clashes l := by
    intro h
    obtain ⟨index, hle, hlt, -⟩ := h
    rw [hnumbering] at hlt
    omega
  obtain ⟨k, hk, hksize, hkname⟩ := exists_read_write hsize hcount hnames hclash
  have hkm : k = m := by
    apply VariableMap.ext_name?
    intro v
    by_cases hv : v.index ≤ m.size
    · obtain ⟨name, hname⟩ := Option.isSome_iff_exists.1 (VariableMap.name?_isSome_iff.2 hv)
      rw [hkname v (by omega), hnumbering, hname, Option.getD_some]
    · -- Neither map names a variable beyond its size, and the sizes agree.
      rw [VariableMap.name?_eq_none_iff.2 (by omega), VariableMap.name?_eq_none_iff.2 (by omega)]
  rw [hk, hkm, ← hm]

end Outcomes

/-- Reading undoes writing. The clauses come back as they are, and the numbering comes back extended
to all variables, each variable that it did not name being named by its numeral. Only if such a
numeral is the name of another variable is the written text refused. -/
theorem read_write (l : ClauseList) (hsize : l.size < 2 ^ 31) (hcount : l.variableCount ≤ 2 ^ 24)
    (hnames : ∀ name ∈ l.numbering.names, PlainName name) :
    (Clashes l → (read (write l)).mapError ReadError.message =
      .error "variable names are not unique") ∧
    (¬Clashes l → ∃ m, read (write l) = .ok ⟨l.clauses, some m⟩ ∧ m.size = l.variableCount ∧
      ∀ v : Variable, v.index ≤ l.variableCount →
        m.name? v = some ((l.numbering.name? v).getD v.index.repr)) ∧
    (∀ m, l.variableMap = some m → (∀ c ∈ l.clauses, ∀ lit ∈ c, lit.var.index ≤ m.size) →
      read (write l) = .ok l) := by
  refine ⟨?_, exists_read_write hsize hcount hnames, ?_⟩
  · intro hclash
    rw [read_write_of_clashes hsize hcount hnames hclash]
    rfl
  · intro m hm hcovered
    exact read_write_of_covered hsize hcount hnames hm hcovered

/-- Empty, repeated and contradictory clauses with a variable beyond the three names given. -/
def misleading (names : List String) (hnodup : names.Nodup) (hlength : names.length = 3) :
    ClauseList where
  clauses :=
    [⟨[]⟩, ⟨[.ofVar ⟨1, by decide, by decide⟩ true, .ofVar ⟨1, by decide, by decide⟩ false]⟩, ⟨[]⟩,
      ⟨[.ofVar ⟨4, by decide, by decide⟩ false]⟩]
  variableMap := some ⟨names, hnodup, hlength.trans_le (by decide)⟩

/-- Names that look like headers, comments or numbers come back, unless one is a numeral needed. -/
theorem read_write_misleading :
    (∃ m, read (write (misleading ["p cnf 9 9", "c 1 x", "-4"] (by decide) rfl)) =
        .ok ⟨(misleading ["p cnf 9 9", "c 1 x", "-4"] (by decide) rfl).clauses, some m⟩ ∧
      m.size = 4 ∧ m.name? ⟨2, by decide, by decide⟩ = some "c 1 x" ∧
      m.name? ⟨4, by decide, by decide⟩ = some "4") ∧
    (read (write (misleading ["p cnf 9 9", "4", "-4"] (by decide) rfl))).mapError
      ReadError.message = .error "variable names are not unique" := by
  refine ⟨?_, ?_⟩
  · obtain ⟨m, hread, hsize, hname⟩ := (read_write
      (misleading ["p cnf 9 9", "c 1 x", "-4"] (by decide) rfl)
      (by decide) (by decide) (by decide)).2.1 (by decide)
    exact ⟨m, hread, hsize, hname ⟨2, by decide, by decide⟩ (by decide),
      (hname ⟨4, by decide, by decide⟩ (by decide)).trans (by decide)⟩
  · exact (read_write (misleading ["p cnf 9 9", "4", "-4"] (by decide) rfl)
      (by decide) (by decide) (by decide)).1 (by decide)

end Clausal.Dimacs
