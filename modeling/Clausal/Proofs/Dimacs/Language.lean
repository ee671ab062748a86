/-
  Clausal.Proofs.Dimacs.Language

  Which texts are read, as which clause list, and with which message a text is refused. `Reads` says
  so in one case for each outcome, and none of the cases mentions how a text is read: the content of
  a text, the header, the naming comments, the names and the number of variables are described by
  what they are. Reading a text gives exactly the outcome described (`mapError_read_eq_iff`), so
  there is one for every text and never two.
-/
import Clausal.Proofs.Dimacs.Reading
import Mathlib.Algebra.Group.Nat.Defs

namespace Clausal.Dimacs

open Text

/-! ## Descriptions -/

/-- The second text is the first one without the blanks at its ends. -/
def TrimsTo (line core : List Char) : Prop :=
  Trimmed core ∧ ∃ before after, line = before ++ core ++ after ∧
    (∀ c ∈ before, isBlank c = true) ∧ ∀ c ∈ after, isBlank c = true

/-- The content of a text: the texts between its line feeds, without blanks at their ends, as far as
they are not empty. -/
inductive IsContent (text : List Char) : List (List Char) → Prop where
  | intro {raw cores : List (List Char)} : raw ≠ [] → (∀ line ∈ raw, '\n' ∉ line) →
      ['\n'].intercalate raw = text → List.Forall₂ TrimsTo raw cores →
      IsContent text (cores.filter (· ≠ []))

/-- The lines of a content that are no comments are a header and clauses. -/
inductive Accepted (content : List (List Char)) (declared : Int32) (clauses : List Clause) :
    Prop where
  | intro {header : List Char} {body : List (List Char)} :
      content.filter (!isComment ·) = header :: body → IsHeader header declared →
      List.Forall₂ (fun line c => clause? line = some c) body clauses →
      Accepted content declared clauses

/-- The numbers that bound the number of variables from below: zero, the number in the header, the
index of every variable in a clause and the index in every naming comment. -/
inductive Mentions (content : List (List Char)) (declared : Int32) (clauses : List Clause) :
    Nat → Prop where
  | zero : Mentions content declared clauses 0
  | header {k : Nat} : declared.toInt = k → Mentions content declared clauses k
  | clause {c : Clause} {l : Literal} : c ∈ clauses → l ∈ c →
      Mentions content declared clauses l.var.index
  | comment {line : List Char} {k : Nat} {name : String} : line ∈ content →
      NamesVariable line k name → Mentions content declared clauses k

/-- The name of the variable with an index: the one of the last comment that names it, otherwise the
numeral of the index. -/
inductive HasName (content : List (List Char)) (index : Nat) : String → Prop where
  | comment {before after : List (List Char)} {line : List Char} {name : String} :
      content = before ++ line :: after → NamesVariable line index name →
      (∀ later ∈ after, ∀ other, ¬NamesVariable later index other) → HasName content index name
  | numeral : (∀ line ∈ content, ∀ name, ¬NamesVariable line index name) →
      HasName content index index.repr

/-- What a text is read as, or the message with which it is refused. Each case assumes that the
checks before its own have passed. -/
inductive Reads (text : List Char) : Except String ClauseList → Prop where
  /-- All lines are comments. -/
  | emptyInput {content : List (List Char)} : IsContent text content →
      content.filter (!isComment ·) = [] → Reads text (.error "empty input")
  /-- The first line that is no comment is no header. -/
  | invalidHeader {content : List (List Char)} {header : List Char} {body : List (List Char)} :
      IsContent text content → content.filter (!isComment ·) = header :: body →
      (∀ declared, ¬IsHeader header declared) → Reads text (.error "invalid dimacs header")
  /-- Some later line that is no comment is no clause; the first such line is reported. -/
  | invalidClause {content : List (List Char)} {header line : List Char}
      {before after : List (List Char)} {declared : Int32} : IsContent text content →
      content.filter (!isComment ·) = header :: (before ++ line :: after) →
      IsHeader header declared → (∀ earlier ∈ before, clause? earlier ≠ none) →
      clause? line = none → Reads text (.error ("invalid clause '" ++ String.ofList line ++ "'"))
  /-- A number above the limit is mentioned. -/
  | tooManyVariables {content : List (List Char)} {declared : Int32} {clauses : List Clause}
      {count : Nat} : IsContent text content → Accepted content declared clauses →
      IsGreatest {k | Mentions content declared clauses k} count → 2 ^ 24 < count →
      Reads text (.error (toString count ++ " variables exceed the supported maximum of 16777216"))
  /-- Two variables have one name. -/
  | repeatedName {content : List (List Char)} {declared : Int32} {clauses : List Clause}
      {count i j : Nat} {name : String} : IsContent text content →
      Accepted content declared clauses →
      IsGreatest {k | Mentions content declared clauses k} count → count ≤ 2 ^ 24 →
      0 < i → i < j → j ≤ count → HasName content i name → HasName content j name →
      Reads text (.error "variable names are not unique")
  /-- Every variable has a name of its own. -/
  | ok {content : List (List Char)} {declared : Int32} {clauses : List Clause} {count : Nat}
      {m : VariableMap} : IsContent text content → Accepted content declared clauses →
      IsGreatest {k | Mentions content declared clauses k} count → count ≤ 2 ^ 24 →
      (∀ i j name, 0 < i → i ≤ count → 0 < j → j ≤ count → HasName content i name →
        HasName content j name → i = j) →
      (∀ v name, m.name? v = some name ↔ v.index ≤ count ∧ HasName content v.index name) →
      Reads text (.ok ⟨clauses, some m⟩)

/-! ## The descriptions and the functions of the reader -/

theorem trimsTo_iff {line core : List Char} : TrimsTo line core ↔ trim line = core :=
  trim_eq_iff.symm

theorem isContent_iff {text : List Char} {content : List (List Char)} :
    IsContent text content ↔ contentLines text = content := by
  refine ⟨?_, ?_⟩
  · rintro @⟨raw, cores, hne, hraw, htext, hcores⟩
    have hlines := lines_eq_iff.2 ⟨hne, hraw, htext⟩
    have htrim : List.Forall₂ (fun line core => trim line = core) raw cores :=
      hcores.imp fun _ _ => trimsTo_iff.1
    rw [← List.forall₂_map_left_iff, List.forall₂_eq_eq_eq] at htrim
    rw [contentLines, hlines, htrim]
  · rintro rfl
    obtain ⟨hne, hraw, htext⟩ := lines_eq_iff.1 (rfl : lines text = lines text)
    refine .intro hne hraw htext ?_
    rw [List.forall₂_map_right_iff, List.forall₂_same]
    exact fun line _ => trimsTo_iff.2 rfl

theorem namesVariable_iff {line : List Char} {index : Nat} {name : String} :
    NamesVariable line index name ↔ ∃ v, naming? line = some (v, name) ∧ v.index = index := by
  refine ⟨?_, ?_⟩
  · intro h
    refine ⟨⟨index, h.index_pos, h.index_le⟩, naming?_eq_some_iff.2 h, rfl⟩
  · intro h
    obtain ⟨v, hv, rfl⟩ := h
    exact naming?_eq_some_iff.1 hv

/-- The indices of the namings are those that comments name. -/
theorem forall_namings_iff (q : Nat → Prop) {content : List (List Char)} :
    (∀ naming ∈ content.filterMap naming?, q naming.1.index) ↔
      ∀ line ∈ content, ∀ index name, NamesVariable line index name → q index := by
  simp only [List.mem_filterMap, namesVariable_iff]
  refine ⟨?_, ?_⟩
  · rintro h line hline index name ⟨v, hv, rfl⟩
    exact h (v, name) ⟨line, hline, hv⟩
  · rintro h ⟨v, name⟩ ⟨line, hline, hv⟩
    exact h line hline v.index name ⟨v, hv, rfl⟩

theorem hasName_iff {content : List (List Char)} {index : Nat} {name : String} :
    HasName content index name ↔ nameOf (content.filterMap naming?) index = name := by
  rw [nameOf_eq_iff]
  refine ⟨?_, ?_⟩
  · intro h
    cases h with
    | @comment before after line _ hcontent hline hafter =>
      obtain ⟨v, hv, hindex⟩ := namesVariable_iff.1 hline
      refine .inl ⟨before.filterMap naming?, v, after.filterMap naming?, ?_, hindex, ?_⟩
      · rw [hcontent, List.filterMap_append, List.filterMap_cons_some hv]
      · refine (forall_namings_iff (· ≠ index)).2 ?_
        rintro later hlater _ other hnames rfl
        exact hafter later hlater other hnames
    | numeral hnone =>
      refine .inr ⟨(forall_namings_iff (· ≠ index)).2 ?_, rfl⟩
      rintro line hline _ other hnames rfl
      exact hnone line hline other hnames
  · rintro (⟨before, v, after, hsplit, hindex, hafter⟩ | ⟨hnone, rfl⟩)
    · -- The namings before and after the last one come from the lines before and after it.
      obtain ⟨lines₁, lines₂, rfl, -, hlines₂⟩ := List.filterMap_eq_append_iff.1 hsplit
      obtain ⟨lines₃, line, lines₄, rfl, -, hline, rfl⟩ := List.filterMap_eq_cons_iff.1 hlines₂
      refine .comment (List.append_assoc ..).symm (namesVariable_iff.2 ⟨v, hline, hindex⟩) ?_
      intro later hlater other hnames
      exact (forall_namings_iff (· ≠ index)).1 hafter later hlater index other hnames rfl
    · refine .numeral ?_
      intro line hline other hnames
      exact (forall_namings_iff (· ≠ index)).1 hnone line hline index other hnames rfl

/-- The names up to a number are distinct when no name belongs to two variables up to it. -/
theorem nodup_names_iff {content : List (List Char)} {count : Nat} :
    (namesUpTo (content.filterMap naming?) count).Nodup ↔
      ∀ i j name, 0 < i → i ≤ count → 0 < j → j ≤ count → HasName content i name →
        HasName content j name → i = j := by
  rw [nodup_namesUpTo_iff]
  simp only [hasName_iff]
  refine ⟨?_, ?_⟩
  · rintro h i j name hi hic hj hjc hnamei rfl
    exact h i j hi hic hj hjc hnamei
  · intro h i j hi hic hj hjc heq
    exact h i j _ hi hic hj hjc heq rfl

theorem exists_names_eq {content : List (List Char)} {count : Nat} (hle : count ≤ 2 ^ 24)
    (h : (namesUpTo (content.filterMap naming?) count).Nodup) :
    ∃ m : VariableMap, m.names = namesUpTo (content.filterMap naming?) count := by
  apply VariableMap.exists_names_eq h
  rw [length_namesUpTo]
  exact hle.trans (by decide)

/-- The number of variables that the reader finds is the greatest one that is mentioned. -/
theorem isGreatest_mentioned (content : List (List Char)) (declared : Int32)
    (clauses : List Clause) : IsGreatest {k | Mentions content declared clauses k}
      (mentioned (content.filterMap naming?) declared.toInt.toNat clauses) := by
  generalize hn : mentioned (content.filterMap naming?) declared.toInt.toNat clauses = n
  obtain ⟨hheader, hclauses, hcomments⟩ := mentioned_le_iff.1 hn.le
  rw [forall_namings_iff (· ≤ n)] at hcomments
  refine ⟨?_, ?_⟩
  · -- Otherwise everything that is mentioned would be below `n`, and so would be `n`.
    by_contra hnot
    have hne : ∀ k, Mentions content declared clauses k → k ≠ n := fun k hk heq => hnot (heq ▸ hk)
    have hpos : n ≠ 0 := fun h => hne 0 .zero h.symm
    have hle : mentioned (content.filterMap naming?) declared.toInt.toNat clauses ≤ n - 1 := by
      refine mentioned_le_iff.2 ⟨?_, ?_, ?_⟩
      · have : declared.toInt.toNat ≠ n := fun h => hne n (.header (by omega)) rfl
        omega
      · intro c hc l hl
        have := hclauses c hc l hl
        have := hne _ (.clause hc hl)
        omega
      · refine (forall_namings_iff (· ≤ n - 1)).2 ?_
        intro line hline index name hnames
        have := hcomments line hline index name hnames
        have := hne _ (.comment hline hnames)
        omega
    omega
  · rintro k (_ | hk | ⟨hc, hl⟩ | ⟨hline, hnames⟩)
    · exact Nat.zero_le n
    · omega
    · exact hclauses _ hc _ hl
    · exact hcomments _ hline _ _ hnames

/-! ## Outcomes -/

theorem message_tooManyVariables (count : Nat) : ReadError.message (.tooManyVariables count) =
    toString count ++ " variables exceed the supported maximum of 16777216" := by
  have htext : " variables exceed the supported maximum of " ++ toString maxVariables =
      " variables exceed the supported maximum of 16777216" := rfl
  rw [← htext, ← String.append_assoc]
  rfl

theorem mentioned_of_isGreatest {content : List (List Char)} {declared : Int32}
    {clauses : List Clause} {count : Nat}
    (h : IsGreatest {k | Mentions content declared clauses k} count) :
    mentioned (content.filterMap naming?) declared.toInt.toNat clauses = count :=
  (isGreatest_mentioned content declared clauses).unique h

section Lines

variable {text header : List Char} {body : List (List Char)}
  (hlines : (contentLines text).filter (!isComment ·) = header :: body)
include hlines

theorem headerVariables?_content_iff {n : Nat} : headerVariables? header = some n ↔
    ∃ declared, IsHeader header declared ∧ n = declared.toInt.toNat := by
  have hmem := List.mem_filter.1 (hlines ▸ List.mem_cons_self)
  exact headerVariables?_eq_some_iff (isGap_head?_of_mem_contentLines hmem.1)

theorem readChars_of_isHeader {declared : Int32} (h : IsHeader header declared) :
    readChars text = body.mapM readClause >>=
      number ((contentLines text).filterMap naming?) declared.toInt.toNat :=
  readChars_of_header hlines ((headerVariables?_content_iff hlines).2 ⟨declared, h, rfl⟩)

theorem readChars_of_not_isHeader (h : ∀ declared, ¬IsHeader header declared) :
    readChars text = .error .invalidHeader := by
  apply readChars_of_not_header hlines
  rw [Option.eq_none_iff_forall_not_mem]
  intro n hn
  obtain ⟨declared, hheader, -⟩ := (headerVariables?_content_iff hlines).1 hn
  exact h declared hheader

end Lines

/-- Reading a text whose lines are accepted is numbering its variables. -/
theorem readChars_of_accepted {text : List Char} {declared : Int32} {clauses : List Clause}
    (h : Accepted (contentLines text) declared clauses) : readChars text =
      number ((contentLines text).filterMap naming?) declared.toInt.toNat clauses := by
  obtain ⟨hlines, hheader, hbody⟩ := h
  have hclauses := mapM_eq_ok_iff.2 (hbody.imp fun _ _ => readClause_eq_ok_iff.2)
  rw [readChars_of_isHeader hlines hheader, hclauses]
  rfl

theorem mapError_readChars_of_reads {text : List Char} {result : Except String ClauseList}
    (h : Reads text result) : (readChars text).mapError ReadError.message = result := by
  cases h with
  | emptyInput hcontent hlines =>
    obtain rfl := isContent_iff.1 hcontent
    rw [readChars_of_nil hlines]
    rfl
  | invalidHeader hcontent hlines hheader =>
    obtain rfl := isContent_iff.1 hcontent
    rw [readChars_of_not_isHeader hlines hheader]
    rfl
  | @invalidClause _ _ line before after _ hcontent hlines hheader hbefore hline =>
    obtain rfl := isContent_iff.1 hcontent
    -- The clauses before the bad line are read, so its failure is the first one.
    have hbody : (before ++ line :: after).mapM readClause =
        .error (.invalidClause (String.ofList line)) := by
      refine mapM_eq_error_iff.2
        ⟨before, line, after, rfl, ?_, readClause_eq_error_iff.2 ⟨hline, rfl⟩⟩
      intro earlier hearlier
      obtain ⟨c, hc⟩ := Option.ne_none_iff_exists'.1 (hbefore earlier hearlier)
      exact ⟨c, readClause_eq_ok_iff.2 hc⟩
    rw [readChars_of_isHeader hlines hheader, hbody]
    rfl
  | tooManyVariables hcontent haccepted hcount hlt =>
    obtain rfl := isContent_iff.1 hcontent
    obtain rfl := mentioned_of_isGreatest hcount
    rw [readChars_of_accepted haccepted, number_of_lt hlt, Except.mapError,
      message_tooManyVariables]
  | repeatedName hcontent haccepted hcount hle hi hij hj hnamei hnamej =>
    obtain rfl := isContent_iff.1 hcontent
    obtain rfl := mentioned_of_isGreatest hcount
    rw [readChars_of_accepted haccepted, number_of_not_nodup hle]
    · rfl
    · intro hnodup
      have := nodup_names_iff.1 hnodup _ _ _ hi (by omega) (by omega) hj hnamei hnamej
      omega
  | @ok _ declared clauses _ m hcontent haccepted hcount hle hdistinct hm =>
    obtain rfl := isContent_iff.1 hcontent
    obtain rfl := mentioned_of_isGreatest hcount
    obtain ⟨m', hm'⟩ := exists_names_eq hle (nodup_names_iff.2 hdistinct)
    -- The names determine the map, so the one that is built is the one described.
    have hmaps : m' = m := by
      apply VariableMap.ext_name?
      intro v
      apply Option.ext
      intro name
      rw [name?_of_names_eq hm', hm, hasName_iff]
    rw [readChars_of_accepted haccepted, number_of_names_eq hle hm', hmaps]
    rfl

/-- With accepted lines, the number of variables and their names decide between the last three
outcomes. -/
theorem reads_of_accepted {text : List Char} {declared : Int32} {clauses : List Clause}
    (h : Accepted (contentLines text) declared clauses) :
    Reads text ((readChars text).mapError ReadError.message) := by
  have hcontent : IsContent text (contentLines text) := isContent_iff.2 rfl
  have hcount := isGreatest_mentioned (contentLines text) declared clauses
  rw [readChars_of_accepted h]
  by_cases hle : mentioned ((contentLines text).filterMap naming?) declared.toInt.toNat clauses ≤
      maxVariables
  · by_cases hnodup : (namesUpTo ((contentLines text).filterMap naming?) (mentioned
        ((contentLines text).filterMap naming?) declared.toInt.toNat clauses)).Nodup
    · obtain ⟨m, hm⟩ := exists_names_eq hle hnodup
      rw [number_of_names_eq hle hm]
      refine .ok hcontent h hcount hle (nodup_names_iff.1 hnodup) ?_
      intro v name
      rw [name?_of_names_eq hm, hasName_iff]
    · rw [number_of_not_nodup hle hnodup]
      rw [nodup_names_iff] at hnodup
      push Not at hnodup
      obtain ⟨i, j, name, hi, hic, hj, hjc, hnamei, hnamej, hne⟩ := hnodup
      -- The two variables in the order of their indices.
      rcases Nat.lt_or_gt_of_ne hne with hij | hij
      · exact .repeatedName hcontent h hcount hle hi hij hjc hnamei hnamej
      · exact .repeatedName hcontent h hcount hle hj hij hic hnamej hnamei
  · rw [number_of_lt (by omega), Except.mapError, message_tooManyVariables]
    exact .tooManyVariables hcontent h hcount (Nat.lt_of_not_le hle)

theorem reads_mapError_readChars (text : List Char) :
    Reads text ((readChars text).mapError ReadError.message) := by
  have hcontent : IsContent text (contentLines text) := isContent_iff.2 rfl
  cases hlines : (contentLines text).filter (!isComment ·) with
  | nil =>
    rw [readChars_of_nil hlines]
    exact .emptyInput hcontent hlines
  | cons header body =>
    by_cases hheader : ∃ declared, IsHeader header declared
    · obtain ⟨declared, hheader⟩ := hheader
      cases hbody : body.mapM readClause with
      | error e =>
        obtain ⟨before, line, after, rfl, hbefore, hline⟩ := mapM_eq_error_iff.1 hbody
        obtain ⟨hnone, rfl⟩ := readClause_eq_error_iff.1 hline
        rw [readChars_of_isHeader hlines hheader, hbody]
        refine .invalidClause hcontent hlines hheader ?_ hnone
        intro earlier hearlier
        obtain ⟨c, hc⟩ := hbefore earlier hearlier
        rw [readClause_eq_ok_iff.1 hc]
        exact Option.some_ne_none c
      | ok clauses =>
        have hclauses := (mapM_eq_ok_iff.1 hbody).imp fun _ _ => readClause_eq_ok_iff.1
        exact reads_of_accepted (.intro hlines hheader hclauses)
    · rw [not_exists] at hheader
      rw [readChars_of_not_isHeader hlines hheader]
      exact .invalidHeader hcontent hlines hheader

/-- Reading a text gives the clause list or the message that the description of the format says. -/
theorem mapError_read_eq_iff (text : String) (result : Except String ClauseList) :
    (read text).mapError ReadError.message = result ↔ Reads text.toList result := by
  refine ⟨?_, ?_⟩
  · rintro rfl
    exact reads_mapError_readChars text.toList
  · exact mapError_readChars_of_reads

end Clausal.Dimacs
