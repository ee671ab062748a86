/-
  Clausal.Proofs.Dimacs.Layout

  What a text says does not depend on how it is laid out. A layout edit changes the lines of a text
  in one place (`LayoutEdit`): how a line is ended, the blanks at its ends, blank lines, comments
  that name nothing, and on which side of a line a naming comment stands. Two texts have one layout
  class when a sequence of such edits, each done or undone, leads from one to the other
  (`SameLayout`).

  Reading collects two things from the trimmed lines of a text, each in order: the lines that are no
  comments and the namings. Whatever is collected from trimmed lines one by one stays the same under
  an edit, if blank lines and comments that name nothing give nothing and no line gives something
  that a naming comment could be moved past (`LayoutEdit.flatMap_trim_eq`). So no sequence of edits
  changes what is read or why a text is refused.
-/
import Clausal.Proofs.Dimacs.Language
import Mathlib.Logic.Relation

namespace Clausal.Dimacs

open Text

/-! ## Layout edits -/

/-- One edit of the layout of a text, seen on its lines without their line feeds. -/
inductive LayoutEdit : List (List Char) → List (List Char) → Prop where
  /-- The line feed behind a line is replaced by a carriage return and a line feed. -/
  | carriageReturn (before : List (List Char)) (line next : List Char)
      (after : List (List Char)) :
      LayoutEdit (before ++ line :: next :: after) (before ++ (line ++ ['\r']) :: next :: after)
  /-- Blanks are added at the ends of a line. -/
  | blanks (before : List (List Char)) (front line back : List Char)
      (after : List (List Char)) : (∀ c ∈ front, isBlank c = true) →
      (∀ c ∈ back, isBlank c = true) →
      LayoutEdit (before ++ line :: after) (before ++ (front ++ line ++ back) :: after)
  /-- A blank line is inserted. -/
  | blankLine (before : List (List Char)) (line : List Char) (after : List (List Char)) :
      (∀ c ∈ line, isBlank c = true) → LayoutEdit (before ++ after) (before ++ line :: after)
  /-- A comment line that names no variable is inserted. -/
  | comment (before : List (List Char)) (line : List Char) (after : List (List Char)) :
      isComment (trim line) = true → (∀ index name, ¬NamesVariable (trim line) index name) →
      LayoutEdit (before ++ after) (before ++ line :: after)
  /-- A naming comment is moved past a line that is neither blank nor a comment. -/
  | move (before : List (List Char)) {naming line : List Char} {index : Nat} {name : String}
      (after : List (List Char)) : NamesVariable (trim naming) index name → trim line ≠ [] →
      isComment (trim line) = false →
      LayoutEdit (before ++ naming :: line :: after) (before ++ line :: naming :: after)

/-- The second text is the first one after an edit. Lines hold no line feed, so these are the lines
of the two texts. -/
inductive Relayout : List Char → List Char → Prop where
  | intro {ls ls' : List (List Char)} : (∀ line ∈ ls, '\n' ∉ line) → (∀ line ∈ ls', '\n' ∉ line) →
      LayoutEdit ls ls' → Relayout (['\n'].intercalate ls) (['\n'].intercalate ls')

/-- The second text comes from the first one by edits of the layout, each done or undone. -/
def SameLayout (text text' : String) : Prop :=
  Relation.EqvGen Relayout text.toList text'.toList

/-! ## What reading looks at -/

/-- The line if it is code, that is, neither empty nor a comment. -/
def lineCode (line : List Char) : List (List Char) :=
  if line = [] ∨ isComment line = true then [] else [line]

theorem contentLines_intercalate {ls : List (List Char)} (h : ∀ line ∈ ls, '\n' ∉ line) :
    contentLines (['\n'].intercalate ls) = (ls.map trim).filter (· ≠ []) := by
  obtain rfl | hne := eq_or_ne ls []
  · rfl
  · rw [contentLines, lines_eq_iff.2 ⟨hne, h, rfl⟩]

/-- The lines that are no comments are the code of each line. -/
theorem filter_isComment_contentLines {ls : List (List Char)} (h : ∀ line ∈ ls, '\n' ∉ line) :
    (contentLines (['\n'].intercalate ls)).filter (!isComment ·) =
      ls.flatMap fun line => lineCode (trim line) := by
  rw [contentLines_intercalate h]
  clear h
  induction ls with
  | nil => rfl
  | cons line ls ih =>
    rw [List.flatMap_cons, ← ih]
    by_cases hnil : trim line = []
    · simp [lineCode, hnil]
    · by_cases hcomment : isComment (trim line) = true
      · simp [lineCode, hnil, hcomment]
      · simp [lineCode, hnil, hcomment]

/-- The namings are those of each line. -/
theorem filterMap_naming?_contentLines {ls : List (List Char)} (h : ∀ line ∈ ls, '\n' ∉ line) :
    (contentLines (['\n'].intercalate ls)).filterMap naming? =
      ls.flatMap fun line => (naming? (trim line)).toList := by
  rw [contentLines_intercalate h]
  clear h
  induction ls with
  | nil => rfl
  | cons line ls ih =>
    rw [List.flatMap_cons, ← ih]
    by_cases hnil : trim line = []
    · simp [hnil, naming?]
    · cases hnaming : naming? (trim line) <;> simp [hnil, hnaming]

/-- Texts with the same code and the same namings are read alike. -/
theorem readChars_congr {text text' : List Char}
    (hcode : (contentLines text).filter (!isComment ·) =
      (contentLines text').filter (!isComment ·))
    (hnamings : (contentLines text).filterMap naming? = (contentLines text').filterMap naming?) :
    readChars text = readChars text' := by
  simp only [readChars, hcode, hnamings]

/-! ## Edits change neither -/

theorem isComment_of_namesVariable {line : List Char} {index : Nat} {name : String}
    (h : NamesVariable line index name) : isComment line = true := by
  cases h with
  | intro _ _ _ _ _ _ _ => rfl

theorem naming?_eq_none_iff {line : List Char} :
    naming? line = none ↔ ∀ index name, ¬NamesVariable line index name := by
  rw [Option.eq_none_iff_forall_not_mem]
  simp only [namesVariable_iff]
  constructor
  · rintro h _ name ⟨v, hnaming, rfl⟩
    exact h (v, name) hnaming
  · rintro h ⟨v, name⟩ hnaming
    exact h v.index name ⟨v, hnaming, rfl⟩

/-- What is collected from trimmed lines stays the same under an edit: nothing comes from empty
lines and from comments that name nothing, and never something from both a comment and a line that
is none. -/
theorem LayoutEdit.flatMap_trim_eq {β : Type} {ls ls' : List (List Char)}
    (f : List Char → List β) (hnil : f [] = [])
    (hcomment : ∀ line, isComment line = true → naming? line = none → f line = [])
    (hmove : ∀ naming line, isComment naming = true → isComment line = false →
      f naming = [] ∨ f line = [])
    (h : LayoutEdit ls ls') :
    (ls.flatMap fun line => f (trim line)) = ls'.flatMap fun line => f (trim line) := by
  cases h with
  | carriageReturn before line next after =>
    have htrim : trim (line ++ ['\r']) = trim line :=
      trim_append_right line (List.forall_mem_singleton.2 rfl)
    simp only [List.flatMap_append, List.flatMap_cons, htrim]
  | blanks before front line back after hfront hback =>
    simp only [List.flatMap_append, List.flatMap_cons, trim_append_append hfront line hback]
  | blankLine before line after hline =>
    simp only [List.flatMap_append, List.flatMap_cons, trim_eq_nil hline, hnil, List.nil_append]
  | comment before line after hline hnames =>
    simp only [List.flatMap_append, List.flatMap_cons,
      hcomment _ hline (naming?_eq_none_iff.2 hnames), List.nil_append]
  | @move before naming line _ _ after hnaming _ hline =>
    rcases hmove _ _ (isComment_of_namesVariable hnaming) hline with h | h
    · simp only [List.flatMap_append, List.flatMap_cons, h, List.nil_append]
    · simp only [List.flatMap_append, List.flatMap_cons, h, List.nil_append]

theorem Relayout.readChars_eq {text text' : List Char} (h : Relayout text text') :
    readChars text = readChars text' := by
  cases h with
  | intro hls hls' hedit =>
    apply readChars_congr
    · rw [filter_isComment_contentLines hls, filter_isComment_contentLines hls']
      -- A comment is no code, wherever it stands.
      have hcode : ∀ line, isComment line = true → lineCode line = [] := fun line h =>
        if_pos (.inr h)
      exact hedit.flatMap_trim_eq lineCode rfl (fun line h _ => hcode line h)
        fun naming _ h _ => .inl (hcode naming h)
    · rw [filterMap_naming?_contentLines hls, filterMap_naming?_contentLines hls']
      -- A line that is no comment names nothing, wherever it stands.
      refine hedit.flatMap_trim_eq (fun line => (naming? line).toList) rfl (fun line _ h => ?_)
        fun _ line _ h => .inr ?_
      · rw [h, Option.toList_none]
      · rw [naming?_eq_none h, Option.toList_none]

/-- Reading ignores layout: texts that differ by edits of the layout are read as the same clause
list or refused for the same reason. -/
theorem read_eq_of_sameLayout {text text' : String} (h : SameLayout text text') :
    read text = read text' := by
  have hchars : ∀ cs cs', Relation.EqvGen Relayout cs cs' → readChars cs = readChars cs' := by
    intro cs cs' h
    induction h with
    | rel _ _ hedit => exact hedit.readChars_eq
    | refl _ => rfl
    | symm _ _ _ ih => exact ih.symm
    | trans _ _ _ _ _ ih ih' => exact ih.trans ih'
  exact hchars text.toList text'.toList h

/-- A text with a blank line and a naming comment before the header. -/
def tidy : String :=
  " \nc 2 b\np cnf 2 1\n-2 1 0\n"

/-- The same text with another line end, blanks around the clause and a comment on no variable;
the variable is named behind the header. -/
def untidy : String :=
  "p cnf 2 1\r\nc 2 b\nc 0 a\n\u3000-2 1 0\t\n"

theorem read_eq_of_sameLayout_untidy :
    ∃ (l : ClauseList) (m : VariableMap), SameLayout tidy untidy ∧ tidy ≠ untidy ∧
      l.variableMap = some m ∧ m.names = ["1", "b"] ∧
      l.clauses.map (·.literals.map Literal.toInt) = [[-2, 1]] ∧ read tidy = .ok l ∧
      read untidy = .ok l := by
  let m : VariableMap := ⟨["1", "b"], by decide, by decide⟩
  let x : Variable := ⟨1, by decide, by decide⟩
  let y : Variable := ⟨2, by decide, by decide⟩
  let l : ClauseList :=
    { clauses := [⟨[.ofVar y false, .ofVar x true]⟩]
      variableMap := some m }
  have hread : read tidy = .ok l := by
    refine readChars_eq_ok_iff.2
      ⟨"p cnf 2 1".toList, ["-2 1 0".toList], 2, by decide, by decide, ?_, ?_⟩
    · exact .cons (by decide) .nil
    · refine number_eq_ok_iff.2 ⟨by decide, m, ?_, rfl⟩
      rw [namesUpTo_eq]
      decide
  let header := "p cnf 2 1".toList
  let naming := "c 2 b".toList
  let clause := "-2 1 0".toList
  have hnaming : NamesVariable naming 2 "b" :=
    namesVariable_iff.2 ⟨y, by decide, rfl⟩
  have hcomment : ∀ index name, ¬NamesVariable (trim "c 0 a".toList) index name :=
    naming?_eq_none_iff.1 (by decide)
  have hlayout : SameLayout tidy untidy := by
    have hblank : Relayout (['\n'].intercalate [naming, header, clause, []]) tidy.toList :=
      .intro (by decide) (by decide)
        (.blankLine [] [' '] [naming, header, clause, []] (List.forall_mem_singleton.2 rfl))
    have hmove : Relayout (['\n'].intercalate [naming, header, clause, []])
        (['\n'].intercalate [header, naming, clause, []]) :=
      .intro (by decide) (by decide) (.move [] [clause, []] hnaming (by decide) (by decide))
    have hreturn : Relayout (['\n'].intercalate [header, naming, clause, []])
        (['\n'].intercalate [header ++ ['\r'], naming, clause, []]) :=
      .intro (by decide) (by decide) (.carriageReturn [] header naming [clause, []])
    have hinsert : Relayout (['\n'].intercalate [header ++ ['\r'], naming, clause, []])
        (['\n'].intercalate [header ++ ['\r'], naming, "c 0 a".toList, clause, []]) :=
      .intro (by decide) (by decide)
        (.comment [header ++ ['\r'], naming] "c 0 a".toList [clause, []] (by decide) hcomment)
    have hblanks : Relayout
        (['\n'].intercalate [header ++ ['\r'], naming, "c 0 a".toList, clause, []]) untidy.toList :=
      .intro (by decide) (by decide)
        (.blanks [header ++ ['\r'], naming, "c 0 a".toList] ['\u3000'] clause ['\t'] [[]]
          (List.forall_mem_singleton.2 rfl) (List.forall_mem_singleton.2 rfl))
    exact .trans _ _ _ (.symm _ _ (.rel _ _ hblank)) (.trans _ _ _ (.rel _ _ hmove)
      (.trans _ _ _ (.rel _ _ hreturn) (.trans _ _ _ (.rel _ _ hinsert) (.rel _ _ hblanks))))
  exact ⟨l, m, hlayout, by decide, rfl, rfl, by decide, hread,
    (read_eq_of_sameLayout hlayout).symm.trans hread⟩

end Clausal.Dimacs
