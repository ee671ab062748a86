/-
  Clausal.Proofs.Text.Split

  What cutting and trimming compute, said without the functions that compute it. The lines of a text
  are the texts without line feed that line feeds join to it (`lines_eq_iff`). A trimmed text is
  what is left between two runs of blanks and neither starts nor ends with one (`trim_eq_iff`). The
  first word of a text stands behind a run of gaps and ends at the next gap (`words_eq_cons_iff`).
-/
import Clausal.Text.Split
import Mathlib.Data.List.TakeWhile

namespace Clausal.Text

/-! ## Lines -/

/-- Cutting at one character is splitting there. -/
theorem pieces_eq_splitOn (c : Char) (cs : List Char) : pieces (· == c) cs = cs.splitOn c := by
  induction cs with
  | nil => rfl
  | cons x cs ih =>
    rw [List.splitOn_cons_eq_if_modifyHead, ← ih, pieces_cons]
    split
    · rfl
    · obtain ⟨first, others, h⟩ := List.exists_cons_of_ne_nil (pieces_ne_nil (· == c) cs)
      simp [h, pushFirst]

/-- Cutting into lines is splitting at line feeds. -/
theorem lines_eq_splitOn (cs : List Char) : lines cs = cs.splitOn '\n' :=
  pieces_eq_splitOn '\n' cs

/-- The lines are the texts without line feed that line feeds join to the text. -/
theorem lines_eq_iff {cs : List Char} {ls : List (List Char)} :
    lines cs = ls ↔ ls ≠ [] ∧ (∀ l ∈ ls, '\n' ∉ l) ∧ ['\n'].intercalate ls = cs := by
  refine ⟨?_, ?_⟩
  · rintro rfl
    refine ⟨pieces_ne_nil _ _, fun l hl hmem => ?_, ?_⟩
    · have := eq_false_of_mem_pieces hl _ hmem
      simp at this
    · rw [lines_eq_splitOn, List.intercalate_splitOn]
  · intro h
    obtain ⟨hne, hls, rfl⟩ := h
    rw [lines_eq_splitOn, List.splitOn_intercalate _ hls hne]

/-- Lines that are each ended by a line feed are cut back, with nothing behind the last one. -/
theorem lines_flatMap_append {ls : List (List Char)} (h : ∀ l ∈ ls, '\n' ∉ l) :
    lines (ls.flatMap (· ++ ['\n'])) = ls ++ [[]] := by
  induction ls with
  | nil => rfl
  | cons l ls ih =>
    have hl : lines l = [l] := by
      rw [lines_eq_splitOn, List.splitOn_eq_singleton (h l List.mem_cons_self)]
    rw [List.flatMap_cons, List.append_assoc, List.singleton_append, lines_append_cons, hl,
      ih fun l' hl' => h l' (List.mem_cons_of_mem _ hl')]
    rfl

/-! ## Trimming -/

/-- A text neither starts nor ends with a blank. -/
structure Trimmed (cs : List Char) : Prop where
  head : ∀ c ∈ cs.head?, isBlank c = false
  last : ∀ c ∈ cs.getLast?, isBlank c = false

instance (cs : List Char) : Decidable (Trimmed cs) :=
  decidable_of_iff (cs.head?.all (!isBlank ·) = true ∧ cs.getLast?.all (!isBlank ·) = true) (by
    simp only [Option.all_eq_true, Bool.not_eq_true']
    exact ⟨fun h => ⟨h.1, h.2⟩, fun h => ⟨h.head, h.last⟩⟩)

theorem Trimmed.trim_eq {cs : List Char} (h : Trimmed cs) : trim cs = cs :=
  trim_eq_self h.head h.last

/-- Behind a run of a class comes a character outside of it. -/
theorem head?_dropWhile_eq_false (p : Char → Bool) (cs : List Char) :
    ∀ c ∈ (cs.dropWhile p).head?, p c = false := by
  intro c hc
  have h := List.head?_dropWhile_not p cs
  rw [Option.mem_def.1 hc] at h
  exact h

/-- A text is its trim between two runs of blanks. -/
theorem exists_blanks_trim (cs : List Char) :
    ∃ before after, cs = before ++ trim cs ++ after ∧ (∀ c ∈ before, isBlank c = true) ∧
      ∀ c ∈ after, isBlank c = true := by
  have hrest : cs.dropWhile isBlank =
      trim cs ++ ((cs.dropWhile isBlank).reverse.takeWhile isBlank).reverse := by
    rw [trim, ← List.reverse_append, List.takeWhile_append_dropWhile, List.reverse_reverse]
  refine ⟨cs.takeWhile isBlank, ((cs.dropWhile isBlank).reverse.takeWhile isBlank).reverse, ?_,
    fun c hc => List.mem_takeWhile_imp hc,
    fun c hc => List.mem_takeWhile_imp (List.mem_reverse.1 hc)⟩
  rw [List.append_assoc, ← hrest, List.takeWhile_append_dropWhile]

theorem trimmed_trim (cs : List Char) : Trimmed (trim cs) := by
  refine ⟨?_, ?_⟩
  · intro c hc
    -- The start of the trim is where the blanks in front end.
    apply head?_dropWhile_eq_false isBlank cs c
    have hprefix : trim cs <+: cs.dropWhile isBlank := by
      rw [trim, ← List.reverse_suffix, List.reverse_reverse]
      exact List.dropWhile_suffix _
    obtain ⟨rest, hrest⟩ := hprefix
    obtain ⟨tail, htail⟩ := List.head?_eq_some_iff.1 (Option.mem_def.1 hc)
    rw [← hrest, htail]
    rfl
  · intro c hc
    rw [trim, List.getLast?_reverse] at hc
    exact head?_dropWhile_eq_false _ _ c hc

/-- A trim is what neither starts nor ends with a blank between two runs of blanks. -/
theorem trim_eq_iff {cs core : List Char} :
    trim cs = core ↔ Trimmed core ∧ ∃ before after, cs = before ++ core ++ after ∧
      (∀ c ∈ before, isBlank c = true) ∧ ∀ c ∈ after, isBlank c = true := by
  refine ⟨?_, ?_⟩
  · rintro rfl
    exact ⟨trimmed_trim cs, exists_blanks_trim cs⟩
  · intro h
    obtain ⟨hcore, before, after, rfl, hbefore, hafter⟩ := h
    rw [trim, List.append_assoc, List.dropWhile_append_of_pos hbefore]
    cases core with
    | nil =>
      have hnil : after.dropWhile isBlank = [] := List.dropWhile_eq_nil_iff.2 hafter
      simp [hnil]
    | cons c core =>
      have hc : isBlank c = false := hcore.head c rfl
      have hafter' : ∀ c ∈ after.reverse, isBlank c = true := fun c hc =>
        hafter c (List.mem_reverse.1 hc)
      -- The core stops the first run at its start and, seen from behind, the second at its end.
      rw [List.cons_append, List.dropWhile_cons_of_neg (by simp [hc]), ← List.cons_append,
        List.reverse_append, List.dropWhile_append_of_pos hafter']
      have hlast := hcore.last
      rw [← List.head?_reverse] at hlast
      generalize hrev : (c :: core).reverse = rev at hlast ⊢
      cases rev with
      | nil => simp at hrev
      | cons d rev =>
        rw [List.dropWhile_cons_of_neg (by simp [hlast d rfl]), ← hrev, List.reverse_reverse]

/-- Blanks at the ends of a text make no difference to its trim. -/
theorem trim_append_append {before after : List Char} (hbefore : ∀ c ∈ before, isBlank c = true)
    (cs : List Char) (hafter : ∀ c ∈ after, isBlank c = true) :
    trim (before ++ cs ++ after) = trim cs := by
  obtain ⟨front, back, hcs, hfront, hback⟩ := exists_blanks_trim cs
  rw [trim_eq_iff]
  refine ⟨trimmed_trim cs, before ++ front, back ++ after, ?_, ?_, ?_⟩
  · calc before ++ cs ++ after = before ++ (front ++ trim cs ++ back) ++ after := by rw [← hcs]
      _ = before ++ front ++ trim cs ++ (back ++ after) := by simp only [List.append_assoc]
  · exact List.forall_mem_append.2 ⟨hbefore, hfront⟩
  · exact List.forall_mem_append.2 ⟨hback, hafter⟩

theorem trim_append_left {before : List Char} (h : ∀ c ∈ before, isBlank c = true)
    (cs : List Char) : trim (before ++ cs) = trim cs := by
  have htrim := trim_append_append h cs (List.forall_mem_nil _)
  rwa [List.append_nil] at htrim

theorem trim_append_right (cs : List Char) {after : List Char}
    (h : ∀ c ∈ after, isBlank c = true) : trim (cs ++ after) = trim cs :=
  trim_append_append (List.forall_mem_nil _) cs h

/-- Nothing is left of blanks. -/
theorem trim_eq_nil {cs : List Char} (h : ∀ c ∈ cs, isBlank c = true) : trim cs = [] :=
  trim_eq_iff.2 ⟨⟨by simp, by simp⟩, cs, [], by simp, h, by simp⟩

/-! ## Words -/

/-- A text that is empty or starts with a gap, so that a word in front of it ends there. -/
def GapFirst (cs : List Char) : Prop :=
  ∀ c ∈ cs.head?, isGap c = true

/-- A text without words is gaps. -/
theorem words_eq_nil_iff {cs : List Char} : words cs = [] ↔ ∀ c ∈ cs, isGap c = true := by
  induction cs with
  | nil => simp
  | cons c cs ih =>
    rw [words, pieces_cons, List.forall_mem_cons, ← ih]
    split
    · next hc => simp [words, hc]
    · next hc =>
      -- A character that is no gap makes the first piece nonempty.
      obtain ⟨first, others, h⟩ := List.exists_cons_of_ne_nil (pieces_ne_nil isGap cs)
      simp [h, pushFirst, hc]

/-- A run of gaps in front of a text holds no word. -/
theorem words_gaps_append {gap cs : List Char} (h : ∀ c ∈ gap, isGap c = true) :
    words (gap ++ cs) = words cs := by
  induction gap with
  | nil => rfl
  | cons c gap ih =>
    have hc := words_append_cons (h c List.mem_cons_self) [] (gap ++ cs)
    rw [words_nil, List.nil_append, List.nil_append] at hc
    rw [List.cons_append, hc, ih fun d hd => h d (List.mem_cons_of_mem _ hd)]

/-- A word ends at the next gap. -/
theorem words_append {w rest : List Char} (hne : w ≠ []) (hw : ∀ c ∈ w, isGap c = false)
    (hrest : GapFirst rest) : words (w ++ rest) = w :: words rest := by
  cases rest with
  | nil => simp [words_eq_singleton hne hw]
  | cons c rest =>
    have hc : isGap c = true := hrest c rfl
    rw [words_append_cons hc, words_eq_singleton hne hw, List.singleton_append]
    -- The gap that ends the word is itself in front of the remaining text.
    have hgap : words ([c] ++ rest) = words rest := words_gaps_append (by simpa using hc)
    rw [← hgap, List.singleton_append]

/-- The first word of a text stands behind a run of gaps and ends at the next gap. -/
theorem words_eq_cons_iff {cs w : List Char} {ws : List (List Char)} :
    words cs = w :: ws ↔ ∃ gap rest, cs = gap ++ (w ++ rest) ∧ (∀ c ∈ gap, isGap c = true) ∧
      w ≠ [] ∧ (∀ c ∈ w, isGap c = false) ∧ GapFirst rest ∧ words rest = ws := by
  refine ⟨?_, ?_⟩
  · intro h
    have hgap : ∀ c ∈ cs.takeWhile isGap, isGap c = true := fun c => List.mem_takeWhile_imp
    -- Behind the gaps in front there is either nothing, hence no word, or the first word.
    obtain hd | hd := eq_or_ne (cs.dropWhile isGap) []
    · have hcs : cs = cs.takeWhile isGap ++ [] := by
        rw [← hd, List.takeWhile_append_dropWhile]
      rw [hcs, words_gaps_append hgap] at h
      cases h
    · have hword : ∀ c ∈ (cs.dropWhile isGap).takeWhile (!isGap ·), isGap c = false := by
        intro c hc
        simpa using List.mem_takeWhile_imp hc
      have hrest : GapFirst ((cs.dropWhile isGap).dropWhile (!isGap ·)) := fun c hc => by
        simpa using head?_dropWhile_eq_false _ _ c hc
      have hne : (cs.dropWhile isGap).takeWhile (!isGap ·) ≠ [] := by
        obtain ⟨c, d, hcd⟩ := List.exists_cons_of_ne_nil hd
        have hc : isGap c = false :=
          head?_dropWhile_eq_false _ cs c (by rw [hcd]; rfl)
        simp [hcd, hc]
      have hcs : cs = cs.takeWhile isGap ++ ((cs.dropWhile isGap).takeWhile (!isGap ·) ++
          (cs.dropWhile isGap).dropWhile (!isGap ·)) := by
        rw [List.takeWhile_append_dropWhile, List.takeWhile_append_dropWhile]
      rw [hcs, words_gaps_append hgap, words_append hne hword hrest] at h
      obtain ⟨rfl, rfl⟩ := List.cons.inj h
      exact ⟨_, _, hcs, hgap, hne, hword, hrest, rfl⟩
  · intro h
    obtain ⟨gap, rest, rfl, hgap, hne, hw, hrest, rfl⟩ := h
    rw [words_gaps_append hgap, words_append hne hw hrest]

end Clausal.Text
