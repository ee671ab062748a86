/-
  Clausal.Text.Split

  Cutting text into pieces. `pieces p` cuts at every character of the class `p`; `lines` are the
  pieces between line feeds and `words` the nonempty pieces between gaps. `trim` removes blanks at
  both ends. The law everything else rests on is `pieces_append_cons`: a separator cuts a text into
  two texts whose pieces are found independently.
-/
import Clausal.Text.Blank

namespace Clausal.Text

/-! ## Pieces -/

/-- Put a character in front of the first piece. -/
def pushFirst (c : Char) : List (List Char) → List (List Char)
  | [] => [[c]]
  | first :: others => (c :: first) :: others

/-- The maximal runs between characters of the class `p`, in order; empty runs are kept. -/
def pieces (p : Char → Bool) (cs : List Char) : List (List Char) :=
  cs.foldr (fun c rest => if p c then [] :: rest else pushFirst c rest) [[]]

@[simp] theorem pieces_nil (p : Char → Bool) : pieces p [] = [[]] := rfl

theorem pieces_cons (p : Char → Bool) (c : Char) (cs : List Char) :
    pieces p (c :: cs) = if p c then [] :: pieces p cs else pushFirst c (pieces p cs) := rfl

/-- There is always a first piece. -/
theorem pieces_ne_nil (p : Char → Bool) (cs : List Char) : pieces p cs ≠ [] := by
  cases cs with
  | nil => simp
  | cons c cs =>
    rw [pieces_cons]
    split
    · simp
    · cases pieces p cs <;> simp [pushFirst]

/-- A text without separators is a single piece. -/
theorem pieces_eq_singleton {p : Char → Bool} {cs : List Char} (h : ∀ c ∈ cs, p c = false) :
    pieces p cs = [cs] := by
  induction cs with
  | nil => rfl
  | cons c cs ih =>
    rw [pieces_cons, ih fun x hx => h x (List.mem_cons_of_mem _ hx)]
    simp [h c, pushFirst]

/-- A separator cuts a text into two that are cut independently. -/
theorem pieces_append_cons {p : Char → Bool} {c : Char} (hc : p c = true) (xs ys : List Char) :
    pieces p (xs ++ c :: ys) = pieces p xs ++ pieces p ys := by
  induction xs with
  | nil => simp [pieces_cons, hc]
  | cons x xs ih =>
    rw [List.cons_append, pieces_cons, pieces_cons, ih]
    split
    · rfl
    · cases h : pieces p xs with
      | nil => exact absurd h (pieces_ne_nil p xs)
      | cons first others => rfl

/-- No piece holds a separator. -/
theorem eq_false_of_mem_pieces {p : Char → Bool} {cs piece : List Char} (h : piece ∈ pieces p cs) :
    ∀ c ∈ piece, p c = false := by
  induction cs generalizing piece with
  | nil => simp_all
  | cons c cs ih =>
    rw [pieces_cons] at h
    split at h
    · rcases List.mem_cons.1 h with rfl | h
      · simp
      · exact ih h
    · cases hp : pieces p cs with
      | nil => exact absurd hp (pieces_ne_nil p cs)
      | cons first others =>
        rw [hp] at h ih
        rcases List.mem_cons.1 h with rfl | h
        · simp_all
        · exact ih (List.mem_cons_of_mem _ h)

/-! ## Lines and words -/

/-- The texts between line feeds, without the line feeds. -/
def lines (cs : List Char) : List (List Char) :=
  pieces (· == '\n') cs

/-- The nonempty texts between gaps. -/
def words (cs : List Char) : List (List Char) :=
  (pieces isGap cs).filter (· ≠ [])

/-- A gap cuts a text into two whose words are found independently. -/
theorem words_append_cons {c : Char} (hc : isGap c = true) (xs ys : List Char) :
    words (xs ++ c :: ys) = words xs ++ words ys := by
  simp [words, pieces_append_cons hc]

/-- A nonempty text without gaps is a single word. -/
theorem words_eq_singleton {cs : List Char} (hne : cs ≠ []) (h : ∀ c ∈ cs, isGap c = false) :
    words cs = [cs] := by
  simp [words, pieces_eq_singleton h, hne]

@[simp] theorem words_nil : words [] = [] := rfl

/-- A line feed ends a line. -/
theorem lines_append_cons (xs ys : List Char) : lines (xs ++ '\n' :: ys) = lines xs ++ lines ys :=
  pieces_append_cons (by rfl) xs ys

/-! ## Trimming -/

/-- The text without the blanks at its two ends. -/
def trim (cs : List Char) : List Char :=
  ((cs.dropWhile isBlank).reverse.dropWhile isBlank).reverse

/-- A text that neither starts nor ends with a blank is its own trim. -/
theorem trim_eq_self {cs : List Char} (hhead : ∀ c ∈ cs.head?, isBlank c = false)
    (hlast : ∀ c ∈ cs.getLast?, isBlank c = false) : trim cs = cs := by
  have drop_eq : ∀ {l : List Char}, (∀ c ∈ l.head?, isBlank c = false) →
      l.dropWhile isBlank = l := by
    intro l hl
    cases l with
    | nil => rfl
    | cons c l => simp [hl c rfl]
  rw [trim, drop_eq hhead, drop_eq (by simpa using hlast), List.reverse_reverse]

end Clausal.Text
