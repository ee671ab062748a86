/-
  Clausal.Assignment.Scan

  Union and cleaning in one pass from left to right. A pass keeps the literals that it has taken in,
  each once (`takeNew`). Cleaning takes in no literal whose negation it has taken in before
  (`takeConsistent?`), and ends there without a result.

  `merge` and `clean?` say what the result is. The passes come to the same one: what a pass has
  taken in are the first occurrences of what it has read, and for cleaning what it has read does not
  contradict itself. So a contradiction is found at its second literal, whichever sign comes first
  and whatever stands in between.
-/
import Clausal.Assignment.Basic
import Clausal.Distinct

namespace Clausal.Assignment

variable {k : Kind}

/-! ## Passes -/

/-- Take in a literal that has not been taken in before. -/
def takeNew (seen : List Literal) (l : Literal) : List Literal :=
  if l ∈ seen then seen else seen ++ [l]

/-- The literals of all the lists, taken in one after the other. -/
def mergeScan (as : List (Assignment k)) : Assignment k :=
  ⟨(as.flatMap literals).foldl takeNew []⟩

/-- Take in a literal unless its negation has been taken in before. -/
def takeConsistent? (seen : List Literal) (l : Literal) : Option (List Literal) :=
  if -l ∈ seen then none else some (takeNew seen l)

/-- The literals of the list, taken in one after the other until one contradicts another. -/
def cleanScan? (a : Assignment k) : Option (Assignment k) :=
  Assignment.mk <$> a.literals.foldlM takeConsistent? []

/-! ## What a pass has taken in -/

/-- With the first occurrences taken in, a pass goes on to those of one more literal. -/
theorem takeNew_eraseDups (done : List Literal) (l : Literal) :
    takeNew done.eraseDups l = (done ++ [l]).eraseDups := by
  rw [takeNew, eraseDups_append_singleton]
  simp only [List.mem_eraseDups]

/-- A pass takes in the first occurrences of what it reads. -/
theorem foldl_takeNew (done rest : List Literal) :
    rest.foldl takeNew done.eraseDups = (done ++ rest).eraseDups := by
  induction rest generalizing done with
  | nil => rw [List.foldl_nil, List.append_nil]
  | cons l rest ih => rw [List.foldl_cons, takeNew_eraseDups, ih, ← List.append_cons]

/-- The union is what a pass takes in. -/
theorem mergeScan_eq (as : List (Assignment k)) : mergeScan as = merge as :=
  ext_literals (foldl_takeNew [] _)

/-! ## Contradictions -/

theorem takeConsistent?_eraseDups (done : List Literal) (l : Literal) :
    takeConsistent? done.eraseDups l =
      if -l ∈ done then none else some (done ++ [l]).eraseDups := by
  simp only [takeConsistent?, List.mem_eraseDups, takeNew_eraseDups]

/-- Literals that do not contradict each other still do not with one more whose negation is not
among them. -/
theorem not_neg_mem_append_singleton {done : List Literal} {l : Literal}
    (hdone : ∀ m ∈ done, -m ∉ done) (hl : -l ∉ done) : ∀ m ∈ done ++ [l], -m ∉ done ++ [l] := by
  intro m hm hneg
  rw [List.mem_append, List.mem_singleton] at hm hneg
  rcases hm with hm | rfl <;> rcases hneg with hneg | hneg
  · exact hdone m hm hneg
  · exact hl (by rwa [← hneg, Literal.neg_neg])
  · exact hl hneg
  · exact Literal.neg_ne_self m hneg

/-- Behind literals that do not contradict each other, a pass gets to the end exactly when all
literals together do not either, and has then taken in their first occurrences. -/
theorem foldlM_takeConsistent?_eq_some_iff {done rest kept : List Literal}
    (hdone : ∀ l ∈ done, -l ∉ done) :
    rest.foldlM takeConsistent? done.eraseDups = some kept ↔
      (∀ l ∈ done ++ rest, -l ∉ done ++ rest) ∧ kept = (done ++ rest).eraseDups := by
  induction rest generalizing done with
  | nil =>
    rw [List.foldlM_nil, List.append_nil, and_iff_right hdone]
    exact Option.some_inj.trans eq_comm
  | cons l rest ih =>
    rw [List.foldlM_cons, takeConsistent?_eraseDups]
    split
    · next hneg =>
      -- The pass ends here, and the literal does contradict one before it.
      have hboth : ¬∀ m ∈ done ++ l :: rest, -m ∉ done ++ l :: rest := fun h =>
        h l (by simp) (List.mem_append_left _ hneg)
      exact ⟨nofun, fun h => absurd h.1 hboth⟩
    · next hneg =>
      show rest.foldlM takeConsistent? (done ++ [l]).eraseDups = some kept ↔ _
      rw [ih (not_neg_mem_append_singleton hdone hneg), ← List.append_cons]

theorem clean?_eq_some_iff {a b : Assignment k} :
    a.clean? = some b ↔ (∀ l ∈ a, -l ∉ a) ∧ b.literals = a.literals.eraseDups := by
  rw [clean?]
  split
  · next h =>
    obtain ⟨l, hl, hneg⟩ := isContradictory_iff.1 h
    constructor
    · intro hnone
      cases hnone
    · intro hclean
      exact absurd hneg (hclean.1 l hl)
  · next h =>
    have hconsistent : ∀ l ∈ a, -l ∉ a := fun l hl hneg =>
      h (isContradictory_iff.2 ⟨l, hl, hneg⟩)
    rw [and_iff_right hconsistent, Option.some_inj]
    exact ⟨fun heq => heq ▸ rfl, fun heq => ext_literals heq.symm⟩

/-- The clean form is what a pass takes in that meets no contradiction. -/
theorem cleanScan?_eq (a : Assignment k) : a.cleanScan? = a.clean? := by
  have hempty : ∀ l ∈ ([] : List Literal), -l ∉ ([] : List Literal) := nofun
  have hpass : ∀ kept, a.literals.foldlM takeConsistent? [] = some kept ↔
      (∀ l ∈ a, -l ∉ a) ∧ kept = a.literals.eraseDups := fun kept =>
    foldlM_takeConsistent?_eq_some_iff hempty
  apply Option.ext
  intro b
  rw [clean?_eq_some_iff, ← hpass b.literals, cleanScan?, Option.map_eq_map, Option.map_eq_some_iff]
  constructor
  · rintro ⟨kept, hkept, rfl⟩
    exact hkept
  · exact fun h => ⟨b.literals, h, rfl⟩

end Clausal.Assignment
