/-
  Clausal.Proofs.Assignment.Union

  The union of lists of literals, and what conflicts between lists have to do with it. A union holds
  the first occurrences of all literals one after the other. So it depends on that sequence alone:
  how the literals are split into lists makes no difference, nor does a list that brings nothing
  new.

  A conflict is a literal of one list whose negation is in the other. That is the same from both
  sides, while counting is not, since a literal that stands in a list several times counts each
  time. A union contradicts itself when one of its lists does or when two of them conflict.
-/
import Clausal.Assignment.Scan
import Clausal.Proofs.Collect
import Clausal.Proofs.FirstOccurrences
import Mathlib.Data.Fintype.Fin

namespace Clausal.Assignment

variable {k k' : Kind}

/-! ## Unions of unions -/

/-- What is united in two parts is the union of all. -/
theorem merge_merge (as bs : List (Assignment k)) :
    merge [merge as, merge bs] = merge (as ++ bs) := by
  apply ext_literals
  simp only [merge, List.flatMap_cons, List.flatMap_nil, List.append_nil, List.flatMap_append]
  rw [eraseDups_eraseDups_append, eraseDups_append_eraseDups]

/-- A list without literals adds nothing. -/
theorem merge_append_empty_cons (as bs : List (Assignment k)) :
    merge (as ++ empty :: bs) = merge (as ++ bs) := by
  apply ext_literals
  simp only [merge, List.flatMap_append, List.flatMap_cons, empty, List.nil_append]

/-- A list that is there already adds nothing at the end. -/
theorem merge_append_of_mem {as : List (Assignment k)} {a : Assignment k} (ha : a ∈ as) :
    merge (as ++ [a]) = merge as := by
  apply ext_literals
  simp only [merge, List.flatMap_append, List.flatMap_singleton]
  apply eraseDups_append_of_subset
  intro l hl
  exact List.mem_flatMap.2 ⟨a, ha, hl⟩

/-- The negation of a union is the union of the negations. -/
theorem negate_merge (as : List (Assignment k)) : (merge as).negate = merge (as.map negate) := by
  have hinj : ∀ l ∈ as.flatMap literals, ∀ m ∈ as.flatMap literals, -l = -m → l = m :=
    fun _ _ _ _ => Literal.neg_inj.1
  apply ext_literals
  rw [negate, merge, merge, ← eraseDups_map hinj, List.map_flatMap, List.flatMap_map]
  rfl

/-- A union holds the literals of its lists, each once, in the order of their first occurrence, and
is what one pass over them takes in. Uniting unions is uniting all their lists, an empty list or a
list that is there already adds nothing, and the negation of a union is the union of the
negations. -/
theorem merge_order_preserving_union (k : Kind) :
    (∀ as : List (Assignment k), mergeScan as = merge as ∧
      FirstOccurrences (as.flatMap literals) (merge as).literals ∧
      ∀ l, l ∈ merge as ↔ ∃ a ∈ as, l ∈ a) ∧
    (∀ as bs : List (Assignment k), merge [merge as, merge bs] = merge (as ++ bs)) ∧
    (∀ as bs : List (Assignment k), merge (as ++ empty :: bs) = merge (as ++ bs)) ∧
    (∀ as : List (Assignment k), ∀ a ∈ as, merge (as ++ [a]) = merge as) ∧
    ∀ as : List (Assignment k), (merge as).negate = merge (as.map negate) := by
  refine ⟨?_, merge_merge, merge_append_empty_cons, fun as a => merge_append_of_mem, negate_merge⟩
  intro as
  exact ⟨mergeScan_eq as, firstOccurrences_eraseDups _, fun l => mem_merge⟩

/-- Two lists that overlap and contradict each other, the first one once more behind them. -/
theorem merge_order_preserving_union_overlapping :
    ∃ a b : Assignment .plain, a.literals.map Literal.toInt = [2, -1, 2] ∧
      b.literals.map Literal.toInt = [3, 1, -1] ∧
      (merge [a, b]).literals.map Literal.toInt = [2, -1, 3, 1] ∧ a ∈ [a, b] ∧
      merge ([a, b] ++ [a]) = merge [a, b] := by
  let x : Variable := ⟨1, by decide, by decide⟩
  let y : Variable := ⟨2, by decide, by decide⟩
  let z : Variable := ⟨3, by decide, by decide⟩
  let a : Assignment .plain := ⟨[.ofVar y true, .ofVar x false, .ofVar y true]⟩
  let b : Assignment .plain := ⟨[.ofVar z true, .ofVar x true, .ofVar x false]⟩
  obtain ⟨-, -, -, hrepeated, -⟩ := merge_order_preserving_union .plain
  exact ⟨a, b, by decide, by decide, by decide, by decide, hrepeated [a, b] a (by decide)⟩

/-! ## Conflicts -/

theorem countP_eq_card {α : Type} (p : α → Bool) (xs : List α) :
    xs.countP p = (Finset.univ.filter fun i : Fin xs.length => p xs[i] = true).card := by
  induction xs with
  | nil => rfl
  | cons x xs ih =>
    show _ = (Finset.univ.filter fun i : Fin (xs.length + 1) => p (x :: xs)[i] = true).card
    rw [List.countP_cons, Fin.card_filter_univ_succ, ih]
    simp only [Fin.getElem_fin, Fin.val_zero, Fin.val_succ, List.getElem_cons_zero,
      List.getElem_cons_succ]
    split <;> rfl

/-- The conflicts are the positions of the literals that occur negated. -/
theorem countConflicts_eq_card (a : Assignment k) (ls : List Literal) :
    a.countConflicts ls = (Finset.univ.filter fun i : Fin ls.length => -ls[i] ∈ a).card := by
  rw [countConflicts, countP_eq_card]
  simp only [decide_eq_true_eq]

theorem conflictsWith_comm (a : Assignment k) (b : Assignment k') :
    a.conflictsWith b = b.conflictsWith a := by
  have hturn : ∀ {k k' : Kind} {a : Assignment k} {b : Assignment k'},
      (∃ l ∈ b, -l ∈ a) → ∃ l ∈ a, -l ∈ b := by
    rintro k k' a b ⟨l, hl, hneg⟩
    exact ⟨-l, hneg, by rwa [Literal.neg_neg]⟩
  rw [Bool.eq_iff_iff, conflictsWith_iff, conflictsWith_iff]
  exact ⟨hturn, hturn⟩

/-- Only the members of a list matter to what conflicts with it. -/
theorem countConflicts_congr {a : Assignment k} {b : Assignment k'} (h : ∀ l, l ∈ b ↔ l ∈ a)
    (ls : List Literal) : b.countConflicts ls = a.countConflicts ls := by
  simp only [countConflicts, h]

theorem countConflicts_merge_singleton (a : Assignment k) (ls : List Literal) :
    (merge [a]).countConflicts ls = a.countConflicts ls := by
  apply countConflicts_congr
  simp

/-- Every position of the negation is a conflict. -/
theorem countConflicts_negate (a : Assignment k) :
    a.countConflicts a.negate.literals = a.size := by
  have hall : ∀ l ∈ a.negate.literals, decide (-l ∈ a) = true := fun l hl =>
    decide_eq_true (mem_negate.1 hl)
  rw [countConflicts, List.countP_eq_length.2 hall, negate, List.length_map, size]

theorem clean?_eq_none_iff_conflictsWith (a : Assignment k) :
    a.clean? = none ↔ a.conflictsWith a = true := by
  rw [clean?_eq_none_iff, conflictsWith_iff]

/-- A union of two lists contradicts itself when one of them does or they conflict. -/
theorem clean?_merge_eq_none_iff (a b : Assignment k) :
    (merge [a, b]).clean? = none ↔
      a.clean? = none ∨ b.clean? = none ∨ a.conflictsWith b = true := by
  have hunion : ∀ l, l ∈ merge [a, b] ↔ l ∈ a ∨ l ∈ b := by simp
  simp only [clean?_eq_none_iff, hunion]
  constructor
  · rintro ⟨l, hl | hl, hneg | hneg⟩
    · exact .inl ⟨l, hl, hneg⟩
    · rw [conflictsWith_comm, conflictsWith_iff]
      exact .inr (.inr ⟨l, hl, hneg⟩)
    · exact .inr (.inr (conflictsWith_iff.2 ⟨l, hl, hneg⟩))
    · exact .inr (.inl ⟨l, hl, hneg⟩)
  · rw [conflictsWith_iff]
    rintro (⟨l, hl, hneg⟩ | ⟨l, hl, hneg⟩ | ⟨l, hl, hneg⟩)
    · exact ⟨l, .inl hl, .inl hneg⟩
    · exact ⟨l, .inr hl, .inr hneg⟩
    · exact ⟨l, .inr hl, .inl hneg⟩

/-- Counting conflicts, uniting and cleaning agree on what a contradiction is. The union of two
lists has no clean form when one of them has none or they conflict; whether they conflict is the
same from both sides; and a list has no clean form when it conflicts with itself. The conflicts with
a list are the positions of its literals whose negation occurs, however often it does, and the
negation of a list conflicts at every position. -/
theorem conflicts_agree_with_cleaning (k k' : Kind) :
    (∀ a b : Assignment k, (merge [a, b]).clean? = none ↔
      a.clean? = none ∨ b.clean? = none ∨ a.conflictsWith b = true) ∧
    (∀ (a : Assignment k) (b : Assignment k'), a.conflictsWith b = b.conflictsWith a) ∧
    (∀ a : Assignment k, a.clean? = none ↔ a.conflictsWith a = true) ∧
    (∀ (a : Assignment k) (b : Assignment k'), a.countConflicts b.literals =
        (Finset.univ.filter fun i : Fin b.literals.length => -b.literals[i] ∈ a).card ∧
      (merge [a]).countConflicts b.literals = a.countConflicts b.literals) ∧
    ∀ a : Assignment k, a.countConflicts a.negate.literals = a.size := by
  refine ⟨clean?_merge_eq_none_iff, conflictsWith_comm, clean?_eq_none_iff_conflictsWith, ?_,
    countConflicts_negate⟩
  intro a b
  exact ⟨countConflicts_eq_card a b.literals, countConflicts_merge_singleton a b.literals⟩

end Clausal.Assignment
