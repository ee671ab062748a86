/-
  Clausal.Distinct

  Lists without repetitions. `List.eraseDups` keeps each member at its first place; the facts here
  complete those of core: the result has no repetitions, and a list without repetitions is kept.
  Whether the members of a long list of texts are distinct is decided by sorting it
  (`allDistinct_iff`).
-/

namespace Clausal

/-! ## First occurrences -/

section FirstOccurrences

variable {α : Type} [DecidableEq α]

/-- The first occurrences have no repetitions. -/
theorem nodup_eraseDups (xs : List α) : xs.eraseDups.Nodup := by
  match xs with
  | [] => simp
  | x :: xs =>
    have hlt : (xs.filter fun y => !y == x).length < xs.length + 1 :=
      Nat.lt_succ_of_le (List.length_filter_le ..)
    rw [List.eraseDups_cons]
    exact List.nodup_cons.2 ⟨by simp, nodup_eraseDups _⟩
termination_by xs.length

/-- A list without repetitions is its own list of first occurrences. -/
theorem eraseDups_eq_self {xs : List α} (h : xs.Nodup) : xs.eraseDups = xs := by
  induction xs with
  | nil => rfl
  | cons x xs ih =>
    obtain ⟨hx, hxs⟩ := List.nodup_cons.1 h
    rw [List.eraseDups_cons, List.filter_eq_self.2, ih hxs]
    intro y hy
    simpa using fun heq : y = x => hx (heq ▸ hy)

/-- Taking first occurrences and selecting members can be done in either order. -/
theorem eraseDups_filter (p : α → Bool) (xs : List α) :
    (xs.filter p).eraseDups = xs.eraseDups.filter p := by
  match xs with
  | [] => simp
  | x :: xs =>
    have hlt : (xs.filter fun y => !y == x).length < xs.length + 1 :=
      Nat.lt_succ_of_le (List.length_filter_le ..)
    rw [List.eraseDups_cons, List.filter_cons, List.filter_cons, ← eraseDups_filter p]
    by_cases hp : p x = true
    · rw [if_pos hp, if_pos hp, List.eraseDups_cons, List.filter_filter, List.filter_filter]
      simp only [Bool.and_comm]
    · rw [if_neg hp, if_neg hp, List.filter_filter]
      congr 1
      refine List.filter_congr fun y _ => ?_
      by_cases hy : y = x
      · simp [hy, hp]
      · simp [hy]
termination_by xs.length

/-- A member that occurs before adds nothing to the first occurrences. -/
theorem eraseDups_append_cons_of_mem {xs : List α} {x : α} (hx : x ∈ xs) (ys : List α) :
    (xs ++ x :: ys).eraseDups = (xs ++ ys).eraseDups := by
  rw [List.eraseDups_append, List.eraseDups_append, List.cons_removeAll]
  simp [hx]

/-- One more member is a first occurrence unless it occurs before. -/
theorem eraseDups_append_singleton (xs : List α) (x : α) :
    (xs ++ [x]).eraseDups = if x ∈ xs then xs.eraseDups else xs.eraseDups ++ [x] := by
  split
  · next hx => rw [eraseDups_append_cons_of_mem hx, List.append_nil]
  · next hx =>
    rw [List.eraseDups_append, List.cons_removeAll]
    simp [hx, List.eraseDups_cons]

/-- What stands behind members is compared with their first occurrences only. -/
theorem eraseDups_eraseDups_append (xs ys : List α) :
    (xs.eraseDups ++ ys).eraseDups = (xs ++ ys).eraseDups := by
  rw [List.eraseDups_append, List.eraseDups_append, eraseDups_eq_self (nodup_eraseDups xs)]
  simp [List.removeAll]

/-- Of what stands behind members only the first occurrences count. -/
theorem eraseDups_append_eraseDups (xs ys : List α) :
    (xs ++ ys.eraseDups).eraseDups = (xs ++ ys).eraseDups := by
  have hself := eraseDups_eq_self (nodup_eraseDups ys)
  rw [List.eraseDups_append, List.eraseDups_append, List.removeAll, List.removeAll,
    eraseDups_filter, eraseDups_filter, hself]

/-- Members that all occur before add nothing to the first occurrences. -/
theorem eraseDups_append_of_subset {xs ys : List α} (h : ∀ y ∈ ys, y ∈ xs) :
    (xs ++ ys).eraseDups = xs.eraseDups := by
  have hnone : ys.removeAll xs = [] := by
    simpa [List.removeAll] using h
  rw [List.eraseDups_append, hnone, List.eraseDups_nil, List.append_nil]

/-- What stands behind distinct members does not make their number smaller. -/
theorem length_le_length_eraseDups_append {xs : List α} (h : xs.Nodup) (ys : List α) :
    xs.length ≤ (xs ++ ys).eraseDups.length := by
  rw [List.eraseDups_append, eraseDups_eq_self h, List.length_append]
  exact Nat.le_add_right ..

/-- The place of a member among the first occurrences is the number of different members before
it. -/
theorem getElem?_eraseDups_eq_some_iff {xs : List α} {x : α} {i : Nat} :
    xs.eraseDups[i]? = some x ↔
      ∃ before after, xs = before ++ x :: after ∧ x ∉ before ∧ i = before.eraseDups.length := by
  have hplace : ∀ before after : List α, x ∉ before →
      (before ++ x :: after).eraseDups[before.eraseDups.length]? = some x := by
    intro before after hx
    rw [List.eraseDups_append, List.getElem?_append_right (Nat.le_refl _), List.cons_removeAll]
    simp [hx, List.eraseDups_cons]
  constructor
  · intro h
    have hx : x ∈ xs := List.mem_eraseDups.1 (List.mem_of_getElem? h)
    obtain ⟨before, after, rfl, hbefore⟩ := List.eq_append_cons_of_mem hx
    refine ⟨before, after, rfl, hbefore, ?_⟩
    -- No member stands at two places.
    have hi := (List.getElem?_eq_some_iff.1 h).1
    rw [← hplace before after hbefore] at h
    exact (List.getElem?_inj hi (nodup_eraseDups _)).1 h
  · rintro ⟨before, after, rfl, hx, rfl⟩
    exact hplace before after hx

end FirstOccurrences

/-! ## Distinctness by sorting -/

/-- Whether each text comes before the next one. -/
def strictlyAscending : List String → Bool
  | x :: y :: rest => x < y && strictlyAscending (y :: rest)
  | _ => true

/-- Whether no text occurs twice. -/
def allDistinct (xs : List String) : Bool :=
  strictlyAscending xs.mergeSort

/-- In a strictly ascending list each text comes before all later ones. -/
theorem strictlyAscending_iff {xs : List String} :
    strictlyAscending xs = true ↔ xs.Pairwise (· < ·) := by
  induction xs with
  | nil => simp [strictlyAscending]
  | cons x xs ih =>
    cases xs with
    | nil => simp [strictlyAscending]
    | cons y rest =>
      rw [strictlyAscending, Bool.and_eq_true, decide_eq_true_eq, ih]
      constructor
      · rintro ⟨hxy, hrest⟩
        refine List.pairwise_cons.2 ⟨fun z hz => ?_, hrest⟩
        rcases List.mem_cons.1 hz with rfl | hz
        · exact hxy
        · exact String.lt_trans hxy ((List.pairwise_cons.1 hrest).1 z hz)
      · intro h
        obtain ⟨hx, hrest⟩ := List.pairwise_cons.1 h
        exact ⟨hx y List.mem_cons_self, hrest⟩

/-- A sorted list of texts is in ascending order. -/
theorem pairwise_le_mergeSort (xs : List String) : xs.mergeSort.Pairwise (· ≤ ·) := by
  have trans : ∀ x y z : String, decide (x ≤ y) → decide (y ≤ z) → decide (x ≤ z) := by
    intro x y z hxy hyz
    simp only [decide_eq_true_eq] at hxy hyz ⊢
    exact String.le_trans hxy hyz
  have total : ∀ x y : String, decide (x ≤ y) || decide (y ≤ x) := by
    intro x y
    simpa using String.le_total x y
  exact (List.pairwise_mergeSort trans total xs).imp of_decide_eq_true

/-- Sorting forgets the order. -/
theorem mergeSort_eq_of_perm {xs ys : List String} (h : xs.Perm ys) :
    xs.mergeSort = ys.mergeSort := by
  have hperm : xs.mergeSort.Perm ys.mergeSort :=
    ((List.mergeSort_perm ..).trans h).trans (List.mergeSort_perm ..).symm
  apply hperm.eq_of_pairwise _ (pairwise_le_mergeSort xs) (pairwise_le_mergeSort ys)
  intro x y _ _ hxy hyx
  exact String.le_antisymm hxy hyx

/-- Sorting decides whether the members of a list are distinct. -/
theorem allDistinct_iff {xs : List String} : allDistinct xs = true ↔ xs.Nodup := by
  have hperm : xs.mergeSort.Nodup ↔ xs.Nodup := (List.mergeSort_perm ..).nodup_iff
  rw [allDistinct, strictlyAscending_iff, ← hperm]
  constructor
  · intro h
    have ne_of_lt : ∀ {x y : String}, x < y → x ≠ y := by
      rintro x _ hlt rfl
      exact String.lt_irrefl x hlt
    exact h.imp ne_of_lt
  · intro h
    refine ((pairwise_le_mergeSort xs).and h).imp fun ⟨hle, hne⟩ => ?_
    exact String.not_le.1 fun hge => hne (String.le_antisymm hle hge)

end Clausal
