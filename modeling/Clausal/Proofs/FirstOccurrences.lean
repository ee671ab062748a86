/-
  Clausal.Proofs.FirstOccurrences

  What it means that a list holds the members of another one in the order of their first occurrence,
  said without naming the list: it has the same members, and a member stands before another one when
  its first place in the other list does. There is exactly one such list (`firstOccurrences_iff`).
-/
import Clausal.Distinct
import Mathlib.Data.List.Basic
import Mathlib.Data.List.Induction

namespace Clausal

variable {α : Type} [DecidableEq α] {xs ys : List α}

/-- The second list holds each member of the first one once, in the order of their first places. -/
structure FirstOccurrences (xs ys : List α) : Prop where
  mem_iff (x : α) : x ∈ ys ↔ x ∈ xs
  ordered : ys.Pairwise fun x y => xs.idxOf x < xs.idxOf y

/-- No member stands before itself. -/
theorem FirstOccurrences.nodup (h : FirstOccurrences xs ys) : ys.Nodup := by
  apply h.ordered.imp
  rintro x _ hlt rfl
  exact Nat.lt_irrefl _ hlt

/-- The first places of members stay when the list goes on. -/
theorem pairwise_idxOf_append (hmem : ∀ y ∈ ys, y ∈ xs)
    (h : ys.Pairwise fun x y => xs.idxOf x < xs.idxOf y) (later : List α) :
    ys.Pairwise fun x y => (xs ++ later).idxOf x < (xs ++ later).idxOf y := by
  apply h.imp_of_mem
  intro x y hx hy hlt
  rwa [List.idxOf_append_of_mem (hmem x hx), List.idxOf_append_of_mem (hmem y hy)]

theorem pairwise_idxOf_eraseDups (xs : List α) :
    xs.eraseDups.Pairwise fun x y => xs.idxOf x < xs.idxOf y := by
  induction xs using List.reverseRecOn with
  | nil => exact .nil
  | append_singleton xs x ih =>
    have hkept := pairwise_idxOf_append (fun y hy => List.mem_eraseDups.1 hy) ih [x]
    rw [eraseDups_append_singleton]
    split
    · exact hkept
    · next hx =>
      refine List.pairwise_append.2 ⟨hkept, List.pairwise_singleton .., fun y hy z hz => ?_⟩
      -- The new member comes after all others.
      obtain rfl := List.mem_singleton.1 hz
      have hy : y ∈ xs := List.mem_eraseDups.1 hy
      rw [List.idxOf_append_of_mem hy, List.idxOf_append_of_notMem hx]
      exact Nat.lt_of_lt_of_le (List.idxOf_lt_length_iff.2 hy) (Nat.le_add_right ..)

theorem firstOccurrences_eraseDups (xs : List α) : FirstOccurrences xs xs.eraseDups :=
  ⟨fun _ => List.mem_eraseDups, pairwise_idxOf_eraseDups xs⟩

/-- The members of a list have one order of first occurrence. -/
theorem firstOccurrences_iff : FirstOccurrences xs ys ↔ ys = xs.eraseDups := by
  constructor
  · intro h
    have hxs := firstOccurrences_eraseDups xs
    have hperm : ys.Perm xs.eraseDups :=
      (List.perm_ext_iff_of_nodup h.nodup hxs.nodup).2 fun x =>
        (h.mem_iff x).trans (hxs.mem_iff x).symm
    apply hperm.eq_of_pairwise _ h.ordered hxs.ordered
    intro x y _ _ hxy hyx
    exact absurd hyx (Nat.lt_asymm hxy)
  · rintro rfl
    exact firstOccurrences_eraseDups xs

end Clausal
