/-
  Clausal.Interleaving

  Two lists dealt into one, each in its own order. Nothing is lost, doubled or reordered: each place
  of the third list belongs to exactly one of the first two. If the members tell which of the two
  they belong to, there is one way to deal a list out (`interleaving_iff_filter`).
-/

namespace Clausal

variable {ι : Type}

/-- The third list holds the members of the first two, each in its own order. -/
inductive Interleaving : List ι → List ι → List ι → Prop where
  | nil : Interleaving [] [] []
  | left {x : ι} {xs ys zs : List ι} : Interleaving xs ys zs → Interleaving (x :: xs) ys (x :: zs)
  | right {y : ι} {xs ys zs : List ι} : Interleaving xs ys zs → Interleaving xs (y :: ys) (y :: zs)

namespace Interleaving

/-- One list may come as a whole before the other. -/
theorem append (xs ys : List ι) : Interleaving xs ys (xs ++ ys) := by
  induction xs with
  | nil =>
    induction ys with
    | nil => exact .nil
    | cons y ys ih => exact .right ih
  | cons x xs ih => exact .left ih

/-- An interleaving holds each member as often as both lists together. -/
theorem perm {xs ys zs : List ι} (h : Interleaving xs ys zs) : zs.Perm (xs ++ ys) := by
  induction h with
  | nil => exact .refl _
  | left _ ih => exact ih.cons _
  | right _ ih => exact (ih.cons _).trans List.perm_middle.symm

end Interleaving

/-- A list is dealt out by a property in exactly one way. -/
theorem interleaving_iff_filter {p : ι → Prop} [DecidablePred p] {xs ys zs : List ι} :
    (Interleaving xs ys zs ∧ (∀ x ∈ xs, p x) ∧ ∀ y ∈ ys, ¬p y) ↔
      xs = zs.filter (p ·) ∧ ys = zs.filter (¬p ·) := by
  constructor
  · rintro ⟨h, hxs, hys⟩
    induction h with
    | nil => exact ⟨rfl, rfl⟩
    | left _ ih =>
      obtain ⟨hx, hxs⟩ := List.forall_mem_cons.1 hxs
      obtain ⟨rfl, rfl⟩ := ih hxs hys
      simp [hx]
    | right _ ih =>
      obtain ⟨hy, hys⟩ := List.forall_mem_cons.1 hys
      obtain ⟨rfl, rfl⟩ := ih hxs hys
      simp [hy]
  · rintro ⟨rfl, rfl⟩
    refine ⟨?_, by simp, by simp⟩
    induction zs with
    | nil => exact .nil
    | cons z zs ih =>
      by_cases hz : p z
      · simpa [hz] using ih.left
      · simpa [hz] using ih.right

end Clausal
