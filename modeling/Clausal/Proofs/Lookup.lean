/-
  Clausal.Proofs.Lookup

  Searching a list by a key that each member has, for the value of the first member with the key
  (`lookup`). If no two members share a key, a search is membership (`lookup_eq_some_iff`), and it
  makes no difference from which end the list is searched. The same holds if members are repeated,
  as long as a key tells which member has it (`lookup_eq_some_iff_of_inj`).

  A store that is written member by member answers with the value that was written last under a key
  (`lookup_foldl`): it is searched as the list of what was written, from its end.
-/
import Mathlib.Data.List.Forall2
import Mathlib.Data.List.Nodup

namespace Clausal

variable {α κ ν : Type} [DecidableEq κ] {key : α → κ} {val : α → ν} {xs : List α} {x : α}
  {p : α → Bool} {k : κ}

/-- The value of the first member with a key. -/
def lookup (key : α → κ) (val : α → ν) (xs : List α) (k : κ) : Option ν :=
  (xs.find? (key · = k)).map val

theorem lookup_cons (x : α) (xs : List α) (k : κ) :
    lookup key val (x :: xs) k = if key x = k then some (val x) else lookup key val xs k := by
  by_cases hx : key x = k <;> simp [lookup, hx]

/-- If a key tells which member has it, the member with a key is found. -/
theorem lookup_eq_some_iff_of_inj (h : ∀ x ∈ xs, ∀ y ∈ xs, key x = key y → x = y) {v : ν} :
    lookup key val xs k = some v ↔ ∃ x ∈ xs, key x = k ∧ val x = v := by
  rw [lookup, Option.map_eq_some_iff]
  constructor
  · rintro ⟨x, hfind, hval⟩
    exact ⟨x, List.mem_of_find?_eq_some hfind, by simpa using List.find?_some hfind, hval⟩
  · rintro ⟨x, hx, rfl, hval⟩
    cases hfind : xs.find? (key · = key x) with
    | none =>
      have hnone := List.find?_eq_none.1 hfind x hx
      simp at hnone
    | some y =>
      have hkey : key y = key x := by simpa using List.find?_some hfind
      obtain rfl := h y (List.mem_of_find?_eq_some hfind) x hx hkey
      exact ⟨y, rfl, hval⟩

/-- If no two members have one key, the member with a key is found. -/
theorem lookup_eq_some_iff (h : (xs.map key).Nodup) {v : ν} :
    lookup key val xs k = some v ↔ ∃ x ∈ xs, key x = k ∧ val x = v :=
  lookup_eq_some_iff_of_inj fun _ hx _ hy => List.inj_on_of_nodup_map h hx hy

/-- The first member with a key is found. -/
theorem lookup_eq_some_iff_first {v : ν} :
    lookup key val xs k = some v ↔
      ∃ before x after, xs = before ++ x :: after ∧ key x = k ∧ val x = v ∧
        ∀ y ∈ before, key y ≠ k := by
  simp only [lookup, Option.map_eq_some_iff, List.find?_eq_some_iff_append, decide_eq_true_eq,
    Bool.not_eq_true', decide_eq_false_iff_not]
  constructor
  · rintro ⟨x, ⟨hx, before, after, hsplit, hbefore⟩, hval⟩
    exact ⟨before, x, after, hsplit, hx, hval, hbefore⟩
  · rintro ⟨before, x, after, hsplit, hx, hval, hbefore⟩
    exact ⟨x, ⟨hx, before, after, hsplit, hbefore⟩, hval⟩

omit [DecidableEq κ] in
/-- The keys stay distinct when a member takes the place of those with its key. -/
theorem nodup_map_cons_filter (h : (xs.map key).Nodup) (hp : ∀ y, p y = true → key y ≠ key x) :
    ((x :: xs.filter p).map key).Nodup := by
  rw [List.map_cons]
  apply List.nodup_cons.2
  constructor
  · intro hmem
    obtain ⟨y, hy, heq⟩ := List.mem_map.1 hmem
    exact hp y (List.mem_filter.1 hy).2 heq
  · exact h.sublist (List.filter_sublist.map key)

/-- What is found after a member took the place of those with its key or its value: itself under its
key, nothing under the key that had its value, and what was found before under every other key. -/
theorem lookup_cons_filter [DecidableEq ν] (h : (xs.map key).Nodup)
    (hp : ∀ y, p y = true ↔ key y ≠ key x ∧ val y ≠ val x) :
    lookup key val (x :: xs.filter p) k =
      if k = key x then some (val x)
      else if lookup key val xs k = some (val x) then none
      else lookup key val xs k := by
  have hnodup := nodup_map_cons_filter h fun y hy => ((hp y).1 hy).1
  by_cases hk : k = key x
  · rw [if_pos hk]
    exact (lookup_eq_some_iff hnodup).2 ⟨x, List.mem_cons_self, hk.symm, rfl⟩
  · rw [if_neg hk]
    -- What is found is a member from before with another value.
    have hfound : ∀ v, lookup key val (x :: xs.filter p) k = some v ↔
        lookup key val xs k = some v ∧ v ≠ val x := by
      intro v
      rw [lookup_eq_some_iff hnodup, lookup_eq_some_iff h]
      constructor
      · rintro ⟨y, hy, rfl, rfl⟩
        cases List.mem_cons.1 hy with
        | inl heq => exact absurd (congrArg key heq) hk
        | inr hy =>
          obtain ⟨hy, hapart⟩ := List.mem_filter.1 hy
          exact ⟨⟨y, hy, rfl, rfl⟩, ((hp y).1 hapart).2⟩
      · rintro ⟨⟨y, hy, rfl, rfl⟩, hval⟩
        have hapart := (hp y).2 ⟨hk, hval⟩
        exact ⟨y, List.mem_cons_of_mem x (List.mem_filter.2 ⟨hy, hapart⟩), rfl, rfl⟩
    apply Option.ext
    intro v
    rw [hfound]
    by_cases hx : lookup key val xs k = some (val x)
    · rw [if_pos hx, hx, Option.some.injEq]
      simp [eq_comm]
    · rw [if_neg hx, and_iff_left_iff_imp]
      rintro hv rfl
      exact hx hv

/-! ## Searching from the end -/

theorem lookup_append (xs ys : List α) :
    lookup key val (xs ++ ys) k = (lookup key val xs k).or (lookup key val ys k) := by
  rw [lookup, List.find?_append, Option.map_or, lookup, lookup]

/-- From its end a list is searched for the last member with a key. -/
theorem lookup_reverse_eq_some_iff {v : ν} :
    lookup key val xs.reverse k = some v ↔
      ∃ before x after, xs = before ++ x :: after ∧ key x = k ∧ val x = v ∧
        ∀ y ∈ after, key y ≠ k := by
  rw [lookup_eq_some_iff_first]
  constructor
  · rintro ⟨behind, x, front, hsplit, hx, hval, hbehind⟩
    refine ⟨front.reverse, x, behind.reverse, ?_, hx, hval, ?_⟩
    · rw [← List.reverse_reverse xs, hsplit]
      simp
    · intro y hy
      exact hbehind y (List.mem_reverse.1 hy)
  · rintro ⟨before, x, after, rfl, hx, hval, hafter⟩
    refine ⟨after.reverse, x, before.reverse, by simp, hx, hval, ?_⟩
    intro y hy
    exact hafter y (List.mem_reverse.1 hy)

/-- If a key tells which member has it, it makes no difference where the search starts. -/
theorem lookup_reverse_of_inj (h : ∀ x ∈ xs, ∀ y ∈ xs, key x = key y → x = y) :
    lookup key val xs.reverse k = lookup key val xs k := by
  have hreverse : ∀ x ∈ xs.reverse, ∀ y ∈ xs.reverse, key x = key y → x = y := by
    intro x hx y hy
    exact h x (List.mem_reverse.1 hx) y (List.mem_reverse.1 hy)
  apply Option.ext
  intro v
  rw [lookup_eq_some_iff_of_inj hreverse, lookup_eq_some_iff_of_inj h]
  simp only [List.mem_reverse]

/-- If no two members share a key, it makes no difference where the search starts. -/
theorem lookup_reverse (h : (xs.map key).Nodup) :
    lookup key val xs.reverse k = lookup key val xs k :=
  lookup_reverse_of_inj fun _ hx _ hy => List.inj_on_of_nodup_map h hx hy

/-- In a store that answers under the key of the latest member with its value and as before under
every other key, members put in one after the other are found as in their list searched from its
end. -/
theorem lookup_foldl {σ : Type} (look : σ → κ → Option ν) {put : σ → α → σ}
    (hput : ∀ s x k, look (put s x) k = if key x = k then some (val x) else look s k) (s : σ)
    (xs : List α) (k : κ) :
    look (xs.foldl put s) k = (lookup key val xs.reverse k).or (look s k) := by
  induction xs generalizing s with
  | nil => rfl
  | cons x xs ih =>
    rw [List.foldl_cons, ih, hput, List.reverse_cons, lookup_append, Option.or_assoc, lookup_cons]
    congr 1
    split <;> rfl

/-- Lists whose members correspond, keys and values included, are searched alike. -/
theorem lookup_eq_of_forall₂ {β κ' : Type} [DecidableEq κ'] {key' : β → κ'} {val' : β → ν} {k' : κ'}
    {ys : List β} (h : List.Forall₂ (fun x y => (key x = k ↔ key' y = k') ∧ val x = val' y) xs ys) :
    lookup key val xs k = lookup key' val' ys k' := by
  induction h with
  | nil => rfl
  | cons hxy _ ih =>
    rw [lookup_cons, lookup_cons, ih, hxy.2]
    simp only [hxy.1]

end Clausal
