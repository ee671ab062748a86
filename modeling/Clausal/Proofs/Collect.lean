/-
  Clausal.Proofs.Collect

  Lists whose members are turned into others one by one until the first one fails. Everything that
  crosses between indices and names, and every reading of several words or lines, is such a run.

  A run succeeds exactly when each member does (`mapM_eq_ok_iff`, `mapM_eq_some_iff`); it fails with
  the failure of the first member that does (`failureOf?_mapM`, `mapM_eq_error_iff`). The views of
  the two success laws are `List.Forall₂`, so what holds of one step carries over to a run by
  induction on that relation.

  A run through lists of lists is one through all their members (`mapM_flatten`). Two runs over
  corresponding lists whose steps end alike end alike themselves (`SameOutcome.mapM`), even if they
  report their failures differently.
-/
import Mathlib.Data.List.Forall2

namespace Clausal

/-! ## Failures -/

section Failure

variable {ε α β : Type}

/-- The failure of a result that has no value. -/
def failureOf? : Except ε α → Option ε
  | .ok _ => none
  | .error e => some e

theorem eq_error_iff_failureOf? {result : Except ε α} {e : ε} :
    result = .error e ↔ failureOf? result = some e := by
  cases result <;> simp [failureOf?]

theorem exists_eq_ok_iff_failureOf? {result : Except ε α} :
    (∃ x, result = .ok x) ↔ failureOf? result = none := by
  cases result <;> simp [failureOf?]

/-- What is done with a value has no part in a failure. -/
theorem failureOf?_map (g : α → β) (result : Except ε α) :
    failureOf? (g <$> result) = failureOf? result := by
  cases result <;> rfl

end Failure

variable {α β γ ε : Type}

/-! ## Runs that report a failure -/

section Except

variable {f : α → Except ε β}

/-- The failure of a run is the first one of a member. -/
theorem failureOf?_mapM (f : α → Except ε β) (xs : List α) :
    failureOf? (xs.mapM f) = xs.findSome? fun x => failureOf? (f x) := by
  induction xs with
  | nil => rfl
  | cons x xs ih =>
    rw [List.mapM_cons, List.findSome?_cons]
    cases f x with
    | error e => rfl
    | ok y =>
      -- The first result only goes in front of what comes of the rest.
      show failureOf? ((y :: ·) <$> xs.mapM f) = _
      rw [failureOf?_map, ih]
      rfl

/-- A run succeeds when every member does, with the results in order. -/
theorem mapM_eq_ok_iff {xs : List α} {ys : List β} :
    xs.mapM f = .ok ys ↔ List.Forall₂ (fun x y => f x = .ok y) xs ys := by
  induction xs generalizing ys with
  | nil => cases ys <;> simp [pure, Except.pure]
  | cons x xs ih =>
    rw [List.mapM_cons, List.forall₂_cons_left_iff]
    cases hx : f x with
    | error e => simp [bind, Except.bind]
    | ok y =>
      cases hxs : xs.mapM f with
      | error e =>
        have hnone : ∀ zs, ¬List.Forall₂ (fun x y => f x = .ok y) xs zs := fun zs hzs => by
          rw [ih.2 hzs] at hxs
          cases hxs
        simp [bind, Except.bind, hnone]
      | ok zs =>
        -- Both the member and the rest succeed, so the results are determined.
        have hzs := ih.1 hxs
        simp only [bind, Except.bind, pure, Except.pure, Except.ok.injEq]
        refine ⟨?_, ?_⟩
        · rintro rfl
          exact ⟨y, zs, rfl, hzs, rfl⟩
        · intro h
          obtain ⟨_, _, rfl, h, rfl⟩ := h
          rw [ih.2 h] at hxs
          cases hxs
          rfl

/-- A run fails with the failure of the first member that does. -/
theorem mapM_eq_error_iff {xs : List α} {e : ε} :
    xs.mapM f = .error e ↔
      ∃ before x after, xs = before ++ x :: after ∧ (∀ y ∈ before, ∃ z, f y = .ok z) ∧
        f x = .error e := by
  rw [eq_error_iff_failureOf?, failureOf?_mapM, List.findSome?_eq_some_iff]
  simp only [← eq_error_iff_failureOf?, ← exists_eq_ok_iff_failureOf?]
  constructor
  · rintro ⟨before, x, after, rfl, hx, hbefore⟩
    exact ⟨before, x, after, rfl, hbefore, hx⟩
  · rintro ⟨before, x, after, rfl, hbefore, hx⟩
    exact ⟨before, x, after, rfl, hx, hbefore⟩

/-- Two steps succeed when the second one does with what the first one gives. -/
theorem bind_eq_ok_iff {x : Except ε α} {g : α → Except ε β} {b : β} :
    x >>= g = .ok b ↔ ∃ a, x = .ok a ∧ g a = .ok b := by
  cases x <;> simp [bind, Except.bind]

/-- What is done with a result is done when there is one. -/
theorem map_eq_ok_iff {x : Except ε α} {g : α → β} {b : β} :
    g <$> x = .ok b ↔ ∃ a, x = .ok a ∧ g a = b := by
  cases x <;> simp [Functor.map, Except.map]

theorem map_eq_error_iff {x : Except ε α} {g : α → β} {e : ε} :
    g <$> x = .error e ↔ x = .error e := by
  rw [eq_error_iff_failureOf?, failureOf?_map, ← eq_error_iff_failureOf?]

end Except

section Monad

variable {m : Type → Type} [Monad m] [LawfulMonad m]

/-- Only the members of a list matter to a run through it. -/
theorem mapM_congr {f g : α → m β} {xs : List α} (h : ∀ x ∈ xs, f x = g x) :
    xs.mapM f = xs.mapM g := by
  induction xs with
  | nil => simp
  | cons x xs ih =>
    rw [List.mapM_cons, List.mapM_cons, h x List.mem_cons_self,
      ih fun y hy => h y (List.mem_cons_of_mem _ hy)]

/-- What is done with each result can be done with all of them at the end. -/
theorem mapM_map_result (f : α → m β) (g : β → γ) (xs : List α) :
    (xs.mapM fun x => g <$> f x) = List.map g <$> xs.mapM f := by
  induction xs with
  | nil => simp
  | cons x xs ih => simp [ih]

/-- A run through lists, member by member, is a run through all their members in order. -/
theorem mapM_flatten (f : α → m β) (rows : List (List α)) :
    rows.flatten.mapM f = List.flatten <$> rows.mapM fun row => row.mapM f := by
  induction rows with
  | nil => simp
  | cons row rows ih => simp [ih]

end Monad

/-! ## Runs that only stop -/

/-- A run without reasons succeeds when every member does, with the results in order. -/
theorem mapM_eq_some_iff {f : α → Option β} {xs : List α} {ys : List β} :
    xs.mapM f = some ys ↔ List.Forall₂ (fun x y => f x = some y) xs ys := by
  induction xs generalizing ys with
  | nil => cases ys <;> simp
  | cons x xs ih =>
    rw [List.mapM_cons, List.forall₂_cons_left_iff]
    simp only [Option.bind_eq_bind, Option.bind_eq_some_iff, ih, Option.pure_def, Option.some.injEq]
    refine ⟨?_, ?_⟩
    · intro h
      obtain ⟨y, hy, zs, hzs, rfl⟩ := h
      exact ⟨y, zs, hy, hzs, rfl⟩
    · intro h
      obtain ⟨y, zs, hy, hzs, rfl⟩ := h
      exact ⟨y, hy, zs, hzs, rfl⟩

/-! ## Members that correspond -/

section Forall₂

variable {r : α → β → Prop} {xs : List α} {ys : List β}

theorem forall₂_swap : List.Forall₂ (fun y x => r x y) ys xs ↔ List.Forall₂ r xs ys :=
  ⟨List.Forall₂.flip, List.Forall₂.flip⟩

theorem forall_mem_iff_of_forall₂ {p : α → Prop} {q : β → Prop} (h : List.Forall₂ r xs ys)
    (hpq : ∀ x y, r x y → (p x ↔ q y)) : (∀ x ∈ xs, p x) ↔ ∀ y ∈ ys, q y := by
  induction h with
  | nil => simp
  | cons hxy _ ih => rw [List.forall_mem_cons, List.forall_mem_cons, hpq _ _ hxy, ih]

theorem exists_mem_iff_of_forall₂ {p : α → Prop} {q : β → Prop} (h : List.Forall₂ r xs ys)
    (hpq : ∀ x y, r x y → (p x ↔ q y)) : (∃ x ∈ xs, p x) ↔ ∃ y ∈ ys, q y := by
  induction h with
  | nil => simp
  | cons hxy _ ih => rw [List.exists_mem_cons_iff, List.exists_mem_cons_iff, hpq _ _ hxy, ih]

/-- If every member has a partner, the whole list has one. -/
theorem exists_forall₂ (h : ∀ x ∈ xs, ∃ y, r x y) : ∃ ys, List.Forall₂ r xs ys := by
  induction xs with
  | nil => exact ⟨[], .nil⟩
  | cons x xs ih =>
    obtain ⟨y, hy⟩ := h x List.mem_cons_self
    obtain ⟨ys, hys⟩ := ih fun z hz => h z (List.mem_cons_of_mem _ hz)
    exact ⟨y :: ys, .cons hy hys⟩

theorem exists_of_mem_left {x : α} (h : List.Forall₂ r xs ys) (hx : x ∈ xs) : ∃ y ∈ ys, r x y := by
  induction h with
  | nil => cases hx
  | cons hxy _ ih =>
    rcases List.mem_cons.1 hx with rfl | hx
    · exact ⟨_, List.mem_cons_self, hxy⟩
    · obtain ⟨y, hy, hr⟩ := ih hx
      exact ⟨y, List.mem_cons_of_mem _ hy, hr⟩

theorem exists_of_mem_right {y : β} (h : List.Forall₂ r xs ys) (hy : y ∈ ys) : ∃ x ∈ xs, r x y :=
  exists_of_mem_left (List.Forall₂.flip h) hy

/-- If members that correspond have a common partner, the lists have a common list of partners. -/
theorem exists_common_of_forall₂ {s : α → γ → Prop} {t : β → γ → Prop}
    (h : List.Forall₂ (fun x y => ∃ z, s x z ∧ t y z) xs ys) :
    ∃ zs, List.Forall₂ s xs zs ∧ List.Forall₂ t ys zs := by
  induction h with
  | nil => exact ⟨[], .nil, .nil⟩
  | cons hxy _ ih =>
    obtain ⟨z, hx, hy⟩ := hxy
    obtain ⟨zs, hxs, hys⟩ := ih
    exact ⟨z :: zs, .cons hx hxs, .cons hy hys⟩

/-- Runs over corresponding lists whose steps are the same computations are the same. -/
theorem mapM_eq_of_forall₂ {m : Type → Type} [Monad m] [LawfulMonad m] {f : α → m γ} {g : β → m γ}
    (h : List.Forall₂ (fun x y => f x = g y) xs ys) : xs.mapM f = ys.mapM g := by
  induction h with
  | nil => simp
  | cons hxy _ ih => rw [List.mapM_cons, List.mapM_cons, hxy, ih]

/-- Selecting on both sides by classes that agree keeps members corresponding. -/
theorem forall₂_filter {p : α → Bool} {q : β → Bool}
    (h : List.Forall₂ r xs ys) (hpq : ∀ x y, r x y → p x = q y) :
    List.Forall₂ r (xs.filter p) (ys.filter q) := by
  induction h with
  | nil => exact .nil
  | cons hxy _ ih =>
    rw [List.filter_cons, List.filter_cons, hpq _ _ hxy]
    split
    · exact .cons hxy ih
    · exact ih

/-- How members correspond may depend on their being members. -/
theorem forall₂_imp_of_mem {s : α → β → Prop} (h : List.Forall₂ r xs ys)
    (himp : ∀ x ∈ xs, ∀ y ∈ ys, r x y → s x y) : List.Forall₂ s xs ys := by
  induction h with
  | nil => exact .nil
  | cons hxy _ ih =>
    refine .cons (himp _ List.mem_cons_self _ List.mem_cons_self hxy) (ih ?_)
    intro x hx y hy
    exact himp x (List.mem_cons_of_mem _ hx) y (List.mem_cons_of_mem _ hy)

/-- If members correspond one to one, so do their first occurrences. -/
theorem forall₂_eraseDups [DecidableEq α] [DecidableEq β] (hr : Relator.BiUnique r)
    {xs : List α} {ys : List β} (h : List.Forall₂ r xs ys) :
    List.Forall₂ r xs.eraseDups ys.eraseDups := by
  match xs, ys, h with
  | [], [], .nil => exact .nil
  | x :: xs, y :: ys, .cons hxy h =>
    have hlt : (xs.filter fun z => !z == x).length < xs.length + 1 :=
      Nat.lt_succ_of_le (List.length_filter_le ..)
    -- The members that repeat the first one correspond to those that repeat its partner.
    have hothers : List.Forall₂ r (xs.filter fun z => !z == x) (ys.filter fun z => !z == y) := by
      apply forall₂_filter h
      intro z w hzw
      rw [Bool.eq_iff_iff]
      simpa using not_congr (Relator.rel_eq hr hzw hxy)
    rw [List.eraseDups_cons, List.eraseDups_cons]
    exact .cons hxy (forall₂_eraseDups hr hothers)
termination_by xs.length

/-- Lists are the same if their members have the same images, place by place, and no two different
members have the same one. -/
theorem eq_of_map_eq {f : α → β} {xs ys : List α} (h : xs.map f = ys.map f)
    (hf : ∀ x ∈ xs, ∀ y ∈ ys, f x = f y → x = y) : xs = ys := by
  rw [← List.forall₂_eq_eq_eq, List.forall₂_map_left_iff, List.forall₂_map_right_iff] at h
  rw [← List.forall₂_eq_eq_eq]
  exact forall₂_imp_of_mem h hf

/-- Replacing members one to one replaces their first occurrences. -/
theorem eraseDups_map [DecidableEq α] [DecidableEq β] {f : α → β} {xs : List α}
    (hf : ∀ x ∈ xs, ∀ y ∈ xs, f x = f y → x = y) :
    (xs.map f).eraseDups = xs.eraseDups.map f := by
  have hunique : Relator.BiUnique fun x y => x ∈ xs ∧ f x = y := by
    constructor
    · rintro x y z ⟨hx, rfl⟩ ⟨hy, heq⟩
      exact hf x hx y hy heq.symm
    · rintro x y z ⟨-, rfl⟩ ⟨-, rfl⟩
      rfl
  have hmembers : List.Forall₂ (fun x y => x ∈ xs ∧ f x = y) xs (xs.map f) :=
    List.forall₂_map_right_iff.2 (List.forall₂_same.2 fun x hx => ⟨hx, rfl⟩)
  have hfirst := (forall₂_eraseDups hunique hmembers).imp fun _ _ h => h.2
  rw [← List.forall₂_map_left_iff, List.forall₂_eq_eq_eq] at hfirst
  exact hfirst.symm

end Forall₂

/-! ## Runs that end alike -/

/-- Both computations succeed with the same result, or they fail with failures that are related. -/
inductive SameOutcome {δ : Type} (r : ε → δ → Prop) : Except ε α → Except δ α → Prop where
  | ok (a : α) : SameOutcome r (.ok a) (.ok a)
  | error {e : ε} {d : δ} : r e d → SameOutcome r (.error e) (.error d)

namespace SameOutcome

variable {δ : Type} {r : ε → δ → Prop}

theorem bind {x : Except ε α} {y : Except δ α} {f : α → Except ε β} {g : α → Except δ β}
    (hxy : SameOutcome r x y) (hfg : ∀ a, SameOutcome r (f a) (g a)) :
    SameOutcome r (x >>= f) (y >>= g) := by
  cases hxy with
  | ok a => exact hfg a
  | error h => exact .error h

theorem map {x : Except ε α} {y : Except δ α} (f : α → β) (hxy : SameOutcome r x y) :
    SameOutcome r (f <$> x) (f <$> y) := by
  cases hxy with
  | ok a => exact .ok (f a)
  | error h => exact .error h

/-- The first members that fail correspond to each other, since all before them end alike. -/
theorem mapM {f : α → Except ε γ} {g : β → Except δ γ} {xs : List α} {ys : List β}
    (h : List.Forall₂ (fun x y => SameOutcome r (f x) (g y)) xs ys) :
    SameOutcome r (xs.mapM f) (ys.mapM g) := by
  induction h with
  | nil => exact .ok []
  | cons hxy _ ih =>
    rw [List.mapM_cons, List.mapM_cons]
    exact hxy.bind fun z => ih.bind fun zs => .ok (z :: zs)

end SameOutcome

end Clausal
