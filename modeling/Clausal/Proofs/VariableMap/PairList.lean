/-
  Clausal.Proofs.VariableMap.PairList

  A store of pairs as a list in which no variable and no name occurs twice. A pair is put in front,
  behind which all pairs that share its name or its variable are dropped. The list is searched in
  the same way from both sides, so the laws of a search are used for both.
-/
import Clausal.Proofs.Lookup
import Clausal.VariableMap.PairStore

namespace Clausal

/-! ## The store -/

/-- Pairs of a variable and a name, where no two pairs share one of them. -/
structure PairList where
  /-- The pairs, the latest first. -/
  pairs : List (Variable × String)
  nodup_variables : (pairs.map Prod.fst).Nodup
  nodup_names : (pairs.map Prod.snd).Nodup

namespace PairList

/-- Whether a pair shares neither the variable nor the name of another one. -/
def isApart (p q : Variable × String) : Bool :=
  q.1 ≠ p.1 && q.2 ≠ p.2

theorem isApart_iff {p q : Variable × String} : isApart p q = true ↔ q.1 ≠ p.1 ∧ q.2 ≠ p.2 := by
  simp [isApart]

/-- Put a pair in front and drop those that share its name or its variable. -/
def insert (b : PairList) (name : String) (v : Variable) : PairList where
  pairs := (v, name) :: b.pairs.filter (isApart (v, name))
  nodup_variables := nodup_map_cons_filter b.nodup_variables fun _ hq => (isApart_iff.1 hq).1
  nodup_names := nodup_map_cons_filter b.nodup_names fun _ hq => (isApart_iff.1 hq).2

instance : PairStore PairList where
  empty := ⟨[], .nil, .nil⟩
  insert := insert
  index? b := lookup Prod.snd Prod.fst b.pairs
  name? b := lookup Prod.fst Prod.snd b.pairs
  size b := b.pairs.length
  pairs := pairs

variable {b : PairList} {name : String} {v : Variable}

theorem index?_eq_some_iff : PairStore.index? b name = some v ↔ (v, name) ∈ b.pairs := by
  show lookup Prod.snd Prod.fst b.pairs name = some v ↔ _
  rw [lookup_eq_some_iff b.nodup_names]
  constructor
  · rintro ⟨p, hp, rfl, rfl⟩
    exact hp
  · intro hp
    exact ⟨(v, name), hp, rfl, rfl⟩

theorem name?_eq_some_iff : PairStore.name? b v = some name ↔ (v, name) ∈ b.pairs := by
  show lookup Prod.fst Prod.snd b.pairs v = some name ↔ _
  rw [lookup_eq_some_iff b.nodup_variables]
  constructor
  · rintro ⟨p, hp, rfl, rfl⟩
    exact hp
  · intro hp
    exact ⟨(v, name), hp, rfl, rfl⟩

/-- A pair that shares nothing with the others pushes none of them out. -/
theorem length_insert (hindex : PairStore.index? b name = none)
    (hname : PairStore.name? b v = none) :
    (b.insert name v).pairs.length = b.pairs.length + 1 := by
  have hapart : ∀ q ∈ b.pairs, isApart (v, name) q = true := by
    intro ⟨w, other⟩ hq
    apply isApart_iff.2
    constructor
    · rintro rfl
      rw [name?_eq_some_iff.2 hq] at hname
      cases hname
    · rintro rfl
      rw [index?_eq_some_iff.2 hq] at hindex
      cases hindex
  rw [insert, List.length_cons, List.filter_eq_self.2 hapart]

instance : LawfulPairStore PairList where
  index?_empty _ := rfl
  name?_empty _ := rfl
  size_empty := rfl
  index?_insert b _ _ _ := lookup_cons_filter b.nodup_names fun _ => isApart_iff.trans and_comm
  name?_insert b _ _ _ := lookup_cons_filter b.nodup_variables fun _ => isApart_iff
  size_insert _ _ _ := length_insert
  nodup_pairs b := .of_map Prod.fst b.nodup_variables
  mem_pairs_iff _ _ _ := index?_eq_some_iff.symm

end PairList

end Clausal
