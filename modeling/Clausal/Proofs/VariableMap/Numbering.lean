/-
  Clausal.Proofs.VariableMap.Numbering

  A store of pairs to which names are added one by one is a numbering. What a store shows of its
  pairs is compared with the list of names that a `VariableMap` is (`PairStore.Represents`). One
  addition to a store that represents a map gives a store that represents the map with the name
  inserted: since the indices in use are those up to the size, the next one is free, so no pair is
  pushed out. By induction, every sequence of additions that does not run out of indices succeeds
  and represents the map that the names build (`PairStore.Represents.addAll`).
-/
import Clausal.Proofs.VariableMap
import Clausal.Proofs.VariableMap.PairList

namespace Clausal.PairStore

variable {β : Type} [PairStore β]

/-- The store answers as the map does. -/
structure Represents (b : β) (m : VariableMap) : Prop where
  index?_eq : ∀ name, index? b name = m.index? name
  name?_eq : ∀ v, name? b v = m.name? v
  size_eq : size b = m.size

variable [LawfulPairStore β] {b : β} {m : VariableMap} {name : String}

theorem represents_empty : Represents (empty : β) VariableMap.empty where
  index?_eq name := by
    rw [LawfulPairStore.index?_empty]
    rfl
  name?_eq v := by
    rw [LawfulPairStore.name?_empty]
    rfl
  size_eq := LawfulPairStore.size_empty

namespace Represents

/-! ## One name -/

omit [LawfulPairStore β] in
/-- A new name has no variable yet. -/
theorem index?_eq_none (h : Represents b m) (hnew : name ∉ m.names) : index? b name = none := by
  rw [h.index?_eq, ← Option.not_isSome_iff_eq_none, VariableMap.index?_isSome_iff]
  exact hnew

omit [LawfulPairStore β] in
/-- Adding a known name changes nothing and returns its variable. -/
theorem add_known (h : Represents b m) (hknown : name ∈ m.names) :
    ∃ v, index? b name = some v ∧ add b name = .ok (v, b) := by
  obtain ⟨v, hv⟩ := Option.isSome_iff_exists.1 (VariableMap.index?_isSome_iff.2 hknown)
  have hindex : index? b name = some v := (h.index?_eq name).trans hv
  refine ⟨v, hindex, ?_⟩
  rw [add, hindex]

/-- Putting a new name in under the next index pushes nothing out. -/
theorem insert (h : Represents b m) (hnew : name ∉ m.names) (hroom : m.size < Variable.maxIndex)
    {v : Variable} (hv : v.index = m.size + 1) :
    Represents (PairStore.insert b name v) (m.insert name) := by
  -- The name has no variable yet, and the variable no name.
  have hname := h.index?_eq_none hnew
  have hvar : name? b v = none := by
    rw [h.name?_eq]
    exact VariableMap.name?_eq_none_iff.2 (by omega)
  constructor
  · intro other
    rw [LawfulPairStore.index?_insert]
    by_cases heq : other = name
    · subst heq
      rw [if_pos rfl, eq_comm, VariableMap.index?_eq_some_iff,
        VariableMap.name?_insert hnew hroom, if_pos hv]
    · have hkept : index? b other ≠ some v := by
        rw [h.index?_eq, Ne, VariableMap.index?_eq_some_iff, ← h.name?_eq, hvar]
        exact Option.some_ne_none other ∘ Eq.symm
      rw [if_neg heq, if_neg hkept, h.index?_eq, VariableMap.index?_insert_of_ne heq]
  · intro w
    rw [LawfulPairStore.name?_insert, VariableMap.name?_insert hnew hroom]
    by_cases heq : w = v
    · subst heq
      rw [if_pos rfl, if_pos hv]
    · have hkept : name? b w ≠ some name := by
        rw [h.name?_eq, Ne, ← VariableMap.index?_eq_some_iff, ← h.index?_eq, hname]
        exact Option.some_ne_none w ∘ Eq.symm
      have hindex : w.index ≠ m.size + 1 := by
        intro hw
        exact heq (Variable.ext_index (hw.trans hv.symm))
      rw [if_neg heq, if_neg hkept, if_neg hindex, h.name?_eq]
  · rw [LawfulPairStore.size_insert b name v hname hvar, h.size_eq,
      VariableMap.size_insert hnew hroom]

/-- Adding a new name returns the variable behind the last one. -/
theorem add_new (h : Represents b m) (hnew : name ∉ m.names)
    (hroom : m.size < Variable.maxIndex) :
    ∃ v b', add b name = .ok (v, b') ∧ v.index = m.size + 1 ∧ Represents b' (m.insert name) := by
  let v : Variable := ⟨m.size + 1, by omega, hroom⟩
  have hname := h.index?_eq_none hnew
  have hindex : Variable.ofIndex (size b + 1) = .ok v := by
    have hsome : Variable.ofIndex? (size b + 1) = some v := by
      rw [Variable.ofIndex?_eq_some_iff, h.size_eq]
    rw [Variable.ofIndex, hsome]
  refine ⟨v, PairStore.insert b name v, ?_, rfl, h.insert hnew hroom rfl⟩
  rw [add, hname]
  show Variable.ofIndex (size b + 1) >>= _ = _
  rw [hindex]
  rfl

/-- Adding a name follows inserting it into the map, if it is known or there is an index left. -/
theorem exists_add (h : Represents b m) (hroom : name ∉ m.names → m.size < Variable.maxIndex) :
    ∃ v b', add b name = .ok (v, b') ∧ Represents b' (m.insert name) := by
  by_cases hknown : name ∈ m.names
  · obtain ⟨v, -, hadd⟩ := h.add_known hknown
    rw [VariableMap.insert_of_mem hknown]
    exact ⟨v, b, hadd, h⟩
  · obtain ⟨v, b', hadd, -, hb'⟩ := h.add_new hknown (hroom hknown)
    exact ⟨v, b', hadd, hb'⟩

omit [LawfulPairStore β] in
/-- A new name that was added got an index. -/
theorem room_of_add (h : Represents b m) {v : Variable} {b' : β} (hadd : add b name = .ok (v, b'))
    (hnew : name ∉ m.names) : m.size < Variable.maxIndex := by
  have hname := h.index?_eq_none hnew
  rw [add, hname] at hadd
  -- The index behind the last one was handed out, so it is in range.
  obtain ⟨w, hw, -⟩ := bind_eq_ok_iff.1 hadd
  have hindex : w.index = m.size + 1 := by
    rw [← h.size_eq]
    exact Variable.ofIndex_eq_ok_iff.1 hw
  have hle := w.index_le
  omega

/-- A name that was added follows the name inserted into the map. -/
theorem of_add (h : Represents b m) {v : Variable} {b' : β} (hadd : add b name = .ok (v, b')) :
    Represents b' (m.insert name) := by
  obtain ⟨w, b₁, hadd₁, hb₁⟩ := h.exists_add (h.room_of_add hadd)
  rw [hadd] at hadd₁
  cases hadd₁
  exact hb₁

/-! ## Sequences of names -/

/-- Names that were added stand in the map behind those before them, each at its first
occurrence. -/
theorem exists_of_addAll (h : Represents b m) {names : List String} {b' : β}
    (hadd : addAll b names = .ok b') :
    ∃ m', Represents b' m' ∧ m'.names = (m.names ++ names).eraseDups := by
  induction names generalizing b m with
  | nil =>
    cases hadd
    refine ⟨m, h, ?_⟩
    rw [List.append_nil, eraseDups_eq_self m.nodup]
  | cons name rest ih =>
    rw [addAll, List.foldlM_cons] at hadd
    obtain ⟨b₁, hfirst, hrest⟩ := bind_eq_ok_iff.1 hadd
    obtain ⟨⟨v, b₂⟩, hname, rfl⟩ := map_eq_ok_iff.1 hfirst
    obtain ⟨m', hb', hnames⟩ := ih (h.of_add hname) hrest
    refine ⟨m', hb', ?_⟩
    rw [hnames, VariableMap.eraseDups_names_insert_append_of_room (h.room_of_add hname)]

/-- Adding names follows inserting them into the map, as long as there are indices left. -/
theorem exists_addAll (h : Represents b m) {names : List String}
    (hroom : (m.names ++ names).eraseDups.length ≤ Variable.maxIndex) :
    ∃ b', addAll b names = .ok b' ∧ Represents b' (names.foldl VariableMap.insert m) := by
  induction names generalizing b m with
  | nil => exact ⟨b, rfl, h⟩
  | cons name rest ih =>
    obtain ⟨v, b₁, hadd, hb₁⟩ := h.exists_add fun hnew => VariableMap.size_lt_maxIndex hnew hroom
    rw [← VariableMap.eraseDups_names_insert_append hroom] at hroom
    obtain ⟨b', hrest, hb'⟩ := ih hb₁ hroom
    refine ⟨b', ?_, hb'⟩
    rw [addAll, List.foldlM_cons, hadd]
    exact hrest

end Represents

/-- Names that do not run out of indices build a store that represents the map they build. -/
theorem exists_ofNames (β : Type) [PairStore β] [LawfulPairStore β] {names : List String}
    (hroom : names.eraseDups.length ≤ Variable.maxIndex) :
    ∃ b, ofNames β names = .ok b ∧ Represents b (VariableMap.ofNames names) :=
  represents_empty.exists_addAll hroom

/-- Whenever names build a store, it represents a map of them in the order of first occurrence. -/
theorem exists_of_ofNames {names : List String} {b : β} (h : ofNames β names = .ok b) :
    ∃ m, Represents b m ∧ m.names = names.eraseDups :=
  represents_empty.exists_of_addAll h

/-- The names of a map, added in the order of their indices, build a store that represents it. -/
theorem exists_ofNames_names (β : Type) [PairStore β] [LawfulPairStore β] (m : VariableMap) :
    ∃ b, ofNames β m.names = .ok b ∧ Represents b m := by
  have hroom : m.names.eraseDups.length ≤ Variable.maxIndex := by
    rw [eraseDups_eq_self m.nodup]
    exact m.length_le
  obtain ⟨b, hb, hrepresents⟩ := exists_ofNames β hroom
  rw [m.ofNames_names] at hrepresents
  exact ⟨b, hb, hrepresents⟩

/-! ## Listing -/

omit [LawfulPairStore β] in
/-- The entries are in the order of their indices. -/
theorem pairwise_entries (b : β) : (entries b).Pairwise fun p q => p.1 ≤ q.1 := by
  have trans : ∀ p q r : Nat × String,
      decide (p.1 ≤ q.1) → decide (q.1 ≤ r.1) → decide (p.1 ≤ r.1) := by
    intro p q r hpq hqr
    simp only [decide_eq_true_eq] at hpq hqr ⊢
    exact Nat.le_trans hpq hqr
  have total : ∀ p q : Nat × String, decide (p.1 ≤ q.1) || decide (q.1 ≤ p.1) := by
    intro p q
    simpa using Nat.le_total p.1 q.1
  exact (List.pairwise_mergeSort trans total _).imp of_decide_eq_true

namespace Represents

theorem perm_pairs (h : Represents b m) :
    ((pairs b).map fun p => (p.1.index, p.2)).Perm m.entries := by
  have hinj : Function.Injective fun p : Variable × String => (p.1.index, p.2) := by
    intro p q hpq
    obtain ⟨hindex, hname⟩ := Prod.mk.inj hpq
    exact Prod.ext (Variable.ext_index hindex) hname
  rw [List.perm_ext_iff_of_nodup ((LawfulPairStore.nodup_pairs b).map hinj) m.nodup_entries]
  intro ⟨index, name⟩
  rw [VariableMap.mem_entries_iff, List.mem_map]
  constructor
  · rintro ⟨⟨v, other⟩, hp, heq⟩
    obtain ⟨rfl, rfl⟩ := Prod.mk.inj heq
    refine ⟨v, rfl, ?_⟩
    rw [← VariableMap.index?_eq_some_iff, ← h.index?_eq]
    exact (LawfulPairStore.mem_pairs_iff b v other).1 hp
  · rintro ⟨v, rfl, hv⟩
    refine ⟨(v, name), (LawfulPairStore.mem_pairs_iff b v name).2 ?_, rfl⟩
    rw [h.index?_eq, VariableMap.index?_eq_some_iff]
    exact hv

theorem perm_names (h : Represents b m) : ((pairs b).map Prod.snd).Perm m.names := by
  have hperm := h.perm_pairs.map Prod.snd
  rw [List.map_map, VariableMap.map_snd_entries] at hperm
  exact hperm

/-- Sorted by index, the pairs are the entries of the map. -/
theorem entries_eq (h : Represents b m) : PairStore.entries b = m.entries := by
  have hperm : (PairStore.entries b).Perm m.entries :=
    (List.mergeSort_perm _ _).trans h.perm_pairs
  apply hperm.eq_of_pairwise _ (pairwise_entries b) (m.pairwise_entries.imp Nat.le_of_lt)
  -- Entries with one index have one name.
  intro ⟨i, name⟩ ⟨j, other⟩ hp hq hle hge
  obtain rfl : i = j := Nat.le_antisymm hle hge
  obtain ⟨v, rfl, hv⟩ := VariableMap.mem_entries_iff.1 (hperm.mem_iff.1 hp)
  obtain ⟨w, hwv, hw⟩ := VariableMap.mem_entries_iff.1 hq
  rw [Variable.ext_index hwv, hv] at hw
  rw [Option.some.inj hw]

/-- The sorted store represents the sorted map. -/
theorem exists_sorted (h : Represents b m) :
    ∃ b', PairStore.sorted b = .ok b' ∧ Represents b' m.sorted := by
  have hnames : ((pairs b).map Prod.snd).mergeSort = m.sorted.names :=
    mergeSort_eq_of_perm h.perm_names
  rw [PairStore.sorted, hnames]
  exact exists_ofNames_names β m.sorted

end Represents

/-! ## Numberings -/

/-- The store is a bijection between the names of a list and the indices up to their number, where
each name has the index of its place. -/
structure Numbers (b : β) (names : List String) : Prop where
  size_eq : size b = names.length
  index?_eq_some_iff : ∀ name v, index? b name = some v ↔ name? b v = some name
  index?_isSome_iff : ∀ name, (index? b name).isSome ↔ name ∈ names
  name?_isSome_iff : ∀ v, (name? b v).isSome ↔ v.index ≤ names.length
  entries_eq : entries b = names.mapIdx fun i name => (i + 1, name)

theorem Represents.numbers (h : Represents b m) : Numbers b m.names where
  size_eq := h.size_eq
  index?_eq_some_iff name v := by
    rw [h.index?_eq, h.name?_eq, VariableMap.index?_eq_some_iff]
  index?_isSome_iff name := by
    rw [h.index?_eq, VariableMap.index?_isSome_iff]
  name?_isSome_iff v := by
    rw [h.name?_eq, VariableMap.name?_isSome_iff]
    rfl
  entries_eq := h.entries_eq

/-- A new name gets the next index and stands behind the others. -/
theorem Represents.exists_add_numbers (h : Represents b m) (hnew : name ∉ m.names)
    (hroom : size b < Variable.maxIndex) :
    ∃ v b', add b name = .ok (v, b') ∧ v.index = size b + 1 ∧ Numbers b' (m.names ++ [name]) := by
  rw [h.size_eq] at hroom ⊢
  obtain ⟨v, b', hadd, hv, hb'⟩ := h.add_new hnew hroom
  have hnumbers := hb'.numbers
  rw [VariableMap.names_insert hnew hroom] at hnumbers
  exact ⟨v, b', hadd, hv, hnumbers⟩

/-- Later additions stand behind the others and keep every pair. -/
theorem Represents.exists_addAll_numbers (h : Represents b m) {later : List String}
    (hroom : (m.names ++ later).eraseDups.length ≤ Variable.maxIndex) :
    ∃ b', addAll b later = .ok b' ∧ Numbers b' (m.names ++ later).eraseDups ∧
      ∀ name v, index? b name = some v → index? b' name = some v ∧ name? b' v = some name := by
  obtain ⟨b', hadd, hb'⟩ := h.exists_addAll hroom
  have hnumbers := hb'.numbers
  rw [VariableMap.names_foldl_insert hroom] at hnumbers
  refine ⟨b', hadd, hnumbers, ?_⟩
  intro name v hv
  have hkept : index? b' name = some v := by
    rw [hb'.index?_eq]
    exact VariableMap.index?_foldl_insert ((h.index?_eq name).symm.trans hv) later
  exact ⟨hkept, (hnumbers.index?_eq_some_iff name v).1 hkept⟩

/-- Names that are added one by one are numbered in the order of their first occurrence. -/
theorem ofNames_numbers (β : Type) [PairStore β] [LawfulPairStore β] {names : List String}
    (hroom : names.eraseDups.length ≤ Variable.maxIndex) :
    (VariableMap.ofNames names).names = names.eraseDups ∧
    ∃ b, ofNames β names = .ok b ∧ Represents b (VariableMap.ofNames names) ∧
      Numbers b names.eraseDups ∧
      (∀ name ∈ names, ∃ v, index? b name = some v ∧ add b name = .ok (v, b)) ∧
      (∀ name ∉ names, size b < Variable.maxIndex → ∃ v b', add b name = .ok (v, b') ∧
        v.index = size b + 1 ∧ Numbers b' (names.eraseDups ++ [name])) ∧
      (∀ later : List String, (names ++ later).eraseDups.length ≤ Variable.maxIndex →
        ∃ b', addAll b later = .ok b' ∧ Numbers b' (names ++ later).eraseDups ∧
          ∀ name v, index? b name = some v → index? b' name = some v ∧ name? b' v = some name) ∧
      (∃ b', ofNames β ((entries b).map Prod.snd) = .ok b' ∧
        Represents b' (VariableMap.ofNames names)) ∧
      ∃ b', sorted b = .ok b' ∧ Represents b' (VariableMap.ofNames names).sorted ∧
        Numbers b' names.eraseDups.mergeSort := by
  have hnames := VariableMap.names_ofNames hroom
  obtain ⟨b, hb, h⟩ := exists_ofNames β hroom
  have hmem : ∀ name, name ∈ (VariableMap.ofNames names).names ↔ name ∈ names := by
    intro name
    rw [hnames, List.mem_eraseDups]
  refine ⟨hnames, b, hb, h, hnames ▸ h.numbers, ?_, ?_, ?_, ?_, ?_⟩
  · intro name hname
    exact h.add_known ((hmem name).2 hname)
  · intro name hname hlt
    rw [← hnames]
    exact h.exists_add_numbers (mt (hmem name).1 hname) hlt
  · intro later hlater
    rw [← eraseDups_eraseDups_append, ← hnames] at hlater ⊢
    exact h.exists_addAll_numbers hlater
  · rw [h.entries_eq, VariableMap.map_snd_entries]
    exact exists_ofNames_names β _
  · obtain ⟨b', hsorted, hb'⟩ := h.exists_sorted
    have hnumbers : Numbers b' (VariableMap.ofNames names).names.mergeSort := hb'.numbers
    rw [hnames] at hnumbers
    exact ⟨b', hsorted, hb', hnumbers⟩

/-- A name that is added twice, a new one, both behind the others, and the names out of order. -/
theorem ofNames_numbers_repeated :
    ∃ b : PairList, ofNames PairList ["b", "a", "b"] = .ok b ∧ entries b = [(1, "b"), (2, "a")] ∧
      (∃ v, index? b "a" = some v ∧ add b "a" = .ok (v, b)) ∧
      (∃ v b', add b "c" = .ok (v, b') ∧ v.index = 3 ∧
        entries b' = [(1, "b"), (2, "a"), (3, "c")]) ∧
      (∃ b', addAll b ["a", "c"] = .ok b' ∧ entries b' = [(1, "b"), (2, "a"), (3, "c")]) ∧
      ∃ b', sorted b = .ok b' ∧ entries b' = [(1, "a"), (2, "b")] := by
  have hnames : ["b", "a", "b"].eraseDups = ["b", "a"] := by decide
  have hlater : (["b", "a", "b"] ++ ["a", "c"]).eraseDups = ["b", "a", "c"] := by decide
  have hperm : ["b", "a"].Perm ["a", "b"] := by decide
  have hascending : ["a", "b"].mergeSort = ["a", "b"] := List.mergeSort_of_pairwise (by decide)
  have hroom : ["b", "a", "b"].eraseDups.length ≤ Variable.maxIndex := by decide
  obtain ⟨-, b, hb, -, hnumbers, hknown, hnew, hadd, -, hsorted⟩ :=
    ofNames_numbers PairList hroom
  obtain ⟨v, b₁, hc, hv, hb₁⟩ := hnew "c" (by decide) (by rw [hnumbers.size_eq]; decide)
  obtain ⟨b₂, hb₂add, hb₂, -⟩ := hadd ["a", "c"] (by decide)
  obtain ⟨b₃, hb₃sorted, -, hb₃⟩ := hsorted
  rw [hnames] at hnumbers hb₁ hb₃
  rw [hlater] at hb₂
  rw [mergeSort_eq_of_perm hperm, hascending] at hb₃
  rw [hnumbers.size_eq] at hv
  exact ⟨b, hb, hnumbers.entries_eq, hknown "a" (by decide), ⟨v, b₁, hc, hv, hb₁.entries_eq⟩,
    ⟨b₂, hb₂add, hb₂.entries_eq⟩, b₃, hb₃sorted, hb₃.entries_eq⟩

end Clausal.PairStore
