/-
  Clausal.Proofs.VariableMap.Sorting

  Sorting as a normal form of numberings. Distinct names can be put in ascending order in one way
  (`VariableMap.eq_sorted_iff`), so the sorted map shows which names a map has and nothing of the
  order in which they were added.

  A store lists its pairs in any order. As each name is in one pair, the sorted names are those of
  the map that it represents, whatever that order is.

  No name gets lost, so a clause list that its map covers can be renumbered to the sorted map. It
  reads there as before, and renumbering is undone by renumbering back.
-/
import Clausal.Proofs.ClauseList.Coverage
import Clausal.Proofs.VariableMap.Numbering

namespace Clausal

namespace VariableMap

variable {m n : VariableMap} {v w : Variable} {x y : String}

/-! ## The sorted map -/

theorem size_sorted (m : VariableMap) : m.sorted.size = m.size :=
  List.length_mergeSort ..

theorem name_lt_of_index_lt (hv : m.sorted.name? v = some x) (hw : m.sorted.name? w = some y)
    (hlt : v.index < w.index) : x < y := by
  have hpos := v.index_pos
  obtain ⟨hi, rfl⟩ := List.getElem?_eq_some_iff.1 hv
  obtain ⟨hj, rfl⟩ := List.getElem?_eq_some_iff.1 hw
  -- Places are counted from 0 and indices from 1.
  exact List.pairwise_iff_getElem.1 m.pairwise_lt_names_sorted _ _ hi hj (by omega)

/-- In the sorted map variables are in the order of their names. -/
theorem index_lt_iff_name_lt (hv : m.sorted.name? v = some x) (hw : m.sorted.name? w = some y) :
    v.index < w.index ↔ x < y := by
  constructor
  · exact name_lt_of_index_lt hv hw
  · intro hlt
    rcases Nat.lt_trichotomy v.index w.index with h | h | h
    · exact h
    · rw [Variable.ext_index h, hw] at hv
      obtain rfl := Option.some.inj hv
      exact absurd hlt (String.lt_irrefl _)
    · exact absurd (name_lt_of_index_lt hw hv h) (String.lt_asymm hlt)

/-- The sorted map is the only one that has the names in ascending order. -/
theorem eq_sorted_iff :
    n = m.sorted ↔ (∀ name, name ∈ n.names ↔ name ∈ m.names) ∧ n.names.Pairwise (· < ·) := by
  constructor
  · rintro rfl
    exact ⟨fun name => mem_sorted, m.pairwise_lt_names_sorted⟩
  · rintro ⟨hnames, hascending⟩
    -- Each name is in both lists once, and there is one ascending order of them.
    have hperm : n.names.Perm m.sorted.names := by
      rw [List.perm_ext_iff_of_nodup n.nodup m.sorted.nodup]
      intro name
      rw [hnames, mem_sorted]
    apply ext_names
    apply hperm.eq_of_pairwise _ hascending m.pairwise_lt_names_sorted
    intro x y _ _ hxy hyx
    exact absurd hyx (String.lt_asymm hxy)

/-- Maps are sorted alike exactly if they have the same names. -/
theorem sorted_eq_sorted_iff :
    m.sorted = n.sorted ↔ ∀ name, name ∈ m.names ↔ name ∈ n.names := by
  rw [eq_sorted_iff, and_iff_left m.pairwise_lt_names_sorted]
  simp only [mem_sorted]

end VariableMap

/-! ## Stores -/

/-- A store of names that were added in any order is sorted to one that represents the sorted map of
these names. -/
theorem PairStore.exists_sorted_of_ofNames {β : Type} [PairStore β] [LawfulPairStore β]
    {names : List String} {b : β} (h : ofNames β names = .ok b) :
    ∃ (m : VariableMap) (s : β), (∀ name, name ∈ m.names ↔ name ∈ names) ∧ Represents b m ∧
      sorted b = .ok s ∧ Represents s m.sorted := by
  obtain ⟨m, hm, hnames⟩ := exists_of_ofNames h
  obtain ⟨s, hs, hsorted⟩ := hm.exists_sorted
  refine ⟨m, s, ?_, hm, hs, hsorted⟩
  intro name
  rw [hnames, List.mem_eraseDups]

/-! ## Clause lists -/

/-- A list that its map covers can be renumbered to every map with the names of its own. It reads
there as before, and it comes back. -/
theorem ClauseList.exists_reindex_of_covered {l : ClauseList} {m n : VariableMap}
    (h : l.variableMap = some m) (hnames : ∀ name ∈ m.names, name ∈ n.names)
    (hcovered : ∀ c ∈ l.clauses, ∀ x ∈ c, x.var.index ≤ m.size) :
    ∃ k rows, l.reindex n = .ok k ∧ k.variableMap = some n ∧ l.named = .ok rows ∧
      k.named = .ok rows ∧ k.reindex m = .ok l := by
  obtain ⟨f, -, k, hf, -, hk⟩ := (exists_ok_iff_covered h hnames).2 hcovered
  obtain ⟨rows, hrows, -⟩ := toFormula_eq_ok_iff.1 hf
  obtain ⟨hn, -⟩ := (reindex_eq_ok_iff h).1 hk
  exact ⟨k, rows, hk, hn, hrows, (named_of_reindex h hk).trans hrows, reindex_symm h hk⟩

namespace VariableMap

/-! ## Sorting -/

/-- The sorted map has the names of a map, under the indices up to their number, in ascending order;
it is its own sorted map. Two maps are sorted alike exactly if they have the same names. A store is
sorted to one that represents the sorted map of its names, in whatever order they were added. A
clause list without an index above the number of names can be renumbered to the sorted map of its
own, where each clause reads as before, literal by literal, and from there back to itself. -/
theorem sorted_canonical :
    (∀ m : VariableMap, (∀ name, name ∈ m.sorted.names ↔ name ∈ m.names) ∧
      m.sorted.size = m.size ∧ (∀ v, (m.sorted.name? v).isSome ↔ v.index ≤ m.size) ∧
      (∀ v w x y, m.sorted.name? v = some x → m.sorted.name? w = some y →
        (v.index < w.index ↔ x < y)) ∧
      m.sorted.sorted = m.sorted) ∧
    (∀ m n : VariableMap, m.sorted = n.sorted ↔ ∀ name, name ∈ m.names ↔ name ∈ n.names) ∧
    (∀ (β : Type) [PairStore β] [LawfulPairStore β] (names : List String) (b : β),
      PairStore.ofNames β names = .ok b → ∃ (m : VariableMap) (s : β),
        (∀ name, name ∈ m.names ↔ name ∈ names) ∧ PairStore.Represents b m ∧
        PairStore.sorted b = .ok s ∧ PairStore.Represents s m.sorted) ∧
    ∀ (l : ClauseList) (m : VariableMap), l.variableMap = some m →
      (∀ c ∈ l.clauses, ∀ x ∈ c, x.var.index ≤ m.size) →
      ∃ k rows, l.reindex m.sorted = .ok k ∧ k.variableMap = some m.sorted ∧ l.named = .ok rows ∧
        k.named = .ok rows ∧ k.reindex m = .ok l := by
  refine ⟨?_, ?_, ?_, ?_⟩
  · intro m
    refine ⟨fun name => mem_sorted, m.size_sorted, ?_, ?_, m.sorted_sorted⟩
    · intro v
      rw [name?_isSome_iff, size_sorted]
    · intro v w x y hv hw
      exact index_lt_iff_name_lt hv hw
  · intro m n
    exact sorted_eq_sorted_iff
  · intro β _ _ names b h
    exact PairStore.exists_sorted_of_ofNames h
  · intro l m h hcovered
    exact ClauseList.exists_reindex_of_covered h (fun name => mem_sorted.2) hcovered

/-- Names with numerals among them, which stand in the order of their characters and not of their
numbers: a map and one with the same names in another order, a store to which a name was added
twice, and a clause list with an empty clause and a repeated literal. -/
theorem sorted_canonical_numerals :
    ∃ (m n : VariableMap) (b s : PairList) (l k : ClauseList),
      m.names = ["9", "b", "10"] ∧ n.names = ["b", "10", "9"] ∧
      m.sorted.names = ["10", "9", "b"] ∧ m.sorted.sorted = m.sorted ∧ m.sorted = n.sorted ∧
      PairStore.ofNames PairList ["b", "9", "b", "10"] = .ok b ∧ PairStore.sorted b = .ok s ∧
      PairStore.entries s = [(1, "10"), (2, "9"), (3, "b")] ∧
      l.variableMap = some m ∧
      l.clauses.map (·.literals.map Literal.toInt) = [[1, -3], [], [2, 2]] ∧
      l.reindex m.sorted = .ok k ∧
      k.clauses.map (·.literals.map Literal.toInt) = [[2, -1], [], [3, 3]] ∧
      k.reindex m = .ok l := by
  let x : Variable := ⟨1, by decide, by decide⟩
  let y : Variable := ⟨2, by decide, by decide⟩
  let z : Variable := ⟨3, by decide, by decide⟩
  let m : VariableMap := ⟨["9", "b", "10"], by decide, by decide⟩
  let n : VariableMap := ⟨["b", "10", "9"], by decide, by decide⟩
  let ascending : VariableMap := ⟨["10", "9", "b"], by decide, by decide⟩
  let l : ClauseList :=
    { clauses := [⟨[.ofVar x true, .ofVar z false]⟩, ⟨[]⟩, ⟨[.ofVar y true, .ofVar y true]⟩]
      variableMap := some m }
  let k : ClauseList :=
    { clauses := [⟨[.ofVar y true, .ofVar x false]⟩, ⟨[]⟩, ⟨[.ofVar z true, .ofVar z true]⟩]
      variableMap := some ascending }
  have hmem : ∀ name, name ∈ m.names ↔ name ∈ n.names :=
    fun name => List.Perm.mem_iff (by decide)
  have hascending : ascending = m.sorted :=
    eq_sorted_iff.2 ⟨fun name => List.Perm.mem_iff (by decide), by decide⟩
  have hk : l.reindex m.sorted = .ok k := by
    rw [← hascending]
    rfl
  have hroom : ["b", "9", "b", "10"].eraseDups.length ≤ Variable.maxIndex := by decide
  obtain ⟨b, hb, -⟩ := PairStore.exists_ofNames PairList hroom
  obtain ⟨hmaps, halike, hstores, hlists⟩ := sorted_canonical
  obtain ⟨-, -, -, -, htwice⟩ := hmaps m
  obtain ⟨m', s, hnames, -, hs, hrepresents⟩ := hstores PairList _ b hb
  obtain ⟨k', -, hk', -, -, -, hback⟩ := hlists l m rfl (by decide)
  obtain rfl : k' = k := Except.ok.inj (hk'.symm.trans hk)
  have hsame : m'.sorted = ascending := by
    rw [hascending, halike]
    intro name
    rw [hnames, ← List.mem_eraseDups]
    exact List.Perm.mem_iff (by decide)
  have hentries : PairStore.entries s = [(1, "10"), (2, "9"), (3, "b")] := by
    rw [hrepresents.entries_eq, hsame]
    rfl
  exact ⟨m, n, b, s, l, k, rfl, rfl, hascending ▸ rfl, htwice, (halike m n).2 hmem, hb, hs,
    hentries, rfl, by decide, hk, by decide, hback⟩

end VariableMap

end Clausal
