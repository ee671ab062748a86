/-
  Clausal.Proofs.VariableMap

  A numbering seen as the relation between its variables and their names. The relation determines
  the numbering (`ext_name?`), it is one to one (`biUnique_name?`), and it covers exactly the
  variables up to the size.
-/
import Clausal.VariableMap
import Clausal.Proofs.Collect

namespace Clausal

/-- A list whose literals are found one by one is there when all of them are. -/
theorem Assignment.map_mk_eq_ok_iff {α ε : Type} {k : Kind} {f : α → Except ε Literal}
    {xs : List α} {a : Assignment k} :
    Assignment.mk <$> xs.mapM f = .ok a ↔
      List.Forall₂ (fun x l => f x = .ok l) xs a.literals := by
  rw [map_eq_ok_iff]
  simp only [mapM_eq_ok_iff]
  constructor
  · rintro ⟨literals, hliterals, rfl⟩
    exact hliterals
  · intro h
    exact ⟨a.literals, h, rfl⟩

namespace VariableMap

/-- Two maps that give every variable the same name are the same map. -/
theorem ext_name? {m n : VariableMap} (h : ∀ v, m.name? v = n.name? v) : m = n := by
  apply ext_names
  apply List.ext_getElem?
  intro i
  by_cases hi : i + 1 ≤ Variable.maxIndex
  · have hv := h ⟨i + 1, by omega, hi⟩
    simpa [name?] using hv
  · -- Both lists end before a place that is no index.
    have hm := m.length_le
    have hn := n.length_le
    rw [List.getElem?_eq_none (by omega), List.getElem?_eq_none (by omega)]

/-- No two variables share a name. -/
theorem name?_inj {m : VariableMap} {v w : Variable} {name : String} (hv : m.name? v = some name)
    (hw : m.name? w = some name) : v = w := by
  rw [← index?_eq_some_iff] at hv hw
  rw [hv] at hw
  exact Option.some.inj hw

/-- A variable has one name, and a name has one variable. -/
theorem biUnique_name? (m : VariableMap) :
    Relator.BiUnique fun v name => m.name? v = some name := by
  constructor
  · intro v name w hv hw
    exact name?_inj hv hw
  · intro v name name' hname hname'
    exact Option.some.inj (hname.symm.trans hname')

theorem name?_eq_none_iff {m : VariableMap} {v : Variable} :
    m.name? v = none ↔ m.size < v.index := by
  rw [← Option.not_isSome_iff_eq_none, name?_isSome_iff]
  omega

/-- The entries are the variables with a name, as indices. -/
theorem mem_entries_iff {m : VariableMap} {index : Nat} {name : String} :
    (index, name) ∈ m.entries ↔ ∃ v : Variable, v.index = index ∧ m.name? v = some name := by
  have hle := m.length_le
  simp only [entries, List.mem_mapIdx, Prod.mk.injEq, name?, List.getElem?_eq_some_iff]
  refine ⟨?_, ?_⟩
  · intro h
    obtain ⟨i, hi, rfl, rfl⟩ := h
    -- Places are counted from 0 and indices from 1.
    exact ⟨⟨i + 1, by omega, by omega⟩, rfl, hi, rfl⟩
  · intro h
    obtain ⟨v, rfl, hv, rfl⟩ := h
    have hpos := v.index_pos
    exact ⟨v.index - 1, hv, by omega, rfl⟩

theorem map_snd_entries (m : VariableMap) : m.entries.map Prod.snd = m.names := by
  apply List.ext_getElem?
  intro i
  simp [entries, Function.comp_def]

/-- The entries are in the order of their indices. -/
theorem pairwise_entries (m : VariableMap) : m.entries.Pairwise fun p q => p.1 < q.1 := by
  rw [List.pairwise_iff_getElem]
  intro i j hi hj hlt
  simpa [entries] using hlt

theorem nodup_entries (m : VariableMap) : m.entries.Nodup := by
  show m.entries.Pairwise (· ≠ ·)
  apply m.pairwise_entries.imp
  rintro p _ hlt rfl
  exact Nat.lt_irrefl p.1 hlt

theorem perm_names_sorted (m : VariableMap) : m.sorted.names.Perm m.names :=
  List.mergeSort_perm ..

theorem sorted_sorted (m : VariableMap) : m.sorted.sorted = m.sorted :=
  ext_names (mergeSort_eq_of_perm m.perm_names_sorted)

/-- Sorted names are in strictly ascending order, since none occurs twice. -/
theorem pairwise_lt_names_sorted (m : VariableMap) : m.sorted.names.Pairwise (· < ·) :=
  strictlyAscending_iff.1 (allDistinct_iff.2 m.nodup)

/-- Distinct names that are not too many make up a map. -/
theorem exists_names_eq {names : List String} (hnodup : names.Nodup)
    (hle : names.length ≤ Variable.maxIndex) : ∃ m : VariableMap, m.names = names :=
  ⟨⟨names, hnodup, hle⟩, rfl⟩

theorem ofDistinct?_eq_none_iff {names : List String} (hle : names.length ≤ Variable.maxIndex) :
    ofDistinct? names = none ↔ ¬names.Nodup := by
  rw [ofDistinct?, dite_eq_right_iff]
  simp [allDistinct_iff, hle]

/-! ## Literals and their names -/

theorem exists_named {m : VariableMap} {n : NamedLiteral} (h : n.name ∈ m.names) :
    ∃ l, m.named l = .ok n := by
  obtain ⟨v, hv⟩ := mem_names_iff.1 h
  refine ⟨.ofVar v n.positive, named_eq_ok_iff.2 ⟨?_, ?_⟩⟩
  · rw [Literal.var_ofVar, hv]
  · rw [Literal.isPositive_ofVar]

/-- The variables of a list have the names of the literals that it reads as. -/
theorem forall₂_vars_of_named {m : VariableMap} {k : Kind} {a : Assignment k}
    {ns : List NamedLiteral} (h : List.Forall₂ (fun l n => m.named l = .ok n) a.literals ns) :
    List.Forall₂ (fun v name => m.name? v = some name) a.vars (ns.map NamedLiteral.name) := by
  rw [Assignment.vars, List.forall₂_map_left_iff, List.forall₂_map_right_iff]
  exact h.imp fun _ _ hn => (named_eq_ok_iff.1 hn).1

/-! ## Inserting names -/

variable {m : VariableMap} {name other : String}

/-- A name that is known or for which there is no room changes nothing. -/
theorem insert_eq_self (h : ¬(name ∉ m.names ∧ m.size < Variable.maxIndex)) : m.insert name = m :=
  dif_neg h

theorem insert_of_mem (h : name ∈ m.names) : m.insert name = m :=
  insert_eq_self fun hnew => hnew.1 h

/-- A new name goes behind the others. -/
theorem names_insert (hnew : name ∉ m.names) (hroom : m.size < Variable.maxIndex) :
    (m.insert name).names = m.names ++ [name] := by
  rw [insert, dif_pos ⟨hnew, hroom⟩]

theorem size_insert (hnew : name ∉ m.names) (hroom : m.size < Variable.maxIndex) :
    (m.insert name).size = m.size + 1 := by
  rw [size, names_insert hnew hroom, List.length_append, List.length_singleton, size]

theorem mem_names_insert (h : other ∈ (m.insert name).names) :
    other ∈ m.names ∨ other = name := by
  by_cases hnew : name ∉ m.names ∧ m.size < Variable.maxIndex
  · rw [names_insert hnew.1 hnew.2, List.mem_append, List.mem_singleton] at h
    exact h
  · rw [insert_eq_self hnew] at h
    exact .inl h

/-- The variable behind the last one gets the new name, and all others keep theirs. -/
theorem name?_insert (hnew : name ∉ m.names) (hroom : m.size < Variable.maxIndex) (v : Variable) :
    (m.insert name).name? v = if v.index = m.size + 1 then some name else m.name? v := by
  have hpos := v.index_pos
  rw [name?, names_insert hnew hroom]
  by_cases hv : v.index = m.size + 1
  · have hlast : v.index - 1 = m.names.length := by
      rw [hv]
      rfl
    rw [if_pos hv, hlast, List.getElem?_concat_length]
  · rw [if_neg hv]
    by_cases hlt : v.index - 1 < m.names.length
    · rw [List.getElem?_append_left hlt, name?]
    · have hbeyond : m.names.length + 1 ≤ v.index - 1 := by
        have : v.index ≠ m.names.length + 1 := hv
        omega
      rw [List.getElem?_eq_none (by simpa using hbeyond), name?,
        List.getElem?_eq_none (by omega)]

/-- Inserting a name does not touch the other names. -/
theorem index?_insert_of_ne (h : other ≠ name) : (m.insert name).index? other = m.index? other := by
  by_cases hinsert : name ∉ m.names ∧ m.size < Variable.maxIndex
  · apply Option.ext
    intro v
    rw [index?_eq_some_iff, index?_eq_some_iff, name?_insert hinsert.1 hinsert.2]
    split
    · next hv =>
      -- The variable of the new name had no name before.
      have hnone : m.name? v = none := name?_eq_none_iff.2 (by omega)
      rw [hnone]
      simpa using h.symm
    · rfl
  · rw [insert_eq_self hinsert]

/-- Inserting names keeps every index that is already taken. -/
theorem index?_foldl_insert {v : Variable} (h : m.index? name = some v) (later : List String) :
    (later.foldl insert m).index? name = some v := by
  induction later generalizing m with
  | nil => exact h
  | cons next rest ih => exact ih (index?_insert h)

/-- Inserting names adds no others. -/
theorem mem_names_foldl_insert {names : List String} (h : name ∈ (names.foldl insert m).names) :
    name ∈ m.names ∨ name ∈ names := by
  induction names generalizing m with
  | nil => exact .inl h
  | cons next rest ih =>
    rcases ih h with h | h
    · rcases mem_names_insert h with h | rfl
      · exact .inl h
      · exact .inr List.mem_cons_self
    · exact .inr (List.mem_cons_of_mem _ h)

/-- There is room for a new name if there is for all names together. -/
theorem size_lt_maxIndex {rest : List String} (hnew : name ∉ m.names)
    (h : (m.names ++ name :: rest).eraseDups.length ≤ Variable.maxIndex) :
    m.size < Variable.maxIndex := by
  have hnodup : (m.names ++ [name]).Nodup :=
    (List.perm_append_singleton name m.names).nodup_iff.2 (List.nodup_cons.2 ⟨hnew, m.nodup⟩)
  have hlength := length_le_length_eraseDups_append hnodup rest
  rw [← List.append_cons, List.length_append, List.length_singleton] at hlength
  exact Nat.lt_of_lt_of_le hlength h

/-- If there is room, it makes no difference whether a name is inserted or waits in front of the
others. -/
theorem eraseDups_names_insert_append_of_room (hroom : name ∉ m.names → m.size < Variable.maxIndex)
    (rest : List String) :
    ((m.insert name).names ++ rest).eraseDups = (m.names ++ name :: rest).eraseDups := by
  by_cases hknown : name ∈ m.names
  · rw [insert_of_mem hknown, eraseDups_append_cons_of_mem hknown]
  · rw [names_insert hknown (hroom hknown), ← List.append_cons]

/-- It makes no difference whether a name is inserted or waits in front of the others. -/
theorem eraseDups_names_insert_append {rest : List String}
    (h : (m.names ++ name :: rest).eraseDups.length ≤ Variable.maxIndex) :
    ((m.insert name).names ++ rest).eraseDups = (m.names ++ name :: rest).eraseDups :=
  eraseDups_names_insert_append_of_room (fun hnew => size_lt_maxIndex hnew h) rest

/-- The names inserted into a map stand behind its own, each at its first occurrence. -/
theorem names_foldl_insert {names : List String}
    (h : (m.names ++ names).eraseDups.length ≤ Variable.maxIndex) :
    (names.foldl insert m).names = (m.names ++ names).eraseDups := by
  induction names generalizing m with
  | nil => rw [List.foldl_nil, List.append_nil, eraseDups_eq_self m.nodup]
  | cons name rest ih =>
    have hsame := eraseDups_names_insert_append h
    rw [← hsame] at h ⊢
    exact ih h

/-- A map built from names holds them in the order of their first occurrence. -/
theorem names_ofNames {names : List String} (h : names.eraseDups.length ≤ Variable.maxIndex) :
    (ofNames names).names = names.eraseDups :=
  names_foldl_insert (m := empty) h

/-- The index of a name in a map built from names is one more than the number of different names
before its first occurrence. -/
theorem index?_ofNames_eq_some_iff {names : List String}
    (h : names.eraseDups.length ≤ Variable.maxIndex) {v : Variable} :
    (ofNames names).index? name = some v ↔
      ∃ before after, names = before ++ name :: after ∧ name ∉ before ∧
        v.index = before.eraseDups.length + 1 := by
  have hpos := v.index_pos
  rw [index?_eq_some_iff, name?, names_ofNames h, getElem?_eraseDups_eq_some_iff]
  constructor
  · rintro ⟨before, after, hnames, hname, hv⟩
    exact ⟨before, after, hnames, hname, by omega⟩
  · rintro ⟨before, after, hnames, hname, hv⟩
    exact ⟨before, after, hnames, hname, by omega⟩

/-- Repetitions make no difference to the map that names build. -/
theorem ofNames_eraseDups {names : List String} (h : names.eraseDups.length ≤ Variable.maxIndex) :
    ofNames names.eraseDups = ofNames names := by
  have hself := eraseDups_eq_self (nodup_eraseDups names)
  apply ext_names
  rw [names_ofNames h, names_ofNames (by rw [hself]; exact h), hself]

/-- The names of a map, inserted in the order of their indices, build the map again. -/
theorem ofNames_names (m : VariableMap) : ofNames m.names = m := by
  have hself := eraseDups_eq_self m.nodup
  apply ext_names
  rw [names_ofNames, hself]
  rw [hself]
  exact m.length_le

end VariableMap

end Clausal
