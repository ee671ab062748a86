/-
  Clausal.VariableMap

  A numbering of distinct names from 1 without gaps: the index of a name is its place in the list of
  names. `index?` and `name?` are inverse to each other (`index?_eq_some_iff`), and inserting a name
  never changes the index of another (`index?_insert`). Everything that crosses between indices and
  names goes through two steps, `named` and `literal`, which fail with the problem of the literal or
  name at hand; lists cross member by member, and the first failure wins.
-/
import Clausal.Assignment.Lookup
import Clausal.Distinct
import Clausal.Problem
import Clausal.ValueAssignment

namespace Clausal

/-- Distinct names, no more than there are variables; the first has index 1. -/
structure VariableMap where
  /-- The names in the order of their indices. -/
  names : List String
  nodup : names.Nodup
  length_le : names.length ≤ Variable.maxIndex
deriving DecidableEq

namespace VariableMap

theorem ext_names {m n : VariableMap} (h : m.names = n.names) : m = n := by
  cases m; cases n; cases h; rfl

/-! ## Building -/

/-- The map without names. -/
def empty : VariableMap := ⟨[], by simp, by simp⟩

/-- Give a name the next index, unless it has one or there is none left. -/
def insert (m : VariableMap) (name : String) : VariableMap :=
  if h : name ∉ m.names ∧ m.names.length < Variable.maxIndex then
    { names := m.names ++ [name]
      nodup := by
        refine List.nodup_append.2 ⟨m.nodup, by simp, fun a ha b hb heq => h.1 ?_⟩
        rw [← List.mem_singleton.1 hb, ← heq]
        exact ha
      length_le := by
        rw [List.length_append, List.length_singleton]
        exact h.2 }
  else m

/-- The map that names inserted from left to right build. -/
def ofNames (names : List String) : VariableMap :=
  names.foldl insert empty

/-- The map that numbers names by their places, if they are distinct and no more than there are
variables. -/
def ofDistinct? (names : List String) : Option VariableMap :=
  if h : allDistinct names = true ∧ names.length ≤ Variable.maxIndex then
    some ⟨names, allDistinct_iff.1 h.1, h.2⟩
  else none

/-- The same names, numbered in ascending order of their code points. -/
def sorted (m : VariableMap) : VariableMap where
  names := m.names.mergeSort
  nodup := (List.mergeSort_perm ..).nodup_iff.2 m.nodup
  length_le := by
    rw [List.length_mergeSort]
    exact m.length_le

/-! ## Reading -/

/-- The number of names, which is the highest index. -/
def size (m : VariableMap) : Nat :=
  m.names.length

/-- Whether there is no name. -/
def isEmpty (m : VariableMap) : Bool :=
  m.names.isEmpty

/-- Whether a name has an index. -/
def contains (m : VariableMap) (name : String) : Bool :=
  name ∈ m.names

/-- The variable of a name. -/
def index? (m : VariableMap) (name : String) : Option Variable :=
  (m.names.idxOf? name).bind fun i => Variable.ofIndex? (i + 1)

/-- The name of a variable. -/
def name? (m : VariableMap) (v : Variable) : Option String :=
  m.names[v.index - 1]?

/-- The indices with their names, in ascending order. -/
def entries (m : VariableMap) : List (Nat × String) :=
  m.names.mapIdx fun i name => (i + 1, name)

theorem ofDistinct?_eq_some_iff {names : List String} {m : VariableMap} :
    ofDistinct? names = some m ↔ m.names = names := by
  constructor
  · unfold ofDistinct?
    split
    · rintro ⟨rfl⟩; rfl
    · nofun
  · rintro rfl
    simp [ofDistinct?, allDistinct_iff.2 m.nodup, m.length_le]

theorem index?_eq_some_iff {m : VariableMap} {name : String} {v : Variable} :
    m.index? name = some v ↔ m.name? v = some name := by
  have hpos := v.index_pos
  simp only [index?, name?, Option.bind_eq_some_iff, List.idxOf?_eq_some_iff,
    Variable.ofIndex?_eq_some_iff]
  constructor
  · rintro ⟨i, ⟨hi, hname, -⟩, hv⟩
    have : v.index - 1 = i := by omega
    rw [this, List.getElem?_eq_getElem hi, hname]
  · intro h
    obtain ⟨hlt, hname⟩ := List.getElem?_eq_some_iff.1 h
    refine ⟨v.index - 1, ⟨hlt, hname, fun j hj heq => ?_⟩, by omega⟩
    have := (List.getElem?_inj (j := v.index - 1) (Nat.lt_trans hj hlt) m.nodup).1
      (by rw [h, List.getElem?_eq_getElem (Nat.lt_trans hj hlt), heq])
    omega

/-- The variables with a name are those up to the size of the map. -/
theorem name?_isSome_iff {m : VariableMap} {v : Variable} :
    (m.name? v).isSome ↔ v.index ≤ m.size := by
  have hpos := v.index_pos
  simp [name?, size]
  omega

theorem mem_names_iff {m : VariableMap} {name : String} :
    name ∈ m.names ↔ ∃ v, m.name? v = some name := by
  constructor
  · intro h
    obtain ⟨i, hi, hname⟩ := List.getElem_of_mem h
    have hle := m.length_le
    refine ⟨⟨i + 1, by omega, by omega⟩, ?_⟩
    simp [name?, hi, hname]
  · rintro ⟨v, h⟩
    exact List.mem_of_getElem? h

/-- The names with an index are those in the map. -/
theorem index?_isSome_iff {m : VariableMap} {name : String} :
    (m.index? name).isSome ↔ name ∈ m.names := by
  rw [mem_names_iff, Option.isSome_iff_exists]
  simp only [index?_eq_some_iff]

/-- Inserting keeps every index that is already taken. -/
theorem index?_insert {m : VariableMap} {name other : String} {v : Variable}
    (h : m.index? name = some v) : (m.insert other).index? name = some v := by
  rw [index?_eq_some_iff] at h ⊢
  unfold insert
  split
  · simp only [name?] at h ⊢
    rw [List.getElem?_append_left (List.getElem?_eq_some_iff.1 h).1, h]
  · exact h

@[simp] theorem mem_sorted {m : VariableMap} {name : String} :
    name ∈ m.sorted.names ↔ name ∈ m.names := by
  simp [sorted]

/-! ## Between indices and names -/

/-- A literal with the name of its variable. -/
def named (m : VariableMap) (l : Literal) : Except Problem NamedLiteral :=
  match m.name? l.var with
  | some name => .ok ⟨name, l.isPositive⟩
  | none => .error (.unknownIndex l)

/-- A literal with the variable of its name. -/
def literal (m : VariableMap) (l : NamedLiteral) : Except Problem Literal :=
  match m.index? l.name with
  | some v => .ok (.ofVar v l.positive)
  | none => .error (.unknownName l.name)

theorem named_eq_ok_iff {m : VariableMap} {l : Literal} {n : NamedLiteral} :
    m.named l = .ok n ↔ m.name? l.var = some n.name ∧ n.positive = l.isPositive := by
  obtain ⟨name, positive⟩ := n
  unfold named
  split
  · next other h => simp [h, eq_comm]
  · next h => simp [h]

theorem literal_eq_ok_iff {m : VariableMap} {n : NamedLiteral} {l : Literal} :
    m.literal n = .ok l ↔ m.index? n.name = some l.var ∧ n.positive = l.isPositive := by
  unfold literal
  split
  · next v hv =>
    simp only [hv, Except.ok.injEq, Option.some.injEq]
    constructor
    · rintro rfl; simp
    · rintro ⟨rfl, hsign⟩; rw [hsign, Literal.ofVar_var]
  · next hv => simp [hv]

/-- The two steps are inverse to each other. -/
theorem literal_eq_ok_iff_named {m : VariableMap} {n : NamedLiteral} {l : Literal} :
    m.literal n = .ok l ↔ m.named l = .ok n := by
  rw [literal_eq_ok_iff, named_eq_ok_iff, index?_eq_some_iff]

variable {k : Kind}

/-- A list of literals with names in place of indices. A variable that occurs twice is written at
its first place with its last sign. -/
def toValue (m : VariableMap) (a : Assignment k) : Except Problem (ValueAssignment k) :=
  ValueAssignment.ofList <$> a.literals.mapM m.named

/-- A list of named literals with indices in place of names. -/
def toBoolean (m : VariableMap) (v : ValueAssignment k) : Except Problem (Assignment k) :=
  Assignment.mk <$> v.entries.mapM m.literal

end VariableMap

/-- A list of literals renumbered from one map to another through the names. -/
def Assignment.reindex {k : Kind} (a : Assignment k) (old new : VariableMap) :
    Except Problem (Assignment k) :=
  Assignment.mk <$> a.literals.mapM fun l => old.named l >>= new.literal

end Clausal
