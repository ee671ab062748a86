/-
  Clausal.Proofs.ValueAssignment

  What a value assignment that is built from literals holds: the names in the order of their first
  literals (`names_ofList`), each with the sign of its last one (`get?_ofList`). A value assignment
  is determined by its names and their values, so one that is built from its own literals is itself
  (`ofList_entries`).
-/
import Clausal.Distinct
import Clausal.Proofs.Collect
import Clausal.Proofs.Lookup
import Clausal.ValueAssignment

namespace Clausal.ValueAssignment

variable {k : Kind} {v w : ValueAssignment k}

/-! ## Entries -/

theorem ext_entries (h : v.entries = w.entries) : v = w := by
  cases v; cases w; cases h; rfl

theorem get?_eq_some_iff {name : String} {positive : Bool} :
    v.get? name = some positive ↔ ⟨name, positive⟩ ∈ v.entries := by
  show lookup NamedLiteral.name NamedLiteral.positive v.entries name = some positive ↔ _
  rw [lookup_eq_some_iff v.nodup]
  constructor
  · rintro ⟨e, he, rfl, rfl⟩
    exact he
  · exact fun he => ⟨_, he, rfl, rfl⟩

/-- Value assignments with the same names in the same order and the same values are the same. -/
theorem ext_get? (hnames : v.entries.map NamedLiteral.name = w.entries.map NamedLiteral.name)
    (hvalues : ∀ name, v.get? name = w.get? name) : v = w := by
  apply ext_entries
  apply eq_of_map_eq hnames
  rintro ⟨name, positive⟩ he ⟨_, positive'⟩ he' rfl
  rw [← get?_eq_some_iff] at he he'
  rw [hvalues, he', Option.some_inj] at he
  rw [he]

/-! ## Building -/

theorem names_insert (v : ValueAssignment k) (e : NamedLiteral) :
    (v.insert e).entries.map NamedLiteral.name =
      (v.entries.map NamedLiteral.name ++ [e.name]).eraseDups := by
  rw [eraseDups_append_singleton, eraseDups_eq_self v.nodup]
  exact map_name_setEntry e v.entries

/-- The names of literals that are inserted stand behind the names that are there, each once. -/
theorem names_foldl_insert (v : ValueAssignment k) (es : List NamedLiteral) :
    (es.foldl insert v).entries.map NamedLiteral.name =
      (v.entries.map NamedLiteral.name ++ es.map NamedLiteral.name).eraseDups := by
  induction es generalizing v with
  | nil => rw [List.foldl_nil, List.map_nil, List.append_nil, eraseDups_eq_self v.nodup]
  | cons e es ih =>
    rw [List.foldl_cons, ih, names_insert, eraseDups_eraseDups_append, List.map_cons,
      ← List.append_cons]

/-- The names are in the order of their first literals. -/
theorem names_ofList (es : List NamedLiteral) :
    (ofList es : ValueAssignment k).entries.map NamedLiteral.name =
      (es.map NamedLiteral.name).eraseDups :=
  names_foldl_insert empty es

/-- A name has the sign of its last literal. -/
theorem get?_ofList (es : List NamedLiteral) (name : String) :
    (ofList es : ValueAssignment k).get? name =
      lookup NamedLiteral.name NamedLiteral.positive es.reverse name := by
  rw [ofList, lookup_foldl get? get?_insert]
  exact Option.or_none

/-- Literals over different names are kept as they are. -/
theorem entries_ofList {es : List NamedLiteral} (h : (es.map NamedLiteral.name).Nodup) :
    (ofList es : ValueAssignment k).entries = es := by
  have hself : (ofList es : ValueAssignment k) = ⟨es, h⟩ := by
    apply ext_get?
    · rw [names_ofList, eraseDups_eq_self h]
    · intro name
      rw [get?_ofList, lookup_reverse h]
      rfl
  rw [hself]

/-- A value assignment built from its own literals is itself. -/
theorem ofList_entries (v : ValueAssignment k) : ofList v.entries = v :=
  ext_entries (entries_ofList v.nodup)

end Clausal.ValueAssignment
