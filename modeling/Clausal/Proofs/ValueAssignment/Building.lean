/-
  Clausal.Proofs.ValueAssignment.Building

  Value assignments by the pass that builds them. The pass goes through a plain list of literals and
  sets the entry of each name, at its place if there is one and else behind the others (`setAll`).
  Nothing but the pass keeps the names apart.

  What it leaves is known from the literals alone: the names stand in the order of their first
  literals, and an entry is the last literal over its name (`firstOccurrences_names_setAll`,
  `mem_setAll_iff`). There is one value assignment of which this holds (`eq_ofList_iff`). Entries
  that are left are left again by a second pass, so a pass may also start behind any part of the
  literals with the entries of that part (`ofList_entries_append`).
-/
import Clausal.Proofs.FirstOccurrences
import Clausal.Proofs.ValueAssignment

namespace Clausal.ValueAssignment

variable {k : Kind} {v : ValueAssignment k} {es : List NamedLiteral} {e : NamedLiteral}
  {name : String} {positive : Bool}

/-- The entries that are left when literals are set one after the other. -/
def setAll (es : List NamedLiteral) : List NamedLiteral :=
  es.foldl (fun entries e => setEntry e entries) []

/-- The literal is the last one over its name. -/
def IsLast (es : List NamedLiteral) (e : NamedLiteral) : Prop :=
  ∃ before after, es = before ++ e :: after ∧ ∀ x ∈ after, x.name ≠ e.name

/-! ## The pass -/

/-- One more literal keeps the names apart, so the pass does. -/
theorem nodup_names_setAll (es : List NamedLiteral) :
    ((setAll es).map NamedLiteral.name).Nodup := by
  apply List.foldlRecOn es _ (motive := fun (entries : List NamedLiteral) =>
    (entries.map NamedLiteral.name).Nodup)
  · exact List.nodup_nil
  · intro entries h e _
    exact nodup_setEntry h

/-- A value assignment holds what the pass over its literals leaves. -/
theorem entries_ofList_eq_setAll (es : List NamedLiteral) :
    (ofList es : ValueAssignment k).entries = setAll es :=
  (List.foldl_hom entries fun _ _ => rfl).symm

/-! ## Names and values -/

theorem firstOccurrences_names_setAll (es : List NamedLiteral) :
    FirstOccurrences (es.map NamedLiteral.name) ((setAll es).map NamedLiteral.name) := by
  rw [← entries_ofList_eq_setAll (k := .plain), names_ofList]
  exact firstOccurrences_eraseDups _

/-- A name has the sign of its last literal. -/
theorem get?_ofList_eq_some_iff :
    (ofList es : ValueAssignment k).get? name = some positive ↔ IsLast es ⟨name, positive⟩ := by
  rw [get?_ofList, lookup_reverse_eq_some_iff]
  constructor
  · rintro ⟨before, e, after, hsplit, rfl, rfl, hafter⟩
    exact ⟨before, after, hsplit, hafter⟩
  · rintro ⟨before, after, hsplit, hafter⟩
    exact ⟨before, _, after, hsplit, rfl, rfl, hafter⟩

theorem mem_setAll_iff : e ∈ setAll es ↔ IsLast es e := by
  rw [← entries_ofList_eq_setAll (k := .plain), ← get?_ofList_eq_some_iff (k := .plain),
    get?_eq_some_iff]

/-- A name without a literal has no value. -/
theorem get?_ofList_eq_none_iff :
    (ofList es : ValueAssignment k).get? name = none ↔ ∀ e ∈ es, e.name ≠ name := by
  rw [get?, Option.map_eq_none_iff, List.find?_eq_none, entries_ofList_eq_setAll]
  have hnames := (firstOccurrences_names_setAll es).mem_iff name
  simp only [List.mem_map] at hnames
  simpa using not_congr hnames

/-- The order of the names and the last literals determine a value assignment. -/
theorem eq_ofList_iff :
    v = ofList es ↔
      FirstOccurrences (es.map NamedLiteral.name) (v.entries.map NamedLiteral.name) ∧
        ∀ e ∈ v.entries, IsLast es e := by
  have hentries := entries_ofList_eq_setAll (k := k) es
  constructor
  · rintro rfl
    rw [hentries]
    exact ⟨firstOccurrences_names_setAll es, fun e => mem_setAll_iff.1⟩
  · rintro ⟨hnames, hlast⟩
    apply ext_entries
    rw [hentries]
    apply eq_of_map_eq
      ((firstOccurrences_iff.1 hnames).trans
        (firstOccurrences_iff.1 (firstOccurrences_names_setAll es)).symm)
    intro x hx y hy hxy
    exact List.inj_on_of_nodup_map (nodup_names_setAll es) (mem_setAll_iff.2 (hlast x hx)) hy hxy

/-! ## Building again -/

/-- Under another reading, the literals of a value assignment build what is read. -/
theorem ofList_entries_eq_toKind (v : ValueAssignment k) (k' : Kind) :
    ofList v.entries = v.toKind k' :=
  (v.toKind k').ofList_entries

/-- Behind the entries of a value assignment further literals are set in it. -/
theorem ofList_entries_append (v : ValueAssignment k) (fs : List NamedLiteral) :
    ofList (v.entries ++ fs) = fs.foldl insert v := by
  rw [ofList, List.foldl_append]
  exact congrArg (List.foldl insert · fs) v.ofList_entries

/-! ## One entry for each name -/

/-- The pass over literals leaves one entry for each name: the names are in the order of their first
literals, and the entries are the last literals over their names. A value assignment that is built
from the literals holds these entries and is the only one that does, so it answers with the sign of
the last literal over a name, and with nothing if there is none. Built again from its own entries,
under whatever reading, it stays as it is, and what is set behind its entries could have been set
behind the literals. -/
theorem ofList_one_entry_per_name (es : List NamedLiteral) :
    ((setAll es).map NamedLiteral.name).Nodup ∧
    FirstOccurrences (es.map NamedLiteral.name) ((setAll es).map NamedLiteral.name) ∧
    (∀ e, e ∈ setAll es ↔ IsLast es e) ∧
    ∀ k : Kind,
      (ofList es : ValueAssignment k).entries = setAll es ∧
      (∀ v : ValueAssignment k, v = ofList es ↔
        FirstOccurrences (es.map NamedLiteral.name) (v.entries.map NamedLiteral.name) ∧
          ∀ e ∈ v.entries, IsLast es e) ∧
      (∀ name positive, (ofList es : ValueAssignment k).get? name = some positive ↔
        IsLast es ⟨name, positive⟩) ∧
      (∀ name, (ofList es : ValueAssignment k).get? name = none ↔ ∀ e ∈ es, e.name ≠ name) ∧
      (∀ k', ofList (ofList es : ValueAssignment k).entries =
        (ofList es : ValueAssignment k).toKind k' ∧
        ((ofList es : ValueAssignment k).toKind k').entries = setAll es) ∧
      ∀ fs, (ofList ((ofList es : ValueAssignment k).entries ++ fs) : ValueAssignment k) =
        ofList (es ++ fs) := by
  refine ⟨nodup_names_setAll es, firstOccurrences_names_setAll es, fun e => mem_setAll_iff, ?_⟩
  intro k
  have hentries := entries_ofList_eq_setAll (k := k) es
  refine ⟨hentries, fun v => eq_ofList_iff, fun name positive => get?_ofList_eq_some_iff,
    fun name => get?_ofList_eq_none_iff, ?_, ?_⟩
  · intro k'
    exact ⟨ofList_entries_eq_toKind (ofList es) k', hentries⟩
  · intro fs
    rw [ofList_entries_append]
    exact List.foldl_append.symm

/-- A name with two literals, which gets a third one when more are set. -/
theorem ofList_one_entry_per_name_repeated :
    ∃ v w : ValueAssignment .clause,
      ofList [⟨"a", true⟩, ⟨"b", true⟩, ⟨"a", false⟩] = v ∧
      v.render = "ValueClause[-a, b]" ∧ v.get? "a" = some false ∧ v.get? "c" = none ∧
      (v.toKind .plain).render = "ValueAssignment[-a, b]" ∧
      ofList v.entries = v.toKind .plain ∧
      ofList (v.entries ++ [⟨"a", true⟩, ⟨"c", true⟩]) = w ∧
      w.render = "ValueClause[a, b, c]" := by
  let es : List NamedLiteral := [⟨"a", true⟩, ⟨"b", true⟩, ⟨"a", false⟩]
  let fs : List NamedLiteral := [⟨"a", true⟩, ⟨"c", true⟩]
  obtain ⟨-, -, -, hkind⟩ := ofList_one_entry_per_name es
  obtain ⟨-, -, hsome, hnone, hagain, hbehind⟩ := hkind .clause
  have hlast : IsLast es ⟨"a", false⟩ := ⟨[⟨"a", true⟩, ⟨"b", true⟩], [], rfl, by simp⟩
  exact ⟨ofList es, ofList (es ++ fs), rfl, by decide, (hsome _ _).2 hlast,
    (hnone _).2 (by decide), by decide, (hagain .plain).1, hbehind fs, by decide⟩

end Clausal.ValueAssignment
