/-
  Clausal.Proofs.Extraction.Lookup

  When a conversion fails, and over which names. The names that a conversion looks up are those of
  the relevant literals (`Formula.relevantLiterals`): the direct members of each conjunct, unless
  the constant true is one of them. The look-ups happen in the order of these literals, across
  clauses (`Formula.mapM_resolve_relevantLiterals`), so the first name that the map lacks is
  reported, and a map may lack or renumber any other name.

  A derived map covers more. It is built from a walk through the whole formula, at any depth, so no
  name that is looked up is missing from it (`Formula.occurs_of_mem_relevantLiterals`).
-/
import Clausal.Proofs.Extraction.Meaning
import Clausal.Proofs.VariableMap

namespace Clausal

/-! ## One name -/

namespace VariableMap

variable {m : VariableMap} {n : NamedLiteral}

theorem exists_resolve_eq_ok_iff : (∃ l, m.resolve n = .ok l) ↔ n.name ∈ m.names := by
  rw [← index?_isSome_iff, resolve]
  cases m.index? n.name <;> simp

theorem resolve_eq_error_iff {e : Failure} :
    m.resolve n = .error e ↔ n.name ∉ m.names ∧ e = .unmapped n.name := by
  rw [← index?_isSome_iff, resolve]
  cases m.index? n.name <;> simp [eq_comm]

end VariableMap

namespace Formula

/-! ## Relevant literals -/

/-- The literals among the members of a conjunct, unless the constant true is one of them. -/
def directLiterals (fs : List Formula) : List NamedLiteral :=
  if .const true ∈ fs then [] else fs.filterMap literal?

/-- The literals of one conjunct: the conjunct itself or those among its members. -/
def conjunctLiterals : Formula → List NamedLiteral
  | .const _ => []
  | .literal l => [l]
  | .and fs | .or fs => directLiterals fs

/-- The literals of a formula that a conversion turns into literals over variables. -/
def relevantLiterals : Formula → List NamedLiteral
  | .const _ => []
  | .literal l => [l]
  | .or fs => directLiterals fs
  | .and fs => fs.flatMap conjunctLiterals

/-- A dropped conjunct has no relevant literals, the others have those of their clauses. -/
theorem flatten_clauseLiterals? (f : Formula) :
    f.clauseLiterals?.toList.flatten = f.conjunctLiterals := by
  cases f with
  | const value => rfl
  | literal l => rfl
  | and fs | or fs =>
    by_cases htrue : .const true ∈ fs <;>
      simp [clauseLiterals?, conjunctLiterals, directLiterals, children, htrue]

/-- The relevant literals are those of all clauses in order. -/
theorem flatten_namedClauses (f : Formula) : f.namedClauses.flatten = f.relevantLiterals := by
  have hconjuncts : f.namedClauses.flatten = f.conjuncts.flatMap conjunctLiterals := by
    rw [namedClauses, List.filterMap_eq_flatMap_toList]
    induction f.conjuncts with
    | nil => rfl
    | cons g gs ih =>
      rw [List.flatMap_cons, List.flatMap_cons, List.flatten_append, flatten_clauseLiterals?, ih]
  rw [hconjuncts]
  cases f with
  | const value => cases value <;> rfl
  | literal l => rfl
  | or fs => exact List.append_nil _
  | and fs => rfl

/-! ## Looking names up -/

variable {f : Formula} {m n : VariableMap}

/-- The clauses of a conversion are the rows of literals that are found for the clauses over
names. -/
theorem clauses_convert (f : Formula) (m : VariableMap) :
    ClauseList.clauses <$> f.convert (some m) =
      List.map Assignment.mk <$> f.namedClauses.mapM fun row => row.mapM m.resolve := by
  rw [← mapM_map_result, convert, Option.getD_some, toClauseList]
  cases f.namedClauses.mapM fun row => Assignment.mk <$> row.mapM m.resolve <;> rfl

/-- A conversion looks up the relevant literals in order and groups what it finds into clauses. -/
theorem mapM_resolve_relevantLiterals (f : Formula) (m : VariableMap) :
    f.relevantLiterals.mapM m.resolve =
      List.flatMap Assignment.literals <$> (ClauseList.clauses <$> f.convert (some m)) := by
  have hrows : ∀ rows : List (List Literal),
      (rows.map fun row => (⟨row⟩ : Clause)).flatMap Assignment.literals = rows.flatten := by
    intro rows
    rw [List.flatMap_map, List.flatMap_def, List.map_id']
  rw [← flatten_namedClauses, mapM_flatten, clauses_convert, Functor.map_map]
  simp only [hrows]

/-- A conversion succeeds when the map has the name of every relevant literal. -/
theorem exists_convert_eq_ok_iff :
    (∃ l, f.convert (some m) = .ok l) ↔ ∀ n ∈ f.relevantLiterals, n.name ∈ m.names := by
  rw [← flatten_namedClauses]
  constructor
  · rintro ⟨l, hl⟩ n hn
    have hfound := mapM_resolve_relevantLiterals f m
    rw [hl, ← flatten_namedClauses] at hfound
    obtain ⟨lit, -, hlit⟩ := exists_of_mem_left (mapM_eq_ok_iff.1 hfound) hn
    exact VariableMap.exists_resolve_eq_ok_iff.1 ⟨lit, hlit⟩
  · intro h
    exact exists_toClauseList fun row hrow n hn => h n (List.mem_flatten.2 ⟨row, hrow, hn⟩)

/-- A conversion fails at the first relevant literal whose name the map lacks. -/
theorem convert_eq_error_iff {e : Failure} :
    f.convert (some m) = .error e ↔
      ∃ before n after, f.relevantLiterals = before ++ n :: after ∧
        (∀ k ∈ before, k.name ∈ m.names) ∧ n.name ∉ m.names ∧ e = .unmapped n.name := by
  have hrun : f.convert (some m) = .error e ↔ f.relevantLiterals.mapM m.resolve = .error e := by
    rw [mapM_resolve_relevantLiterals, map_eq_error_iff, map_eq_error_iff]
  simp only [hrun, mapM_eq_error_iff, VariableMap.exists_resolve_eq_ok_iff,
    VariableMap.resolve_eq_error_iff]

/-- Maps that agree on the names of the relevant literals give the same clauses or fail alike. -/
theorem clauses_convert_congr
    (h : ∀ k ∈ f.relevantLiterals, m.index? k.name = n.index? k.name) :
    ClauseList.clauses <$> f.convert (some m) = ClauseList.clauses <$> f.convert (some n) := by
  rw [← flatten_namedClauses] at h
  have hrows : ∀ row ∈ f.namedClauses, row.mapM m.resolve = row.mapM n.resolve := by
    intro row hrow
    refine mapM_congr fun k hk => ?_
    rw [VariableMap.resolve, VariableMap.resolve, h k (List.mem_flatten.2 ⟨row, hrow, hk⟩)]
  rw [clauses_convert, clauses_convert, mapM_congr hrows]

/-! ## Names anywhere in a formula -/

/-- The name is that of some literal in the formula, at any depth. -/
inductive Occurs (name : String) : Formula → Prop where
  | literal (positive : Bool) : Occurs name (.literal ⟨name, positive⟩)
  | and {f : Formula} {fs : List Formula} : f ∈ fs → Occurs name f → Occurs name (.and fs)
  | or {f : Formula} {fs : List Formula} : f ∈ fs → Occurs name f → Occurs name (.or fs)

section Occurs

variable {name : String}

mutual
theorem occurs_of_mem_literalNames : ∀ f : Formula, name ∈ f.literalNames → f.Occurs name
  | .const _, h => nomatch h
  | .literal l, h => List.mem_singleton.1 h ▸ .literal l.positive
  | .and fs, h =>
    have ⟨_, hf, hname⟩ := exists_occurs_of_mem_literalNamesList fs h
    .and hf hname
  | .or fs, h =>
    have ⟨_, hf, hname⟩ := exists_occurs_of_mem_literalNamesList fs h
    .or hf hname
theorem exists_occurs_of_mem_literalNamesList :
    ∀ fs : List Formula, name ∈ literalNamesList fs → ∃ f ∈ fs, f.Occurs name
  | f :: fs, h => by
    rcases List.mem_append.1 h with h | h
    · exact ⟨f, List.mem_cons_self, occurs_of_mem_literalNames f h⟩
    · obtain ⟨g, hg, hname⟩ := exists_occurs_of_mem_literalNamesList fs h
      exact ⟨g, List.mem_cons_of_mem _ hg, hname⟩
end

/-- The walk through a formula meets the names that occur in it. -/
theorem mem_literalNames_iff : name ∈ f.literalNames ↔ f.Occurs name := by
  refine ⟨occurs_of_mem_literalNames f, ?_⟩
  intro h
  induction h with
  | literal positive => exact List.mem_singleton_self _
  | and hf _ ih | or hf _ ih =>
    rw [literalNames, literalNamesList_eq_flatMap]
    exact List.mem_flatMap.2 ⟨_, hf, ih⟩

end Occurs

theorem occurs_of_mem_directLiterals {fs : List Formula} {k : NamedLiteral}
    (hk : k ∈ directLiterals fs) : ∃ f ∈ fs, f.Occurs k.name := by
  rw [directLiterals] at hk
  split at hk
  · cases hk
  · obtain ⟨f, hf, hk⟩ := List.mem_filterMap.1 hk
    cases f with
    | literal l =>
      obtain rfl := Option.some.inj hk
      exact ⟨_, hf, .literal l.positive⟩
    | const value | and gs | or gs => cases hk

theorem occurs_of_mem_conjunctLiterals {k : NamedLiteral} (hk : k ∈ f.conjunctLiterals) :
    f.Occurs k.name := by
  cases f with
  | const value => cases hk
  | literal l =>
    obtain rfl := List.mem_singleton.1 hk
    exact .literal k.positive
  | and fs =>
    obtain ⟨g, hg, hname⟩ := occurs_of_mem_directLiterals hk
    exact .and hg hname
  | or fs =>
    obtain ⟨g, hg, hname⟩ := occurs_of_mem_directLiterals hk
    exact .or hg hname

/-- The names that a conversion looks up occur in the formula. -/
theorem occurs_of_mem_relevantLiterals {k : NamedLiteral} (hk : k ∈ f.relevantLiterals) :
    f.Occurs k.name := by
  cases f with
  | const value | literal l | or fs => exact occurs_of_mem_conjunctLiterals hk
  | and fs =>
    obtain ⟨g, hg, hk⟩ := List.mem_flatMap.1 hk
    exact .and hg (occurs_of_mem_conjunctLiterals hk)

/-! ## The map of a formula -/

section VariableMap

variable (hroom : f.variableNames.length ≤ Variable.maxIndex)
include hroom

/-- The map of a formula is the one that the walk through it builds. -/
theorem variableMap_eq : f.variableMap = .ofNames f.literalNames :=
  VariableMap.ofNames_eraseDups hroom

/-- The map of a formula has the names that occur in it. -/
theorem mem_names_variableMap_iff {name : String} :
    name ∈ f.variableMap.names ↔ f.Occurs name := by
  rw [variableMap_eq hroom, VariableMap.names_ofNames hroom, List.mem_eraseDups,
    mem_literalNames_iff]

/-- A conversion without a given map succeeds. -/
theorem exists_convert_none : ∃ l, f.convert none = .ok l := by
  refine exists_convert_eq_ok_iff.2 fun k hk => ?_
  exact (mem_names_variableMap_iff hroom).2 (occurs_of_mem_relevantLiterals hk)

end VariableMap

/-- A conversion under a given map succeeds when the map has the names of all relevant literals.
Otherwise it names the first one that is missing. Any other name may be missing or have another
index. Without a given map the conversion succeeds, and its map has the names that occur anywhere in
the formula, in the order in which a walk through the formula first meets them. -/
theorem convert_lookups (f : Formula) :
    (∀ m : VariableMap,
      ((∃ l, f.convert (some m) = .ok l) ↔ ∀ n ∈ f.relevantLiterals, n.name ∈ m.names) ∧
      ∀ e, f.convert (some m) = .error e ↔
        ∃ before n after, f.relevantLiterals = before ++ n :: after ∧
          (∀ k ∈ before, k.name ∈ m.names) ∧ n.name ∉ m.names ∧ e = .unmapped n.name) ∧
    (∀ m n : VariableMap, (∀ k ∈ f.relevantLiterals, m.index? k.name = n.index? k.name) →
      ClauseList.clauses <$> f.convert (some m) = ClauseList.clauses <$> f.convert (some n)) ∧
    (f.variableNames.length ≤ Variable.maxIndex →
      ∃ l m, f.convert none = .ok l ∧ l.variableMap = some m ∧
        (∀ name, name ∈ m.names ↔ f.Occurs name) ∧
        ∀ name v, m.index? name = some v ↔
          ∃ before after, f.literalNames = before ++ name :: after ∧ name ∉ before ∧
            v.index = before.eraseDups.length + 1) := by
  refine ⟨fun m => ⟨exists_convert_eq_ok_iff, fun e => convert_eq_error_iff⟩,
    fun m n h => clauses_convert_congr h, ?_⟩
  intro hroom
  obtain ⟨l, hl⟩ := exists_convert_none hroom
  refine ⟨l, f.variableMap, hl, (toClauseList_eq_ok_iff.1 hl).1,
    fun name => mem_names_variableMap_iff hroom, fun name v => ?_⟩
  rw [variableMap_eq hroom]
  exact VariableMap.index?_ofNames_eq_some_iff hroom

/-- A name one level too deep, a name in a dropped conjunct, and three that are looked up. -/
def scattered : Formula :=
  .and [.or [.literal ⟨"a", true⟩, .and [.literal ⟨"d", true⟩], .literal ⟨"b", false⟩],
    .or [.const true, .literal ⟨"e", true⟩], .literal ⟨"c", true⟩]

theorem convert_lookups_scattered :
    ∃ m n k : VariableMap, m.names = ["b", "a", "c"] ∧ n.names = ["b", "a", "c", "e", "d"] ∧
      k.names = ["e", "a"] ∧ (∃ l, scattered.convert (some m) = .ok l) ∧
      ClauseList.clauses <$> scattered.convert (some m) =
        ClauseList.clauses <$> scattered.convert (some n) ∧
      scattered.convert (some k) = .error (.unmapped "b") ∧
      ∃ l own v, scattered.convert none = .ok l ∧ l.variableMap = some own ∧
        own.index? "d" = some v ∧ v.index = 2 := by
  let m : VariableMap := ⟨["b", "a", "c"], by decide, by decide⟩
  let n : VariableMap := ⟨["b", "a", "c", "e", "d"], by decide, by decide⟩
  let k : VariableMap := ⟨["e", "a"], by decide, by decide⟩
  let v : Variable := ⟨2, by decide, by decide⟩
  obtain ⟨hgiven, hagree, hderived⟩ := convert_lookups scattered
  obtain ⟨l, own, hl, hown, -, hindex⟩ := hderived (by decide)
  refine ⟨m, n, k, rfl, rfl, rfl, (hgiven m).1.2 (by decide), hagree m n (by decide), ?_,
    l, own, v, hl, hown, ?_, rfl⟩
  · exact ((hgiven k).2 _).2
      ⟨[⟨"a", true⟩], ⟨"b", false⟩, [⟨"c", true⟩], by decide, by decide, by decide, rfl⟩
  · exact (hindex "d" v).2 ⟨["a"], ["b", "e", "c"], by decide, by decide, by decide⟩

end Formula

end Clausal
