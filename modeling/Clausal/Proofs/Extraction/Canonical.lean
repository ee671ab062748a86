/-
  Clausal.Proofs.Extraction.Canonical

  A derived numbering depends on where names occur and on nothing else. Replacing names one to one
  replaces them in everything a conversion works with: in the walk through the formula, in the map
  that the walk builds name by name (`VariableMap.names_foldl_insert_map`) and in the clauses over
  names. So each name still finds the variable it found before, and the conversion ends alike
  (`RenamedOutcome`).

  Converting the formula of a clause list numbers the list canonically: its variables are then the
  names of the formula at their first occurrences (`ClauseList.InOrderOfOccurrence`). The formula of
  the list stays the same, so a second conversion changes nothing.
-/
import Clausal.Proofs.Extraction.Lookup
import Clausal.Proofs.Extraction.Renumbering
import Mathlib.Data.List.Perm.Subperm

namespace Clausal

/-! ## Replacing names -/

/-- The literal with its name replaced. -/
def NamedLiteral.rename (r : String → String) (n : NamedLiteral) : NamedLiteral :=
  ⟨r n.name, n.positive⟩

namespace Formula

mutual
/-- The formula with every name replaced. -/
def rename (r : String → String) : Formula → Formula
  | .const value => .const value
  | .literal n => .literal (n.rename r)
  | .and fs => .and (renameList r fs)
  | .or fs => .or (renameList r fs)
/-- Each formula with every name replaced. -/
def renameList (r : String → String) : List Formula → List Formula
  | [] => []
  | f :: fs => rename r f :: renameList r fs
end

variable (r : String → String)

theorem renameList_eq_map (fs : List Formula) : renameList r fs = fs.map (rename r) := by
  induction fs with
  | nil => rfl
  | cons f fs ih => rw [renameList, ih, List.map_cons]

mutual
theorem literalNames_rename : ∀ f : Formula, (f.rename r).literalNames = f.literalNames.map r
  | .const _ | .literal _ => rfl
  | .and fs | .or fs => literalNamesList_renameList fs
theorem literalNamesList_renameList :
    ∀ fs : List Formula, literalNamesList (renameList r fs) = (literalNamesList fs).map r
  | [] => rfl
  | f :: fs => by
    rw [renameList, literalNamesList, literalNamesList, literalNames_rename f,
      literalNamesList_renameList fs, List.map_append]
end

/-! ### Clauses over names -/

theorem literal?_rename (f : Formula) :
    (f.rename r).literal? = f.literal?.map (NamedLiteral.rename r) := by
  cases f <;> rfl

/-- Constants have no names. -/
theorem rename_eq_const_iff {f : Formula} {value : Bool} :
    f.rename r = .const value ↔ f = .const value := by
  cases f <;> simp [rename]

theorem const_mem_map_rename_iff {fs : List Formula} {value : Bool} :
    .const value ∈ fs.map (rename r) ↔ .const value ∈ fs := by
  simp [rename_eq_const_iff]

theorem children_rename (f : Formula) : (f.rename r).children = f.children.map (rename r) := by
  cases f with
  | const value | literal n => rfl
  | and fs | or fs => exact renameList_eq_map r fs

theorem conjuncts_rename (f : Formula) : (f.rename r).conjuncts = f.conjuncts.map (rename r) := by
  cases f with
  | const value => cases value <;> rfl
  | literal n | or fs => rfl
  | and fs => exact renameList_eq_map r fs

theorem filterMap_literal?_map_rename (fs : List Formula) : (fs.map (rename r)).filterMap literal? =
    (fs.filterMap literal?).map (NamedLiteral.rename r) := by
  rw [List.filterMap_map, List.map_filterMap]
  exact congrArg (List.filterMap · fs) (funext fun f => literal?_rename r f)

/-- What is no literal itself is looked at through its members. -/
theorem clauseLiterals?_of_literal?_eq_none {f : Formula} (h : f.literal? = none) :
    f.clauseLiterals? =
      if .const true ∈ f.children then none else some (f.children.filterMap literal?) := by
  cases f with
  | literal n => cases h
  | const value | and fs | or fs => rfl

theorem clauseLiterals?_rename (f : Formula) :
    (f.rename r).clauseLiterals? = f.clauseLiterals?.map (List.map (NamedLiteral.rename r)) := by
  cases hf : f.literal? with
  | some n =>
    cases f with
    | literal n => rfl
    | const value | and fs | or fs => cases hf
  | none =>
    have hf' : (f.rename r).literal? = none := by rw [literal?_rename, hf, Option.map_none]
    rw [clauseLiterals?_of_literal?_eq_none hf, clauseLiterals?_of_literal?_eq_none hf',
      children_rename, filterMap_literal?_map_rename]
    by_cases htrue : .const true ∈ f.children
    · rw [if_pos htrue, if_pos ((const_mem_map_rename_iff r).2 htrue), Option.map_none]
    · rw [if_neg htrue, if_neg (mt (const_mem_map_rename_iff r).1 htrue), Option.map_some]

/-- The clauses over names have their names replaced. -/
theorem namedClauses_rename (f : Formula) :
    (f.rename r).namedClauses = f.namedClauses.map (List.map (NamedLiteral.rename r)) := by
  rw [namedClauses, namedClauses, conjuncts_rename, List.filterMap_map, List.map_filterMap]
  exact congrArg (List.filterMap · _) (funext fun g => clauseLiterals?_rename r g)

end Formula

/-! ## Numberings with other names -/

namespace VariableMap

variable {r : String → String} {m n : VariableMap} {name : String}

/-- A name and its replacement are both new or both known, and there is room for both or none. -/
theorem names_insert_map (h : n.names = m.names.map r)
    (hname : r name ∈ n.names ↔ name ∈ m.names) :
    (n.insert (r name)).names = (m.insert name).names.map r := by
  have hsize : n.size = m.size := by rw [size, h, List.length_map, size]
  by_cases hnew : name ∉ m.names ∧ m.size < Variable.maxIndex
  · rw [names_insert hnew.1 hnew.2, names_insert (mt hname.1 hnew.1) (hsize ▸ hnew.2), h,
      List.map_append, List.map_singleton]
  · rw [insert_eq_self hnew, insert_eq_self (by rwa [hname, hsize]), h]

section Replacement

variable {p : String → Prop} (hr : ∀ x y, p x → p y → r x = r y → x = y)
include hr

theorem mem_map_iff_of_inj {names : List String} (hnames : ∀ x ∈ names, p x) (hname : p name) :
    r name ∈ names.map r ↔ name ∈ names := by
  constructor
  · intro h
    obtain ⟨x, hx, heq⟩ := List.mem_map.1 h
    rw [← hr x name (hnames x hx) hname heq]
    exact hx
  · exact List.mem_map_of_mem

/-- A map that is built from names with replacements has the replaced names in the same order. -/
theorem names_foldl_insert_map {names : List String} (h : n.names = m.names.map r)
    (hm : ∀ x ∈ m.names, p x) (hnames : ∀ x ∈ names, p x) :
    ((names.map r).foldl insert n).names = (names.foldl insert m).names.map r := by
  induction names generalizing m n with
  | nil => exact h
  | cons name rest ih =>
    obtain ⟨hname, hrest⟩ := List.forall_mem_cons.1 hnames
    have hstep : (n.insert (r name)).names = (m.insert name).names.map r :=
      names_insert_map h (by rw [h, mem_map_iff_of_inj hr hm hname])
    refine ih hstep (fun x hx => ?_) hrest
    rcases mem_names_insert hx with hx | rfl
    · exact hm x hx
    · exact hname

/-- The replacement of a name has the variable that the name had. -/
theorem index?_of_names_eq_map (h : n.names = m.names.map r) (hm : ∀ x ∈ m.names, p x)
    (hname : p name) : n.index? (r name) = m.index? name := by
  apply Option.ext
  intro v
  rw [index?_eq_some_iff, index?_eq_some_iff, name?, h, List.getElem?_map, ← name?,
    Option.map_eq_some_iff]
  constructor
  · rintro ⟨x, hx, heq⟩
    rw [← hr x name (hm x (mem_names_iff.2 ⟨v, hx⟩)) hname heq]
    exact hx
  · intro hv
    exact ⟨name, hv, rfl⟩

end Replacement

end VariableMap

/-! ## Renamed conversions -/

/-- Both failures are over a name, the second one over its replacement. -/
inductive Replaced (r : String → String) : Failure → Failure → Prop where
  | intro (name : String) : Replaced r (.unmapped name) (.unmapped (r name))

/-- Both conversions give the same clauses, and the second map has the names of the first one
replaced; or the second one fails over the replacement of the name that the first one lacks. -/
inductive RenamedOutcome (r : String → String) :
    Except Failure ClauseList → Except Failure ClauseList → Prop where
  | ok {clauses : List Clause} {m n : VariableMap} : n.names = m.names.map r →
      RenamedOutcome r (.ok ⟨clauses, some m⟩) (.ok ⟨clauses, some n⟩)
  | error (name : String) : RenamedOutcome r (.error (.unmapped name)) (.error (.unmapped (r name)))

/-- Attaching maps to clauses that are found alike. -/
theorem RenamedOutcome.of_sameOutcome {r : String → String} {m n : VariableMap}
    (hnames : n.names = m.names.map r) {x y : Except Failure (List Clause)}
    (h : SameOutcome (Replaced r) x y) :
    RenamedOutcome r (x >>= fun clauses => pure ⟨clauses, some m⟩)
      (y >>= fun clauses => pure ⟨clauses, some n⟩) := by
  cases h with
  | ok clauses => exact .ok hnames
  | error h =>
    obtain ⟨name⟩ := h
    exact .error name

namespace Formula

variable {f : Formula}

/-- The names in the clauses are names of the formula. -/
theorem name_mem_variableNames {row : List NamedLiteral} {n : NamedLiteral}
    (hrow : row ∈ f.namedClauses) (hn : n ∈ row) : n.name ∈ f.variableNames := by
  rw [variableNames, List.mem_eraseDups, mem_literalNames_iff]
  apply occurs_of_mem_relevantLiterals
  rw [← flatten_namedClauses]
  exact List.mem_flatten.2 ⟨row, hrow, hn⟩

section Rename

variable {r : String → String}
  (hr : ∀ x ∈ f.variableNames, ∀ y ∈ f.variableNames, r x = r y → x = y)
include hr

theorem variableNames_rename : (f.rename r).variableNames = f.variableNames.map r := by
  rw [variableNames, literalNames_rename, variableNames]
  apply eraseDups_map
  intro x hx y hy
  exact hr x (List.mem_eraseDups.2 hx) y (List.mem_eraseDups.2 hy)

theorem names_variableMap_rename :
    (f.rename r).variableMap.names = f.variableMap.names.map r := by
  rw [variableMap, variableMap, variableNames_rename hr]
  exact VariableMap.names_foldl_insert_map (p := (· ∈ f.variableNames))
    (fun x y hx => hr x hx y) rfl nofun fun x hx => hx

/-- A literal of the formula is looked up as its replacement is. -/
theorem sameOutcome_resolve_rename {n : NamedLiteral} (hn : n.name ∈ f.variableNames) :
    SameOutcome (Replaced r) (f.variableMap.resolve n)
      ((f.rename r).variableMap.resolve (n.rename r)) := by
  have hindex : (f.rename r).variableMap.index? (r n.name) = f.variableMap.index? n.name := by
    refine VariableMap.index?_of_names_eq_map (p := (· ∈ f.variableNames))
      (fun x y hx => hr x hx y) (names_variableMap_rename hr) (fun x hx => ?_) hn
    exact (VariableMap.mem_names_foldl_insert hx).resolve_left nofun
  unfold VariableMap.resolve
  rw [NamedLiteral.rename, hindex]
  cases f.variableMap.index? n.name with
  | some v => exact .ok _
  | none => exact .error (.intro n.name)

theorem renamedOutcome_convert :
    RenamedOutcome r (f.convert none) ((f.rename r).convert none) := by
  have hrow : ∀ row ∈ f.namedClauses,
      SameOutcome (Replaced r) (row.mapM f.variableMap.resolve)
        ((row.map (NamedLiteral.rename r)).mapM (f.rename r).variableMap.resolve) := by
    intro row hrow
    refine .mapM (List.forall₂_map_right_iff.2 (List.forall₂_same.2 fun n hn => ?_))
    exact sameOutcome_resolve_rename hr (name_mem_variableNames hrow hn)
  rw [convert, convert, Option.getD_none, Option.getD_none, toClauseList, toClauseList,
    namedClauses_rename]
  refine .of_sameOutcome (names_variableMap_rename hr) (.mapM ?_)
  exact List.forall₂_map_right_iff.2 (List.forall₂_same.2 fun row h => .map _ (hrow row h))

end Rename

/-- The names of the formula that rows say are those of the rows in order. -/
theorem literalNames_formulaOfNamed (rows : List (List NamedLiteral)) :
    (ClauseList.formulaOfNamed rows).literalNames = rows.flatten.map NamedLiteral.name := by
  have hrow : ∀ row : List NamedLiteral,
      (Formula.or (row.map .literal)).literalNames = row.map NamedLiteral.name := by
    intro row
    rw [literalNames, literalNamesList_eq_flatMap, List.flatMap_map]
    exact List.map_eq_flatMap.symm
  rw [ClauseList.formulaOfNamed, literalNames, literalNamesList_eq_flatMap, List.flatMap_map,
    List.map_flatten, List.flatMap_def]
  simp only [hrow]

end Formula

/-! ## Clause lists in canonical numbering -/

namespace VariableMap

variable {m : VariableMap}

/-- Variables that have the names of a map in order are those of the map in order. -/
theorem map_index_of_forall₂ {vs : List Variable}
    (h : List.Forall₂ (fun v name => m.name? v = some name) vs m.names) :
    vs.map Variable.index = List.range' 1 m.size := by
  apply List.ext_getElem
  · rw [List.length_map, List.length_range', h.length_eq, size]
  · intro i hi _
    have hlt : i < vs.length := by rwa [List.length_map] at hi
    have hlt' : i < m.names.length := h.length_eq ▸ hlt
    have hname : m.names[vs[i].index - 1]? = some m.names[i] := h.get hlt hlt'
    have hpos := vs[i].index_pos
    rw [← List.getElem?_eq_getElem hlt'] at hname
    -- No name stands at two places.
    have hplace : i = vs[i].index - 1 := (List.getElem?_inj hlt' m.nodup).1 hname.symm
    rw [List.getElem_map, List.getElem_range']
    omega

end VariableMap

namespace ClauseList

variable {l : ClauseList} {m : VariableMap} {rows : List (List NamedLiteral)}

/-- Reading the literals in order, the variable that is the k-th to occur for the first time has
index k, and every index of the map occurs. -/
def InOrderOfOccurrence (l : ClauseList) (m : VariableMap) : Prop :=
  (l.clauses.flatMap (·.vars)).eraseDups.map Variable.index = List.range' 1 m.size

/-- The variables of a list have the names of its rows. -/
theorem forall₂_vars_of_named (hm : l.variableMap = some m) (h : l.named = .ok rows) :
    List.Forall₂ (fun v name => m.name? v = some name) (l.clauses.flatMap (·.vars))
      (rows.flatten.map NamedLiteral.name) := by
  rw [List.map_flatten, ← List.flatMap_def]
  exact List.rel_flatMap (forall₂_of_named hm h) fun c row hrow =>
    VariableMap.forall₂_vars_of_named hrow

/-- A list is in order of occurrence if the names of its map are those of its rows at their first
occurrences. -/
theorem inOrderOfOccurrence_of_named (hm : l.variableMap = some m) (h : l.named = .ok rows)
    (hnames : m.names = (rows.flatten.map NamedLiteral.name).eraseDups) :
    l.InOrderOfOccurrence m := by
  apply VariableMap.map_index_of_forall₂
  rw [hnames]
  exact forall₂_eraseDups m.biUnique_name? (forall₂_vars_of_named hm h)

/-- There is room for the names of a list that can be read by name. -/
theorem length_variableNames_le (h : l.named = .ok rows) :
    (formulaOfNamed rows).variableNames.length ≤ Variable.maxIndex := by
  obtain ⟨m, hm, -⟩ := named_eq_ok_iff.1 h
  have hsubset : (formulaOfNamed rows).variableNames ⊆ m.names := by
    intro name hname
    obtain ⟨row, hrow, n, hn, rfl⟩ := Formula.mem_variableNames_formulaOfNamed.1 hname
    exact mem_names_of_named hm h row hrow n hn
  exact (List.subperm_of_subset (nodup_eraseDups _) hsubset).length_le.trans m.length_le

/-- Converting the formula of a list renumbers the list, in the order in which its variables
occur. -/
theorem exists_convert_none_of_named (h : l.named = .ok rows) :
    ∃ k m, (formulaOfNamed rows).convert none = .ok k ∧ k.variableMap = some m ∧
      l.reindex m = .ok k ∧ k.named = .ok rows ∧ k.InOrderOfOccurrence m := by
  have hroom := length_variableNames_le h
  obtain ⟨k, hk⟩ := Formula.exists_convert_none hroom
  obtain ⟨hm, hnamed⟩ := Formula.toClauseList_eq_ok_iff.1 hk
  rw [Formula.namedClauses_formulaOfNamed] at hnamed
  refine ⟨k, (formulaOfNamed rows).variableMap, hk, hm, ?_, hnamed,
    inOrderOfOccurrence_of_named hm hnamed ?_⟩
  · have houtcome := sameOutcome_reindex h (formulaOfNamed rows).variableMap
    rw [show (formulaOfNamed rows).convert (some _) = .ok k from hk] at houtcome
    generalize l.reindex (formulaOfNamed rows).variableMap = direct at houtcome ⊢
    cases houtcome
    rfl
  · rw [← Formula.literalNames_formulaOfNamed, Formula.variableMap_eq hroom,
      VariableMap.names_ofNames hroom]

end ClauseList

/-! ## Derived numberings -/

namespace Formula

/-- A derived numbering follows the occurrences of names. Replacing the names of a formula one to
one replaces them in the map and changes nothing else; there is a result whenever there are enough
variables. And the formula of a clause list is converted to the list renumbered in the order in
which its variables occur, which has that same formula, so that it is converted to itself. -/
theorem convert_none_canonical :
    (∀ (f : Formula) (r : String → String),
      (∀ x ∈ f.variableNames, ∀ y ∈ f.variableNames, r x = r y → x = y) →
      RenamedOutcome r (f.convert none) ((f.rename r).convert none) ∧
        (f.variableNames.length ≤ Variable.maxIndex → ∃ l, f.convert none = .ok l)) ∧
    ∀ (l : ClauseList) (g : Formula), l.toFormula = .ok g →
      ∃ k m, g.convert none = .ok k ∧ k.variableMap = some m ∧ l.reindex m = .ok k ∧
        k.InOrderOfOccurrence m ∧ ∃ g', k.toFormula = .ok g' ∧ g'.convert none = .ok k := by
  constructor
  · intro f r hr
    exact ⟨renamedOutcome_convert hr, exists_convert_none⟩
  · intro l g hg
    obtain ⟨rows, hrows, rfl⟩ := ClauseList.toFormula_eq_ok_iff.1 hg
    obtain ⟨k, m, hk, hm, hreindex, hnamed, horder⟩ :=
      ClauseList.exists_convert_none_of_named hrows
    exact ⟨k, m, hk, hm, hreindex, horder, _,
      ClauseList.toFormula_eq_ok_iff.2 ⟨rows, hnamed, rfl⟩, hk⟩

/-- A formula with a name one level too deep, which a dropped conjunct repeats. -/
def spread : Formula :=
  .and [.or [.literal ⟨"b", true⟩, .and [.literal ⟨"c", true⟩], .literal ⟨"a", false⟩],
    .or [.const true, .literal ⟨"c", true⟩], .literal ⟨"b", false⟩]

/-- A replacement that swaps two names and is not one to one on the others. -/
def swap (name : String) : String :=
  if name = "a" then "b" else if name = "b" then "a" else "z"

theorem convert_none_canonical_spread :
    ∃ (clauses : List Clause) (m n own : VariableMap) (l k : ClauseList) (g : Formula),
      m.names = ["b", "c", "a"] ∧ n.names = ["a", "z", "b"] ∧
      clauses.map (·.literals.map Literal.toInt) = [[1, -3], [-1]] ∧
      spread.convert none = .ok ⟨clauses, some m⟩ ∧
      (spread.rename swap).convert none = .ok ⟨clauses, some n⟩ ∧
      l.clauses.map (·.literals.map Literal.toInt) = [[3, -1], [], [3, -3]] ∧
      k.clauses.map (·.literals.map Literal.toInt) = [[1, -2], [], [1, -1]] ∧
      own.names = ["c", "a"] ∧ l.toFormula = .ok g ∧ g.convert none = .ok k ∧
      k.variableMap = some own ∧ l.reindex own = .ok k ∧ k.InOrderOfOccurrence own ∧
      ∃ g', k.toFormula = .ok g' ∧ g'.convert none = .ok k := by
  let x : Variable := ⟨1, by decide, by decide⟩
  let y : Variable := ⟨2, by decide, by decide⟩
  let z : Variable := ⟨3, by decide, by decide⟩
  let clauses : List Clause := [⟨[.ofVar x true, .ofVar z false]⟩, ⟨[.ofVar x false]⟩]
  let m : VariableMap := ⟨["b", "c", "a"], by decide, by decide⟩
  let own : VariableMap := ⟨["c", "a"], by decide, by decide⟩
  let l : ClauseList :=
    { clauses := [⟨[.ofVar z true, .ofVar x false]⟩, ⟨[]⟩, ⟨[.ofVar z true, .ofVar z false]⟩]
      variableMap := some ⟨["a", "b", "c"], by decide, by decide⟩ }
  let k : ClauseList :=
    { clauses := [⟨[.ofVar x true, .ofVar y false]⟩, ⟨[]⟩, ⟨[.ofVar x true, .ofVar x false]⟩]
      variableMap := some own }
  let g : Formula := .and [.or [.literal ⟨"c", true⟩, .literal ⟨"a", false⟩], .or [],
    .or [.literal ⟨"c", true⟩, .literal ⟨"c", false⟩]]
  have hspread : spread.convert none = .ok ⟨clauses, some m⟩ := by rfl
  have hl : l.toFormula = .ok g := by rfl
  have hg : g.convert none = .ok k := by rfl
  have hrenamed := (convert_none_canonical.1 spread swap (by decide)).1
  obtain ⟨n, hnames, hn⟩ : ∃ n : VariableMap, n.names = m.names.map swap ∧
      (spread.rename swap).convert none = .ok ⟨clauses, some n⟩ := by
    rw [hspread] at hrenamed
    generalize (spread.rename swap).convert none = result at hrenamed ⊢
    cases hrenamed with
    | ok hnames => exact ⟨_, hnames, rfl⟩
  obtain ⟨k', own', hk, hown, hreindex, horder, hagain⟩ := convert_none_canonical.2 l g hl
  obtain rfl : k = k' := Except.ok.inj (hg.symm.trans hk)
  obtain rfl : own = own' := Option.some.inj hown
  exact ⟨clauses, m, n, own, l, k, g, rfl, hnames, by decide, hspread, hn, by decide, by decide,
    rfl, hl, hk, hown, hreindex, horder, hagain⟩

end Formula

end Clausal
