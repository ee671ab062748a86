/-
  Clausal.Proofs.Extraction.Renumbering

  Conversion and the formula of a clause list. A list can be renumbered directly, literal by
  literal, or by converting its formula under the other numbering. The two ways look up the same
  names in the same order and differ only in how they report a name that is missing
  (`MissingIn`), so they end alike (`ClauseList.sameOutcome_reindex`). Under the list's own
  numbering the conversion gives the list back, and conversely the formula of a converted list is
  the formula that was converted, if it is made of disjunctions of literals.
-/
import Clausal.Proofs.Extraction.Meaning

namespace Clausal

/-! ## Missing names -/

/-- Both failures say that one and the same name is not in the map. -/
inductive MissingIn (m : VariableMap) : Problem → Failure → Prop where
  | intro {name : String} : name ∉ m.names → MissingIn m (.unknownName name) (.unmapped name)

/-- Looking a literal up for a conversion ends as any other look-up does. -/
theorem VariableMap.sameOutcome_literal (m : VariableMap) (n : NamedLiteral) :
    SameOutcome (MissingIn m) (m.literal n) (m.resolve n) := by
  unfold literal resolve
  cases h : m.index? n.name with
  | some v => exact .ok _
  | none =>
    refine .error (.intro ?_)
    rw [← index?_isSome_iff, h]
    exact Bool.false_ne_true

/-! ## Renumbering -/

/-- A clause is renumbered as its row of named literals is looked up. -/
theorem Assignment.sameOutcome_reindex {c : Clause} {old : VariableMap} {row : List NamedLiteral}
    (h : List.Forall₂ (fun lit n => old.named lit = .ok n) c.literals row) (new : VariableMap) :
    SameOutcome (MissingIn new) (c.reindex old new) (Assignment.mk <$> row.mapM new.resolve) := by
  refine .map Assignment.mk (.mapM (h.imp ?_))
  intro lit n hn
  rw [hn]
  exact new.sameOutcome_literal n

namespace ClauseList

variable {l : ClauseList} {f : Formula} {rows : List (List NamedLiteral)}

/-- Renumbering a list ends as converting the formula of its rows does. -/
theorem sameOutcome_reindex (h : l.named = .ok rows) (new : VariableMap) :
    SameOutcome (MissingIn new) (l.reindex new) ((formulaOfNamed rows).convert (some new)) := by
  obtain ⟨old, hold, hrows⟩ := named_eq_ok_iff.1 h
  rw [reindex, requireMap, hold, Formula.convert, Option.getD_some, Formula.toClauseList,
    Formula.namedClauses_formulaOfNamed]
  have hclauses := SameOutcome.mapM (hrows.imp fun c row hrow =>
    Assignment.sameOutcome_reindex hrow new)
  exact hclauses.bind fun clauses => .ok (ClauseList.mk clauses (some new))

theorem toFormula_eq_ok_iff : l.toFormula = .ok f ↔
    ∃ rows, l.named = .ok rows ∧ formulaOfNamed rows = f := by
  rw [toFormula, map_eq_ok_iff]

/-- Under its own numbering, the formula of a list is converted back to the list. -/
theorem convert_of_named {own : VariableMap} (hown : l.variableMap = some own)
    (h : l.named = .ok rows) : (formulaOfNamed rows).convert (some own) = .ok l :=
  Formula.toClauseList_eq_ok_iff.2 ⟨hown, by rw [Formula.namedClauses_formulaOfNamed, h]⟩

end ClauseList

/-! ## Formulas of clause lists -/

namespace Formula

/-- A conjunction of disjunctions of literals. -/
inductive IsLiteralCnf : Formula → Prop where
  | intro {fs : List Formula} :
      (∀ f ∈ fs, ∃ gs, f = .or gs ∧ ∀ g ∈ gs, g.isLiteral = true) → IsLiteralCnf (.and fs)

theorem isLiteral_iff {f : Formula} : f.isLiteral = true ↔ ∃ l, f = .literal l := by
  cases f <;> simp [isLiteral]

/-- The conjunctions of disjunctions of literals are the formulas made of rows of literals. -/
theorem isLiteralCnf_iff {f : Formula} :
    f.IsLiteralCnf ↔ ∃ rows, f = ClauseList.formulaOfNamed rows := by
  refine ⟨?_, ?_⟩
  · rintro @⟨fs, h⟩
    have hrow : ∀ f ∈ fs, ∃ row : List NamedLiteral, f = .or (row.map .literal) := by
      intro f hf
      obtain ⟨gs, rfl, hgs⟩ := h f hf
      obtain ⟨row, hrow⟩ := exists_forall₂ fun g hg => isLiteral_iff.1 (hgs g hg)
      rw [← List.forall₂_map_right_iff, List.forall₂_eq_eq_eq] at hrow
      exact ⟨row, congrArg Formula.or hrow⟩
    obtain ⟨rows, hrows⟩ := exists_forall₂ hrow
    rw [← List.forall₂_map_right_iff, List.forall₂_eq_eq_eq] at hrows
    exact ⟨rows, congrArg Formula.and hrows⟩
  · rintro ⟨rows, rfl⟩
    refine .intro fun f hf => ?_
    obtain ⟨row, -, rfl⟩ := List.mem_map.1 hf
    refine ⟨_, rfl, fun g hg => ?_⟩
    obtain ⟨n, -, rfl⟩ := List.mem_map.1 hg
    rfl

/-- The names of such a formula are those of its rows. -/
theorem mem_variableNames_formulaOfNamed {rows : List (List NamedLiteral)} {name : String} :
    name ∈ (ClauseList.formulaOfNamed rows).variableNames ↔
      ∃ row ∈ rows, ∃ n ∈ row, n.name = name := by
  simp [variableNames, ClauseList.formulaOfNamed, literalNames, literalNamesList_eq_flatMap,
    eq_comm]

/-- The formula of a converted conjunction of disjunctions of literals is that formula. -/
theorem exists_convert_toFormula {m : VariableMap} {rows : List (List NamedLiteral)}
    (h : ∀ row ∈ rows, ∀ n ∈ row, n.name ∈ m.names) :
    ∃ l, (ClauseList.formulaOfNamed rows).convert (some m) = .ok l ∧
      l.toFormula = .ok (ClauseList.formulaOfNamed rows) := by
  rw [← namedClauses_formulaOfNamed rows] at h
  obtain ⟨l, hl⟩ := exists_toClauseList h
  have hnamed := (toClauseList_eq_ok_iff.1 hl).2
  rw [namedClauses_formulaOfNamed] at hnamed
  exact ⟨l, hl, ClauseList.toFormula_eq_ok_iff.2 ⟨rows, hnamed, rfl⟩⟩

/-- Converting the formula of a list under a numbering renumbers the list: either both give one list
with that numbering, or both fail and name one name that the numbering does not have. Under the
list's own numbering the list comes back. Conversely, a conjunction of disjunctions of literals
whose names are all numbered is converted to a list whose formula it is. -/
theorem convert_toFormula (new : VariableMap) :
    (∀ (l : ClauseList) (f : Formula), l.toFormula = .ok f →
      ((∃ k, k.variableMap = some new ∧ f.convert (some new) = .ok k ∧ l.reindex new = .ok k) ∨
        ∃ name, name ∉ new.names ∧ f.convert (some new) = .error (.unmapped name) ∧
          l.reindex new = .error (.unknownName name)) ∧
      (l.variableMap = some new → f.convert (some new) = .ok l)) ∧
    ∀ f : Formula, f.IsLiteralCnf → (∀ name ∈ f.variableNames, name ∈ new.names) →
      ∃ k, f.convert (some new) = .ok k ∧ k.toFormula = .ok f := by
  refine ⟨?_, ?_⟩
  · intro l f h
    obtain ⟨rows, hrows, rfl⟩ := ClauseList.toFormula_eq_ok_iff.1 h
    refine ⟨?_, fun hown => ClauseList.convert_of_named hown hrows⟩
    have houtcome := ClauseList.sameOutcome_reindex hrows new
    generalize hreindex : l.reindex new = direct at houtcome
    generalize hconvert : (ClauseList.formulaOfNamed rows).convert (some new) = converted
      at houtcome
    cases houtcome with
    | ok k =>
      refine .inl ⟨k, ?_, rfl, rfl⟩
      exact (toClauseList_eq_ok_iff.1 hconvert).1
    | error hmissing =>
      obtain ⟨hname⟩ := hmissing
      exact .inr ⟨_, hname, rfl, rfl⟩
  · intro f hf hnames
    obtain ⟨rows, rfl⟩ := isLiteralCnf_iff.1 hf
    refine exists_convert_toFormula fun row hrow n hn => ?_
    exact hnames n.name (mem_variableNames_formulaOfNamed.2 ⟨row, hrow, n, hn, rfl⟩)

/-- A list with an empty clause and one that repeats and contradicts a literal, under a numbering
that has all its names and under one that lacks the second name. -/
theorem convert_toFormula_contradictory :
    ∃ (l k : ClauseList) (f : Formula) (m n : VariableMap),
      l.clauses.map (·.literals.map Literal.toInt) = [[1, -2], [], [2, -2, 2]] ∧
      k.clauses.map (·.literals.map Literal.toInt) = [[3, -1], [], [1, -1, 1]] ∧
      m.names = ["b", "c", "a"] ∧ n.names = ["a"] ∧ l.toFormula = .ok f ∧
      f.convert (some m) = .ok k ∧ l.reindex m = .ok k ∧
      f.convert (some n) = .error (.unmapped "b") ∧ l.reindex n = .error (.unknownName "b") := by
  let x : Variable := ⟨1, by decide, by decide⟩
  let y : Variable := ⟨2, by decide, by decide⟩
  let z : Variable := ⟨3, by decide, by decide⟩
  let l : ClauseList :=
    { clauses := [⟨[.ofVar x true, .ofVar y false]⟩, ⟨[]⟩,
        ⟨[.ofVar y true, .ofVar y false, .ofVar y true]⟩]
      variableMap := some ⟨["a", "b"], by decide, by decide⟩ }
  let m : VariableMap := ⟨["b", "c", "a"], by decide, by decide⟩
  let n : VariableMap := ⟨["a"], by decide, by decide⟩
  let k : ClauseList :=
    { clauses := [⟨[.ofVar z true, .ofVar x false]⟩, ⟨[]⟩,
        ⟨[.ofVar x true, .ofVar x false, .ofVar x true]⟩]
      variableMap := some m }
  let f : Formula := .and [.or [.literal ⟨"a", true⟩, .literal ⟨"b", false⟩], .or [],
    .or [.literal ⟨"b", true⟩, .literal ⟨"b", false⟩, .literal ⟨"b", true⟩]]
  have hf : l.toFormula = .ok f := by rfl
  have hm : f.convert (some m) = .ok k := by rfl
  have hn : f.convert (some n) = .error (.unmapped "b") := by rfl
  refine ⟨l, k, f, m, n, by decide, by decide, rfl, rfl, hf, hm, ?_, hn, ?_⟩
  · rcases ((convert_toFormula m).1 l f hf).1 with ⟨k', -, hk', hreindex⟩ | ⟨name, -, herror, -⟩
    · rw [hm] at hk'
      exact Except.ok.inj hk' ▸ hreindex
    · rw [hm] at herror
      cases herror
  · rcases ((convert_toFormula n).1 l f hf).1 with ⟨k', -, hk', -⟩ | ⟨name, -, herror, hreindex⟩
    · rw [hn] at hk'
      cases hk'
    · rw [hn] at herror
      cases herror
      exact hreindex

end Formula

end Clausal
