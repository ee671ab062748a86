/-
  Clausal.Proofs.Extraction.Meaning

  Conversion keeps the truth value. A formula is the conjunction of its conjuncts
  (`Formula.eval_iff_conjuncts`); a conjunct that is a literal or a disjunction of literals and
  constants is true exactly when the clause taken from it has a true literal, and when no clause is
  taken from it (`Formula.eval_iff_clauseLiterals?`). What remains is to replace names by variables,
  which leaves the truth value of each literal alone.
-/
import Clausal.Extraction
import Clausal.Proofs.ClauseList

namespace Clausal

/-! ## Conjunctive normal form -/

namespace Formula

/-- A constant or a literal. -/
inductive IsAtom : Formula → Prop where
  | const (value : Bool) : IsAtom (.const value)
  | literal (l : NamedLiteral) : IsAtom (.literal l)

/-- A literal or a disjunction of constants and literals. -/
inductive IsClause : Formula → Prop where
  | literal (l : NamedLiteral) : IsClause (.literal l)
  | or {fs : List Formula} : (∀ f ∈ fs, f.IsAtom) → IsClause (.or fs)

/-- A constant, a clause or a conjunction of clauses. -/
inductive IsCnf : Formula → Prop where
  | const (value : Bool) : IsCnf (.const value)
  | clause {f : Formula} : f.IsClause → IsCnf f
  | and {fs : List Formula} : (∀ f ∈ fs, f.IsClause) → IsCnf (.and fs)

instance : DecidablePred IsAtom
  | .const value => .isTrue (.const value)
  | .literal l => .isTrue (.literal l)
  | .and _ | .or _ => .isFalse nofun

instance : DecidablePred IsClause
  | .literal l => .isTrue (.literal l)
  | .or fs => decidable_of_iff (∀ f ∈ fs, f.IsAtom) ⟨.or, fun | .or h => h⟩
  | .const _ | .and _ => .isFalse nofun

instance : DecidablePred IsCnf
  | .const value => .isTrue (.const value)
  | .literal l => .isTrue (.clause (.literal l))
  | .or fs => decidable_of_iff (IsClause (.or fs)) ⟨.clause, fun | .clause h => h⟩
  | .and fs => decidable_of_iff (∀ f ∈ fs, f.IsClause) ⟨.and, fun | .and h => h⟩

/-- A formula in conjunctive normal form has clauses and the constant false as conjuncts. -/
theorem IsCnf.of_mem_conjuncts {f g : Formula} (hf : f.IsCnf) (hg : g ∈ f.conjuncts) :
    g.IsClause ∨ g = .const false := by
  cases hf with
  | const value =>
    cases value with
    | true => cases hg
    | false => exact .inr (List.mem_singleton.1 hg)
  | clause hf =>
    cases hf with
    | literal l =>
      obtain rfl := List.mem_singleton.1 hg
      exact .inl (.literal l)
    | or hfs =>
      obtain rfl := List.mem_singleton.1 hg
      exact .inl (.or hfs)
  | and hfs => exact .inl (hfs g hg)

/-! ## Clauses over names -/

theorem eval_iff_conjuncts (v : String → Bool) (f : Formula) :
    f.eval v = true ↔ ∀ g ∈ f.conjuncts, g.eval v = true := by
  cases f with
  | const value => cases value <;> simp [conjuncts, eval]
  | literal l => simp [conjuncts]
  | and fs => simp [conjuncts]
  | or fs => simp [conjuncts]

/-- A clause is true when the constant true is a member or one of its literals is true. -/
theorem eval_or_iff_of_atoms (v : String → Bool) {fs : List Formula} (hfs : ∀ f ∈ fs, f.IsAtom) :
    (Formula.or fs).eval v = true ↔
      .const true ∈ fs ∨ ∃ l ∈ fs.filterMap literal?, l.holds v = true := by
  rw [eval_or, List.any_eq_true]
  simp only [List.mem_filterMap]
  refine ⟨?_, ?_⟩
  · intro h
    obtain ⟨f, hf, heval⟩ := h
    cases hfs f hf with
    | const value =>
      obtain rfl : value = true := heval
      exact .inl hf
    | literal l => exact .inr ⟨l, ⟨.literal l, hf, rfl⟩, heval⟩
  · rintro (htrue | ⟨l, ⟨f, hf, hl⟩, hholds⟩)
    · exact ⟨.const true, htrue, rfl⟩
    · cases hfs f hf with
      -- The constant false counts for nothing, since no literal is taken from it.
      | const value => cases hl
      | literal m =>
        obtain rfl := Option.some.inj hl
        exact ⟨.literal m, hf, hholds⟩

/-- A conjunct is true when no clause is taken from it or the clause has a true literal. -/
theorem eval_iff_clauseLiterals? (v : String → Bool) {f : Formula}
    (hf : f.IsClause ∨ f = .const false) :
    f.eval v = true ↔ ∀ row, f.clauseLiterals? = some row → ∃ l ∈ row, l.holds v = true := by
  rcases hf with hf | rfl
  · cases hf with
    | literal l => simp [clauseLiterals?, eval]
    | @or fs hfs =>
      rw [eval_or_iff_of_atoms v hfs]
      -- With the constant true the clause is dropped and true, without it the literals decide.
      by_cases htrue : .const true ∈ fs
      · simp [clauseLiterals?, children, htrue]
      · simp [clauseLiterals?, children, htrue]
  · simp [clauseLiterals?, children, eval]

/-- A formula is true exactly when each of its clauses over names has a true literal. -/
theorem eval_iff_namedClauses (v : String → Bool) {f : Formula} (hf : f.IsCnf) :
    f.eval v = true ↔ ∀ row ∈ f.namedClauses, ∃ l ∈ row, l.holds v = true := by
  rw [eval_iff_conjuncts]
  simp only [namedClauses, List.mem_filterMap]
  refine ⟨?_, ?_⟩
  · rintro h row ⟨g, hg, hrow⟩
    exact (eval_iff_clauseLiterals? v (hf.of_mem_conjuncts hg)).1 (h g hg) row hrow
  · intro h g hg
    refine (eval_iff_clauseLiterals? v (hf.of_mem_conjuncts hg)).2 fun row hrow => ?_
    exact h row ⟨g, hg, hrow⟩

/-! ## Clauses over variables -/

/-- Conversion yields the list that the map numbers and that reads by name as the clauses of the
formula, if there is one. -/
theorem toClauseList_eq_ok_iff {f : Formula} {m : VariableMap} {l : ClauseList} :
    f.toClauseList m = .ok l ↔ l.variableMap = some m ∧ l.named = .ok f.namedClauses := by
  obtain ⟨clauses, map⟩ := l
  have hrow : ∀ (row : List NamedLiteral) (c : Clause),
      Assignment.mk <$> row.mapM m.resolve = (.ok c : Except Failure Clause) ↔
        List.Forall₂ (fun lit n => m.named lit = .ok n) c.literals row := by
    intro row c
    simp only [← VariableMap.literal_eq_ok_iff_named, ← VariableMap.resolve_eq_ok_iff]
    rw [← forall₂_swap]
    exact Assignment.map_mk_eq_ok_iff
  -- Looking names up and reading by name are inverse, clause by clause.
  have hclauses : f.namedClauses.mapM (fun row => Assignment.mk <$> row.mapM m.resolve) =
      (.ok clauses : Except Failure (List Clause)) ↔
        (⟨clauses, some m⟩ : ClauseList).named = .ok f.namedClauses := by
    rw [mapM_eq_ok_iff, ClauseList.named_eq_ok_iff, ← forall₂_swap]
    simp only [hrow, Option.some.injEq, exists_eq_left']
  refine ClauseList.bind_mk_eq_ok_iff.trans (and_congr_right ?_)
  rintro rfl
  exact hclauses

/-- A conversion whose map has all the names that are looked up succeeds. -/
theorem exists_toClauseList {f : Formula} {m : VariableMap}
    (h : ∀ row ∈ f.namedClauses, ∀ n ∈ row, n.name ∈ m.names) :
    ∃ l, f.toClauseList m = .ok l := by
  have hrow : ∀ row ∈ f.namedClauses,
      ∃ c : Clause, List.Forall₂ (fun lit n => m.named lit = .ok n) c.literals row := by
    intro row hrow
    obtain ⟨literals, hliterals⟩ :=
      exists_forall₂ fun n hn => VariableMap.exists_named (h row hrow n hn)
    exact ⟨⟨literals⟩, forall₂_swap.1 hliterals⟩
  obtain ⟨clauses, hclauses⟩ := exists_forall₂ hrow
  exact ⟨⟨clauses, some m⟩, toClauseList_eq_ok_iff.2
    ⟨rfl, ClauseList.named_eq_ok_iff.2 ⟨m, rfl, forall₂_swap.1 hclauses⟩⟩⟩

/-- The clauses of the formula that rows of named literals make up are these rows. -/
@[simp] theorem namedClauses_formulaOfNamed (rows : List (List NamedLiteral)) :
    (ClauseList.formulaOfNamed rows).namedClauses = rows := by
  have hrow : ∀ row : List NamedLiteral,
      clauseLiterals? (.or (row.map .literal)) = some row := by
    intro row
    -- No member is a constant, so no row is dropped and every literal is kept.
    have htrue : Formula.const true ∉ row.map .literal := by simp
    have hliterals : (row.map Formula.literal).filterMap literal? = row := by
      rw [List.filterMap_map]
      exact List.filterMap_some
    simp only [clauseLiterals?, children, if_neg htrue, hliterals]
  rw [namedClauses, ClauseList.formulaOfNamed, conjuncts, List.filterMap_map]
  simp only [Function.comp_def, hrow]
  exact List.filterMap_some

/-- Converting a formula in conjunctive normal form keeps its truth value: under every choice of
values for names, the formula is true exactly when each clause has a literal whose name has the
literal's sign as its value. The clauses are numbered by the map given or else by the formula's. -/
theorem eval_iff_of_convert {f : Formula} (hf : f.IsCnf) {given : Option VariableMap}
    {l : ClauseList} (h : f.convert given = .ok l) :
    l.variableMap = some (given.getD f.variableMap) ∧
      ∀ v : String → Bool, f.eval v = true ↔ ∀ c ∈ l.clauses, ∃ lit ∈ c, ∃ name,
        (given.getD f.variableMap).name? lit.var = some name ∧ v name = lit.isPositive := by
  obtain ⟨hmap, hnamed⟩ := toClauseList_eq_ok_iff.1 h
  obtain ⟨m, hm, hclauses⟩ := ClauseList.named_eq_ok_iff.1 hnamed
  obtain rfl := Option.some.inj (hmap.symm.trans hm)
  refine ⟨hmap, fun v => ?_⟩
  rw [eval_iff_namedClauses v hf]
  refine (forall_mem_iff_of_forall₂ hclauses fun c row hrow => ?_).symm
  refine exists_mem_iff_of_forall₂ hrow fun lit n hn => ?_
  obtain ⟨hname, hsign⟩ := VariableMap.named_eq_ok_iff.1 hn
  rw [NamedLiteral.holds, beq_iff_eq, hname, hsign]
  simp

/-- A literal, an empty clause, a clause with a constant false and one with a constant true, whose
other name nothing has to number. -/
def mixed : Formula :=
  .and [.or [.literal ⟨"a", true⟩, .const false, .literal ⟨"b", false⟩],
    .or [.const true, .literal ⟨"c", true⟩], .literal ⟨"b", true⟩, .or []]

theorem eval_iff_of_convert_mixed :
    ∃ (m : VariableMap) (l : ClauseList), m.names = ["b", "a"] ∧
      mixed.convert (some m) = .ok l ∧ l.clauses.map (·.literals.map Literal.toInt) =
        [[2, -1], [1], []] ∧
      ∀ v : String → Bool, mixed.eval v = true ↔ ∀ c ∈ l.clauses, ∃ lit ∈ c, ∃ name,
        m.name? lit.var = some name ∧ v name = lit.isPositive := by
  let m : VariableMap := ⟨["b", "a"], by decide, by decide⟩
  let b : Variable := ⟨1, by decide, by decide⟩
  let a : Variable := ⟨2, by decide, by decide⟩
  let l : ClauseList :=
    ⟨[⟨[.ofVar a true, .ofVar b false]⟩, ⟨[.ofVar b true]⟩, ⟨[]⟩], some m⟩
  have hcnf : mixed.IsCnf := by decide
  have hconvert : mixed.convert (some m) = .ok l := by rfl
  exact ⟨m, l, rfl, hconvert, by decide, (eval_iff_of_convert hcnf hconvert).2⟩

end Formula

end Clausal
