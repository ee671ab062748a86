/-
  Clausal.Proofs.ClauseList.Coverage

  Three ways lead from a clause list to names: its formula, its clauses as value assignments, and
  its renumbered form. Each of them goes through all literals in order and needs a name for each, so
  a list that mentions a variable beyond its numbering has none of them.

  The formula and the value assignments are made of the rows of the list (`toValue_eq_map_named`),
  so they fail where reading by name does, which is the first literal beyond the numbering
  (`failureOf?_named`). Renumbering looks each name up before it reads the next literal. If the
  other numbering lacks no name, it fails at the same literal (`failureOf?_reindex`).
-/
import Clausal.Proofs.Assignment.ThroughNames
import Clausal.Proofs.Extraction.Renumbering

namespace Clausal

variable {m n : VariableMap}

/-! ## Literals -/

namespace VariableMap

theorem failureOf?_named (m : VariableMap) (x : Literal) :
    failureOf? (m.named x) = (Option.guard (m.size < ·.var.index) x).map .unknownIndex := by
  unfold named
  cases h : m.name? x.var with
  | some name =>
    have hle : ¬m.size < x.var.index := by
      rw [← name?_eq_none_iff, h]
      exact Option.some_ne_none name
    simp [failureOf?, Option.guard, hle]
  | none =>
    have hlt : m.size < x.var.index := name?_eq_none_iff.1 h
    simp [failureOf?, Option.guard, hlt]

/-- Reading literals by name fails at the first one beyond the numbering. -/
theorem failureOf?_mapM_named (m : VariableMap) (xs : List Literal) :
    failureOf? (xs.mapM m.named) = (xs.find? (m.size < ·.var.index)).map .unknownIndex := by
  rw [failureOf?_mapM, List.find?_eq_findSome?_guard, List.map_findSome?]
  exact congrArg (xs.findSome? ·) (funext m.failureOf?_named)

end VariableMap

/-- If no name is missing, a literal can be renumbered as soon as it has a name. -/
theorem Literal.failureOf?_reindex (hnames : ∀ name ∈ m.names, name ∈ n.names) (x : Literal) :
    failureOf? (x.reindex m n) = failureOf? (m.named x) := by
  rw [reindex]
  cases h : m.named x with
  | error p => rfl
  | ok e =>
    obtain ⟨hname, -⟩ := VariableMap.named_eq_ok_iff.1 h
    have hcarries : x.CarriesOver m n :=
      ⟨e.name, hname, hnames e.name (VariableMap.mem_names_iff.2 ⟨x.var, hname⟩)⟩
    obtain ⟨y, hy⟩ := exists_reindex_iff.2 hcarries
    rw [reindex, h] at hy
    rw [hy]
    rfl

namespace ClauseList

variable {l k : ClauseList}

/-! ## The first literal beyond a numbering -/

/-- The first literal, clause after clause, whose index is above a number. -/
def firstAbove? (l : ClauseList) (size : Nat) : Option Literal :=
  (l.clauses.flatMap (·.literals)).find? (size < ·.var.index)

theorem firstAbove?_eq_none_iff {size : Nat} :
    l.firstAbove? size = none ↔ ∀ c ∈ l.clauses, ∀ x ∈ c, x.var.index ≤ size := by
  simp only [firstAbove?, List.find?_eq_none, List.mem_flatMap, decide_eq_true_eq, Nat.not_lt]
  exact ⟨fun h c hc x hx => h x ⟨c, hc, hx⟩, fun h x ⟨c, hc, hx⟩ => h c hc x hx⟩

/-! ## Failures -/

/-- The clauses as value assignments are the rows of the list with each name once. -/
theorem toValue_eq_map_named (l : ClauseList) :
    l.toValue = List.map ValueAssignment.ofList <$> l.named := by
  rw [toValue, named]
  cases l.requireMap with
  | error p => rfl
  | ok m => exact mapM_map_result ..

theorem failureOf?_toFormula (l : ClauseList) : failureOf? l.toFormula = failureOf? l.named :=
  failureOf?_map ..

theorem failureOf?_toValue (l : ClauseList) : failureOf? l.toValue = failureOf? l.named := by
  rw [toValue_eq_map_named, failureOf?_map]

section Numbered

variable (h : l.variableMap = some m)
include h

/-- Reading a list by name fails at its first literal beyond the numbering. -/
theorem failureOf?_named : failureOf? l.named = (l.firstAbove? m.size).map .unknownIndex := by
  rw [named, requireMap, h, firstAbove?, List.find?_flatMap, List.map_findSome?]
  show failureOf? (l.clauses.mapM fun c => c.literals.mapM m.named) = _
  rw [failureOf?_mapM]
  exact congrArg (l.clauses.findSome? ·) (funext fun c => m.failureOf?_mapM_named c.literals)

theorem failureOf?_named_eq_none_iff :
    failureOf? l.named = none ↔ ∀ c ∈ l.clauses, ∀ x ∈ c, x.var.index ≤ m.size := by
  rw [failureOf?_named h, Option.map_eq_none_iff, firstAbove?_eq_none_iff]

/-- If no name is missing, renumbering fails where reading by name does. -/
theorem failureOf?_reindex (hnames : ∀ name ∈ m.names, name ∈ n.names) :
    failureOf? (l.reindex n) = failureOf? l.named := by
  rw [reindex_eq_map_mapM h, failureOf?_map, named, requireMap, h]
  show _ = failureOf? (l.clauses.mapM fun c => c.literals.mapM m.named)
  simp only [failureOf?_mapM, Assignment.reindex_eq_map_mapM, failureOf?_map,
    Literal.failureOf?_reindex hnames]

/-- A list and its renumbered form have the same rows. -/
theorem named_of_reindex (hk : l.reindex n = .ok k) : k.named = l.named := by
  obtain ⟨hn, hclauses⟩ := (reindex_eq_ok_iff h).1 hk
  obtain ⟨rows, hrows, hrows'⟩ := exists_common_of_forall₂
    (hclauses.imp fun _ _ => Assignment.exists_reading_of_reindex)
  rw [named_eq_ok_iff.2 ⟨m, h, hrows⟩, named_eq_ok_iff.2 ⟨n, hn, hrows'⟩]

end Numbered

/-! ## All ways together -/

/-- Without a numbering there is no way out. -/
theorem error_of_none (h : l.variableMap = none) :
    l.toFormula = .error .missingMap ∧ l.toValue = .error .missingMap ∧
      ∀ n, l.reindex n = .error .missingMap := by
  have hnamed : l.named = .error .missingMap := by
    rw [named, requireMap, h]
    rfl
  refine ⟨?_, ?_, reindex_of_none h⟩
  · rw [toFormula, hnamed]
    rfl
  · rw [toValue_eq_map_named, hnamed]
    rfl

section Together

variable (h : l.variableMap = some m) (hnames : ∀ name ∈ m.names, name ∈ n.names)
include h hnames

/-- All ways succeed exactly if the numbering covers the list. -/
theorem exists_ok_iff_covered :
    (∃ f vs k, l.toFormula = .ok f ∧ l.toValue = .ok vs ∧ l.reindex n = .ok k) ↔
      ∀ c ∈ l.clauses, ∀ x ∈ c, x.var.index ≤ m.size := by
  rw [← failureOf?_named_eq_none_iff h]
  constructor
  · rintro ⟨f, -, -, hf, -⟩
    rw [← failureOf?_toFormula, ← exists_eq_ok_iff_failureOf?]
    exact ⟨f, hf⟩
  · intro hnone
    obtain ⟨f, hf⟩ := exists_eq_ok_iff_failureOf?.2 ((failureOf?_toFormula l).trans hnone)
    obtain ⟨vs, hvs⟩ := exists_eq_ok_iff_failureOf?.2 ((failureOf?_toValue l).trans hnone)
    obtain ⟨k, hk⟩ := exists_eq_ok_iff_failureOf?.2 ((failureOf?_reindex h hnames).trans hnone)
    exact ⟨f, vs, k, hf, hvs, hk⟩

/-- All ways fail at the first literal beyond the numbering. -/
theorem error_of_firstAbove? {x : Literal} (hx : l.firstAbove? m.size = some x) :
    l.toFormula = .error (.unknownIndex x) ∧ l.toValue = .error (.unknownIndex x) ∧
      l.reindex n = .error (.unknownIndex x) := by
  have hnamed : failureOf? l.named = some (.unknownIndex x) := by
    rw [failureOf?_named h, hx, Option.map_some]
  simp only [eq_error_iff_failureOf?]
  exact ⟨(failureOf?_toFormula l).trans hnamed, (failureOf?_toValue l).trans hnamed,
    (failureOf?_reindex h hnames).trans hnamed⟩

end Together

/-- The formula of a list, its clauses as value assignments and its renumbered form are there
together or not at all. Without a numbering there is none of them. If the other numbering has all
names, they are there exactly if no index of a literal is above the number of names; otherwise all
three fail at the first literal, clause after clause, whose index is. Whenever they are there, they
have the same rows: the formula is the conjunction of their disjunctions, each value assignment has
the names of its row once, and the renumbered list reads as the list does, clause by clause and
literal by literal. -/
theorem ways_out_end_together (l : ClauseList) :
    (l.variableMap = none → l.toFormula = .error .missingMap ∧ l.toValue = .error .missingMap ∧
      ∀ n, l.reindex n = .error .missingMap) ∧
    ∀ m n, l.variableMap = some m → (∀ name ∈ m.names, name ∈ n.names) →
      ((∃ f vs k, l.toFormula = .ok f ∧ l.toValue = .ok vs ∧ l.reindex n = .ok k) ↔
        ∀ c ∈ l.clauses, ∀ x ∈ c, x.var.index ≤ m.size) ∧
      ((¬∀ c ∈ l.clauses, ∀ x ∈ c, x.var.index ≤ m.size) → ∃ x, l.firstAbove? m.size = some x ∧
        l.toFormula = .error (.unknownIndex x) ∧ l.toValue = .error (.unknownIndex x) ∧
        l.reindex n = .error (.unknownIndex x)) ∧
      ∀ f vs k, l.toFormula = .ok f → l.toValue = .ok vs → l.reindex n = .ok k →
        k.variableMap = some n ∧ ∃ rows : List (List NamedLiteral),
          f = .and (rows.map fun row => .or (row.map .literal)) ∧
          vs = rows.map ValueAssignment.ofList ∧
          List.Forall₂ (fun c row => List.Forall₂ (fun x e => m.named x = .ok e) c.literals row)
            l.clauses rows ∧
          List.Forall₂ (fun c row => List.Forall₂ (fun x e => n.named x = .ok e) c.literals row)
            k.clauses rows := by
  refine ⟨error_of_none, ?_⟩
  intro m n h hnames
  refine ⟨exists_ok_iff_covered h hnames, ?_, ?_⟩
  · intro hbeyond
    rw [← firstAbove?_eq_none_iff] at hbeyond
    obtain ⟨x, hx⟩ := Option.ne_none_iff_exists'.1 hbeyond
    exact ⟨x, hx, error_of_firstAbove? h hnames hx⟩
  · intro f vs k hf hvs hk
    obtain ⟨rows, hrows, rfl⟩ := toFormula_eq_ok_iff.1 hf
    obtain ⟨hn, -⟩ := (reindex_eq_ok_iff h).1 hk
    have hrows' : k.named = .ok rows := (named_of_reindex h hk).trans hrows
    rw [toValue_eq_map_named, hrows] at hvs
    exact ⟨hn, rows, rfl, (Except.ok.inj hvs).symm, forall₂_of_named h hrows,
      forall₂_of_named hn hrows'⟩

/-- Under three names, all of which the other numbering has in other places: a list with an empty
clause and a repeated literal, and a list with two literals beyond, the first one of which is
negative. And the empty list without numbering. -/
theorem ways_out_end_together_partly :
    ∃ (m n : VariableMap) (l k stuck : ClauseList) (x : Literal),
      m.names = ["a", "b", "c"] ∧ n.names = ["c", "d", "a", "b"] ∧
      (∀ name ∈ m.names, name ∈ n.names) ∧ l.variableMap = some m ∧
      l.clauses.map (·.literals.map Literal.toInt) = [[2, -3], [], [1, 1]] ∧
      l.toFormula = .ok (.and [.or [.literal ⟨"b", true⟩, .literal ⟨"c", false⟩], .or [],
        .or [.literal ⟨"a", true⟩, .literal ⟨"a", true⟩]]) ∧
      (∃ vs, l.toValue = .ok vs ∧
        vs.map (·.render) = ["ValueClause[b, -c]", "ValueClause[]", "ValueClause[a]"]) ∧
      l.reindex n = .ok k ∧ k.variableMap = some n ∧
      k.clauses.map (·.literals.map Literal.toInt) = [[4, -1], [], [3, 3]] ∧
      stuck.variableMap = some m ∧
      stuck.clauses.map (·.literals.map Literal.toInt) = [[], [2, -4, 1], [5]] ∧ x.toInt = -4 ∧
      stuck.toFormula = .error (.unknownIndex x) ∧ stuck.toValue = .error (.unknownIndex x) ∧
      stuck.reindex n = .error (.unknownIndex x) ∧
      (ClauseList.mk [] none).toFormula = .error .missingMap := by
  let u : Variable := ⟨1, by decide, by decide⟩
  let v : Variable := ⟨2, by decide, by decide⟩
  let w : Variable := ⟨3, by decide, by decide⟩
  let y : Variable := ⟨4, by decide, by decide⟩
  let z : Variable := ⟨5, by decide, by decide⟩
  let m : VariableMap := ⟨["a", "b", "c"], by decide, by decide⟩
  let n : VariableMap := ⟨["c", "d", "a", "b"], by decide, by decide⟩
  let l : ClauseList :=
    { clauses := [⟨[.ofVar v true, .ofVar w false]⟩, ⟨[]⟩, ⟨[.ofVar u true, .ofVar u true]⟩]
      variableMap := some m }
  let k : ClauseList :=
    { clauses := [⟨[.ofVar y true, .ofVar u false]⟩, ⟨[]⟩, ⟨[.ofVar w true, .ofVar w true]⟩]
      variableMap := some n }
  let x : Literal := .ofVar y false
  let stuck : ClauseList :=
    { clauses := [⟨[]⟩, ⟨[.ofVar v true, x, .ofVar u true]⟩, ⟨[.ofVar z true]⟩]
      variableMap := some m }
  have hnames : ∀ name ∈ m.names, name ∈ n.names := by decide
  have hcovered : l.firstAbove? m.size = none := by decide
  have hfirst : stuck.firstAbove? m.size = some x := by decide
  have hformula : l.toFormula = .ok (.and [.or [.literal ⟨"b", true⟩, .literal ⟨"c", false⟩],
      .or [], .or [.literal ⟨"a", true⟩, .literal ⟨"a", true⟩]]) := by rfl
  have hk : l.reindex n = .ok k := by rfl
  obtain ⟨hsuccess, -, hresults⟩ := (ways_out_end_together l).2 m n rfl hnames
  obtain ⟨-, vs, -, -, hvs, -⟩ := hsuccess.2 (firstAbove?_eq_none_iff.1 hcovered)
  obtain ⟨hn, -⟩ := hresults _ vs k hformula hvs hk
  have hbeyond : ¬∀ c ∈ stuck.clauses, ∀ x ∈ c, x.var.index ≤ m.size := by
    rw [← firstAbove?_eq_none_iff, hfirst]
    exact Option.some_ne_none x
  obtain ⟨-, hfailure, -⟩ := (ways_out_end_together stuck).2 m n rfl hnames
  obtain ⟨x', hx', hstuckFormula, hstuckValue, hstuckReindex⟩ := hfailure hbeyond
  obtain rfl : x = x' := Option.some.inj (hfirst.symm.trans hx')
  obtain ⟨hnone, -, -⟩ := (ways_out_end_together ⟨[], none⟩).1 rfl
  exact ⟨m, n, l, k, stuck, x, rfl, rfl, hnames, rfl, by decide, hformula, ⟨_, rfl, by decide⟩, hk,
    hn, by decide, rfl, by decide, by decide, hstuckFormula, hstuckValue, hstuckReindex, hnone⟩

end ClauseList

end Clausal
