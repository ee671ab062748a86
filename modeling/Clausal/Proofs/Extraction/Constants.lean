/-
  Clausal.Proofs.Extraction.Constants

  Constants as conjuncts. A conjunction is converted part by part (`Formula.convert_and_append`),
  and a constant has no members, so the clause taken from it is empty, whichever constant it is
  (`Formula.convert_and_const_cons`). For the constant false that is the right clause: no valuation
  satisfies the list. For the constant true it is not: a conjunct that is always true should
  contribute no clause, as the constant true does when it is the whole formula. A conjunction with
  the constant true is converted like the one without it only if both conversions fail
  (`Formula.convert_and_insert_true_iff`).
-/
import Clausal.Proofs.Extraction.Meaning

namespace Clausal

/-- No valuation satisfies a list with an empty clause. -/
theorem ClauseList.holds_eq_false_of_mem {l : ClauseList} (h : ⟨[]⟩ ∈ l.clauses) (v : Valuation) :
    l.holds v = false := by
  rw [Bool.eq_false_iff]
  intro hholds
  have hempty := ClauseList.holds_iff.1 hholds _ h
  cases hempty

namespace Formula

variable {xs ys : List Formula} {m : VariableMap}

/-! ## Part by part -/

/-- The clauses of a conjunction are those of its first conjuncts, then those of the others. -/
theorem convert_and_append (xs ys : List Formula) (m : VariableMap) :
    (Formula.and (xs ++ ys)).convert (some m) = (do
      let l ← (Formula.and xs).convert (some m)
      let k ← (Formula.and ys).convert (some m)
      return ⟨l.clauses ++ k.clauses, some m⟩) := by
  simp [convert, toClauseList, namedClauses, conjuncts, List.filterMap_append]

/-- A constant in front adds an empty clause in front. -/
theorem convert_and_const_cons (value : Bool) (ys : List Formula) (m : VariableMap) :
    (Formula.and (.const value :: ys)).convert (some m) =
      (fun k => ⟨⟨[]⟩ :: k.clauses, some m⟩) <$> (Formula.and ys).convert (some m) := by
  simp [convert, toClauseList, namedClauses, conjuncts, clauseLiterals?, children]

/-! ## A constant among the conjuncts -/

/-- A constant among the conjuncts leaves a failure alone and otherwise adds an empty clause at its
place. -/
theorem convert_and_insert_cases (value : Bool) (xs ys : List Formula) (m : VariableMap) :
    (∃ e, (Formula.and (xs ++ ys)).convert (some m) = .error e ∧
      (Formula.and (xs ++ .const value :: ys)).convert (some m) = .error e) ∨
    ∃ before after, (Formula.and xs).convert (some m) = .ok ⟨before, some m⟩ ∧
      (Formula.and (xs ++ ys)).convert (some m) = .ok ⟨before ++ after, some m⟩ ∧
      (Formula.and (xs ++ .const value :: ys)).convert (some m) =
        .ok ⟨before ++ ⟨[]⟩ :: after, some m⟩ := by
  rw [convert_and_append, convert_and_append, convert_and_const_cons]
  cases hxs : (Formula.and xs).convert (some m) with
  | error e => exact .inl ⟨e, rfl, rfl⟩
  | ok l =>
    obtain ⟨before, own⟩ := l
    obtain rfl : own = some m := (toClauseList_eq_ok_iff.1 hxs).1
    cases (Formula.and ys).convert (some m) with
    | error e => exact .inl ⟨e, rfl, rfl⟩
    | ok k => exact .inr ⟨before, k.clauses, rfl, rfl, rfl⟩

/-- The constant true among the conjuncts makes no difference only to a failure. -/
theorem convert_and_insert_true_iff :
    (Formula.and (xs ++ .const true :: ys)).convert (some m) =
        (Formula.and (xs ++ ys)).convert (some m) ↔
      ∃ e, (Formula.and (xs ++ ys)).convert (some m) = .error e := by
  rcases convert_and_insert_cases true xs ys m with ⟨e, hwithout, hwith⟩ |
    ⟨before, after, -, hwithout, hwith⟩
  · rw [hwith, hwithout]
    exact ⟨fun _ => ⟨e, rfl⟩, fun _ => rfl⟩
  · -- Two lists of different lengths.
    rw [hwith, hwithout]
    simp

/-- No valuation satisfies a conjunction with a constant among the conjuncts. -/
theorem holds_of_convert_and_insert {value : Bool} {l : ClauseList}
    (h : (Formula.and (xs ++ .const value :: ys)).convert (some m) = .ok l) (v : Valuation) :
    l.holds v = false := by
  rcases convert_and_insert_cases value xs ys m with ⟨e, -, hwith⟩ | ⟨before, after, -, -, hwith⟩
  · rw [hwith] at h
    cases h
  · rw [hwith] at h
    cases h
    exact ClauseList.holds_eq_false_of_mem (List.mem_append_right _ List.mem_cons_self) v

/-- A constant among the conjuncts leaves every failure alone and otherwise adds an empty clause at
its place, so no valuation satisfies the result. This is right for the constant false. With the
constant true, the result is that of the other conjuncts exactly when these cannot be converted. -/
theorem convert_and_insert_const (xs ys : List Formula) (m : VariableMap) :
    (∀ value, (∃ e, (Formula.and (xs ++ ys)).convert (some m) = .error e ∧
        (Formula.and (xs ++ .const value :: ys)).convert (some m) = .error e) ∨
      ∃ before after, (Formula.and xs).convert (some m) = .ok ⟨before, some m⟩ ∧
        (Formula.and (xs ++ ys)).convert (some m) = .ok ⟨before ++ after, some m⟩ ∧
        (Formula.and (xs ++ .const value :: ys)).convert (some m) =
          .ok ⟨before ++ ⟨[]⟩ :: after, some m⟩) ∧
    (∀ l, (Formula.and (xs ++ .const false :: ys)).convert (some m) = .ok l →
      ∀ v, l.holds v = false) ∧
    ((Formula.and (xs ++ .const true :: ys)).convert (some m) =
        (Formula.and (xs ++ ys)).convert (some m) ↔
      ∃ e, (Formula.and (xs ++ ys)).convert (some m) = .error e) :=
  ⟨fun value => convert_and_insert_cases value xs ys m, fun _ h => holds_of_convert_and_insert h,
    convert_and_insert_true_iff⟩

/-- A literal and a disjunction with one name more, which is known or not. -/
theorem convert_and_insert_const_between :
    ∃ (m n : VariableMap) (l : ClauseList), m.names = ["a", "b"] ∧ n.names = ["a"] ∧
      l.clauses.map (·.literals.map Literal.toInt) = [[1], [], [-2, 1]] ∧
      (Formula.and [.literal ⟨"a", true⟩, .const false,
        .or [.literal ⟨"b", false⟩, .literal ⟨"a", true⟩]]).convert (some m) = .ok l ∧
      (∀ v, l.holds v = false) ∧
      (Formula.and [.literal ⟨"a", true⟩, .const true,
        .or [.literal ⟨"b", false⟩, .literal ⟨"a", true⟩]]).convert (some n) =
        .error (.unmapped "b") := by
  let m : VariableMap := ⟨["a", "b"], by decide, by decide⟩
  let n : VariableMap := ⟨["a"], by decide, by decide⟩
  let a : Variable := ⟨1, by decide, by decide⟩
  let b : Variable := ⟨2, by decide, by decide⟩
  let l : ClauseList :=
    ⟨[⟨[.ofVar a true]⟩, ⟨[]⟩, ⟨[.ofVar b false, .ofVar a true]⟩], some m⟩
  let xs : List Formula := [.literal ⟨"a", true⟩]
  let ys : List Formula := [.or [.literal ⟨"b", false⟩, .literal ⟨"a", true⟩]]
  have hl : (Formula.and (xs ++ .const false :: ys)).convert (some m) = .ok l := by rfl
  have hn : (Formula.and (xs ++ ys)).convert (some n) = .error (.unmapped "b") := by rfl
  obtain ⟨-, hfalse, -⟩ := convert_and_insert_const xs ys m
  obtain ⟨-, -, htrue⟩ := convert_and_insert_const xs ys n
  exact ⟨m, n, l, rfl, rfl, by decide, hl, hfalse l hl, (htrue.2 ⟨_, hn⟩).trans hn⟩

/-- The constant true beside a satisfiable conjunct leaves nothing satisfiable. -/
theorem convert_and_insert_true_ne :
    ∃ (m : VariableMap) (l k : ClauseList), m.names = ["a"] ∧
      (Formula.and [.literal ⟨"a", true⟩]).convert (some m) = .ok l ∧
      (Formula.and [.literal ⟨"a", true⟩, .const true]).convert (some m) = .ok k ∧ l ≠ k ∧
      ∃ v, l.holds v = true ∧ k.holds v = false := by
  let m : VariableMap := ⟨["a"], by decide, by decide⟩
  let a : Literal := .ofVar ⟨1, by decide, by decide⟩ true
  exact ⟨m, ⟨[⟨[a]⟩], some m⟩, ⟨[⟨[a]⟩, ⟨[]⟩], some m⟩, rfl, rfl, rfl, by decide,
    fun _ => true, by decide, by decide⟩

end Formula

end Clausal
