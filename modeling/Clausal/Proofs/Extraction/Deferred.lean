/-
  Clausal.Proofs.Extraction.Deferred

  Conversions whose inputs are computed first. Formula and map are the two sides of a join, so both
  are executed whatever comes of the other one, and a conversion follows only if both have a value.
  Up to three things can go wrong, several of them at once: the formula fails, the map fails, or the
  map lacks a name (`failures`). The one that is reported comes first in this order, whichever side
  was executed first (`ConvertsWith.failureOf?_eq`).

  A map taken from the formula is no input of its own, so the formula is all that is executed before
  such a conversion (`Converts`).
-/
import Clausal.Extraction.Deferred
import Clausal.Proofs.Computation.Calls
import Clausal.Proofs.Extraction.Lookup

namespace Clausal

/-! ## The name that is missing -/

namespace Formula

/-- The name of the first relevant literal whose name the map lacks. -/
def firstMissing? (f : Formula) (m : VariableMap) : Option String :=
  (f.relevantLiterals.map NamedLiteral.name).find? (· ∉ m.names)

/-- All that can go wrong in a conversion is that a name is missing. -/
theorem failureOf?_convert (f : Formula) (m : VariableMap) :
    failureOf? (f.convert (some m)) = (f.firstMissing? m).map .unmapped := by
  apply Option.ext
  intro e
  rw [← eq_error_iff_failureOf?, convert_eq_error_iff, firstMissing?, List.find?_map,
    Option.map_map, Option.map_eq_some_iff]
  simp only [List.find?_eq_some_iff_append]
  constructor
  · rintro ⟨before, n, after, hsplit, hbefore, hn, rfl⟩
    refine ⟨n, ⟨by simpa using hn, before, after, hsplit, ?_⟩, rfl⟩
    intro k hk
    simpa using hbefore k hk
  · rintro ⟨n, ⟨hn, before, after, hsplit, hbefore⟩, rfl⟩
    refine ⟨before, n, after, hsplit, ?_, by simpa using hn, rfl⟩
    intro k hk
    simpa using hbefore k hk

end Formula

namespace Extraction

variable {ι : Type} {label : ι} {formula : Computation ι Failure Formula}
  {variableMap : Computation ι Failure VariableMap} {p : Outcome ι Failure Formula}
  {q : Outcome ι Failure VariableMap} {o : Outcome ι Failure ClauseList}

/-! ## Outcomes -/

/-- The outcome of a conversion from an outcome of its formula, with the map of that formula. -/
structure Converts (label : ι) (p : Outcome ι Failure Formula) (o : Outcome ι Failure ClauseList) :
    Prop where
  /-- The conversion comes after everything else, and only if there is a formula. -/
  trace_eq : o.trace = p.trace ++ if p.result.isOk then [label] else []
  of_error : ∀ e, p.result = .error e → o.result = .error e
  of_ok : ∀ f, p.result = .ok f → o.result = f.convert none

/-- The outcome of a conversion from an outcome of its formula and one of its map. -/
structure ConvertsWith (label : ι) (p : Outcome ι Failure Formula)
    (q : Outcome ι Failure VariableMap) (o : Outcome ι Failure ClauseList) : Prop where
  /-- The conversion comes after everything else, and only if there are formula and map. -/
  trace_eq : ∃ inputs, Interleaving p.trace q.trace inputs ∧
    o.trace = inputs ++ if p.result.isOk && q.result.isOk then [label] else []
  of_formula_error : ∀ e, p.result = .error e → o.result = .error e
  of_map_error : ∀ f e, p.result = .ok f → q.result = .error e → o.result = .error e
  of_ok : ∀ f m, p.result = .ok f → q.result = .ok m → o.result = f.convert (some m)

/-- The failure over the first name that the map lacks, if there are formula and map. -/
def missing? (p : Outcome ι Failure Formula) (q : Outcome ι Failure VariableMap) : Option Failure :=
  p.result.toOption.bind fun f => q.result.toOption.bind fun m =>
    (f.firstMissing? m).map .unmapped

/-- What is wrong with the inputs of a conversion, in the order in which it is reported. -/
def failures (p : Outcome ι Failure Formula) (q : Outcome ι Failure VariableMap) : List Failure :=
  (failureOf? p.result).toList ++ (failureOf? q.result).toList ++ (missing? p q).toList

/-! ## One conversion -/

theorem converts_iff : Converts label p o ↔ o = p.andThen label fun f => f.convert none := by
  rw [Outcome.eq_andThen_iff]
  constructor
  · rintro ⟨htrace, herror, hok⟩
    exact ⟨htrace, herror, hok⟩
  · rintro ⟨htrace, herror, hok⟩
    exact ⟨htrace, herror, hok⟩

theorem execution_deferred_iff :
    Execution (deferred label formula) o ↔ ∃ p, Execution formula p ∧ Converts label p o := by
  rw [deferred, execution_andThen_iff]
  simp only [converts_iff]

theorem convertsWith_iff :
    ConvertsWith label p q o ↔ ∃ r : Outcome ι Failure (Formula × VariableMap),
      (Interleaving p.trace q.trace r.trace ∧ r.result = (p.join q).result) ∧
      o = r.andThen label fun (f, m) => f.convert (some m) := by
  simp only [Outcome.eq_andThen_iff]
  constructor
  · rintro ⟨⟨inputs, hinputs, htrace⟩, hformula, hmap, hok⟩
    -- What comes before the conversion is the outcome of the join of both inputs.
    refine ⟨⟨inputs, (p.join q).result⟩, ⟨hinputs, rfl⟩, ?_, ?_, ?_⟩
    · rwa [Outcome.isOk_join_result]
    · intro e he
      rcases Outcome.join_result_eq_error_iff.1 he with he | ⟨f, hf, he⟩
      · exact hformula e he
      · exact hmap f e hf he
    · rintro ⟨f, m⟩ hpair
      obtain ⟨hf, hm⟩ := Outcome.join_result_eq_ok_iff.1 hpair
      exact hok f m hf hm
  · rintro ⟨⟨inputs, result⟩, ⟨hinputs, rfl⟩, htrace, herror, hok⟩
    refine ⟨⟨inputs, hinputs, ?_⟩, ?_, ?_, ?_⟩
    · rwa [Outcome.isOk_join_result] at htrace
    · intro e he
      exact herror e (Outcome.join_result_eq_error_iff.2 (.inl he))
    · intro f e hf he
      exact herror e (Outcome.join_result_eq_error_iff.2 (.inr ⟨f, hf, he⟩))
    · intro f m hf hm
      exact hok (f, m) (Outcome.join_result_eq_ok_iff.2 ⟨hf, hm⟩)

theorem execution_deferredWith_iff :
    Execution (deferredWith label formula variableMap) o ↔
      ∃ p q, Execution formula p ∧ Execution variableMap q ∧ ConvertsWith label p q o := by
  rw [deferredWith, execution_andThen_iff]
  simp only [execution_join_iff, convertsWith_iff]
  constructor
  · rintro ⟨r, ⟨p, q, hp, hq, hr⟩, ho⟩
    exact ⟨p, q, hp, hq, r, hr, ho⟩
  · rintro ⟨p, q, hp, hq, r, hr, ho⟩
    exact ⟨r, ⟨p, q, hp, hq, hr⟩, ho⟩

/-- The failure of a conversion is the first one of what is wrong with its inputs. -/
theorem ConvertsWith.failureOf?_eq (h : ConvertsWith label p q o) :
    failureOf? o.result = (failures p q).head? := by
  -- The list begins with the failure of the first input that fails, in the order of the join.
  unfold failures missing?
  cases hp : p.result with
  | error e =>
    rw [h.of_formula_error e hp]
    rfl
  | ok f =>
    cases hq : q.result with
    | error e =>
      rw [h.of_map_error f e hp hq]
      rfl
    | ok m =>
      rw [h.of_ok f m hp hq, f.failureOf?_convert m]
      exact (Option.head?_toList ..).symm

/-! ## Deferred conversions -/

/-- A conversion with the map of its formula executes the formula once. It ends with the failure of
the formula, or else as the conversion of the formula does without a map. With a map to come,
formula and map are both executed once, interleaved in any way and whichever of them fails. The
conversion ends with the failure of the formula, or else that of the map, or else as the conversion
of the formula under the map does, which fails only over the first name that the map lacks.

If two such conversions are joined, all four inputs are executed. The result is the pair of the two
results if there are both, and otherwise the first one of what is wrong with the inputs of the left
conversion and, after these, of the right one. -/
theorem executions_of_deferred (ι : Type) :
    (∀ (label : ι) formula o, Execution (deferred label formula) o ↔
      ∃ p, Execution formula p ∧ Converts label p o) ∧
    (∀ (label : ι) formula variableMap o,
      Execution (deferredWith label formula variableMap) o ↔
        ∃ p q, Execution formula p ∧ Execution variableMap q ∧ ConvertsWith label p q o) ∧
    (∀ (label : ι) p q o, ConvertsWith label p q o →
      failureOf? o.result = (failures p q).head?) ∧
    ∀ (label₁ label₂ : ι) formula₁ map₁ formula₂ map₂ o,
      Execution ((deferredWith label₁ formula₁ map₁).join (deferredWith label₂ formula₂ map₂)) o ↔
        ∃ p₁ q₁ o₁ p₂ q₂ o₂,
          (Execution formula₁ p₁ ∧ Execution map₁ q₁ ∧ ConvertsWith label₁ p₁ q₁ o₁) ∧
          (Execution formula₂ p₂ ∧ Execution map₂ q₂ ∧ ConvertsWith label₂ p₂ q₂ o₂) ∧
          Interleaving o₁.trace o₂.trace o.trace ∧
          (∀ k₁ k₂, o.result = .ok (k₁, k₂) ↔ o₁.result = .ok k₁ ∧ o₂.result = .ok k₂) ∧
          failureOf? o.result = (failures p₁ q₁ ++ failures p₂ q₂).head? := by
  refine ⟨?_, ?_, ?_, ?_⟩
  · intro label formula o
    exact execution_deferred_iff
  · intro label formula variableMap o
    exact execution_deferredWith_iff
  · intro label p q o h
    exact h.failureOf?_eq
  · intro label₁ label₂ formula₁ map₁ formula₂ map₂ o
    simp only [execution_join_iff, execution_deferredWith_iff, Outcome.eq_join_result_iff,
      List.head?_append]
    constructor
    · rintro ⟨o₁, o₂, ⟨p₁, q₁, hp₁, hq₁, h₁⟩, ⟨p₂, q₂, hp₂, hq₂, h₂⟩, htrace, hvalue, hfailure⟩
      rw [h₁.failureOf?_eq, h₂.failureOf?_eq] at hfailure
      exact ⟨p₁, q₁, o₁, p₂, q₂, o₂, ⟨hp₁, hq₁, h₁⟩, ⟨hp₂, hq₂, h₂⟩, htrace, hvalue, hfailure⟩
    · rintro ⟨p₁, q₁, o₁, p₂, q₂, o₂, ⟨hp₁, hq₁, h₁⟩, ⟨hp₂, hq₂, h₂⟩, htrace, hvalue, hfailure⟩
      -- The outcome of each conversion says again what is wrong with its inputs.
      rw [← h₁.failureOf?_eq, ← h₂.failureOf?_eq] at hfailure
      exact ⟨o₁, o₂, ⟨p₁, q₁, hp₁, hq₁, h₁⟩, ⟨p₂, q₂, hp₂, hq₂, h₂⟩, htrace, hvalue, hfailure⟩

/-- The left map lacks a name, and both inputs on the right fail. The right conversion is executed
first and fails first, and the name is reported. -/
theorem executions_of_deferred_failing :
    ∃ (m : VariableMap) (p : Outcome Nat Failure Formula) (q : Outcome Nat Failure VariableMap)
      (right : Outcome Nat Failure ClauseList) (o : Outcome Nat Failure (ClauseList × ClauseList)),
      m.names = ["b"] ∧ ConvertsWith 6 p q right ∧
      failures p q = [.reported "no formula", .reported "no map"] ∧
      failureOf? right.result = (failures p q).head? ∧
      Execution ((deferredWith 3 (.task 1 fun _ => .ok (.literal ⟨"a", true⟩))
          (.task 2 fun _ => .ok m)).join
        (deferredWith 6 (.task 4 fun _ => .error (.reported "no formula"))
          (.task 5 fun _ => .error (.reported "no map")))) o ∧
      o.trace = [5, 4, 2, 1, 3] ∧ o.result = .error (.unmapped "a") := by
  let f : Formula := .literal ⟨"a", true⟩
  let m : VariableMap := ⟨["b"], by decide, by decide⟩
  let p₁ : Outcome Nat Failure Formula := ⟨[1], .ok f⟩
  let q₁ : Outcome Nat Failure VariableMap := ⟨[2], .ok m⟩
  let left : Outcome Nat Failure ClauseList := ⟨[2, 1, 3], .error (.unmapped "a")⟩
  let p₂ : Outcome Nat Failure Formula := ⟨[4], .error (.reported "no formula")⟩
  let q₂ : Outcome Nat Failure VariableMap := ⟨[5], .error (.reported "no map")⟩
  let right : Outcome Nat Failure ClauseList := ⟨[5, 4], .error (.reported "no formula")⟩
  have hleft : ConvertsWith 3 p₁ q₁ left :=
    ⟨⟨[2, 1], .right (.left .nil), rfl⟩, nofun, nofun, fun _ _ hf hm => by cases hf; cases hm; rfl⟩
  have hright : ConvertsWith 6 p₂ q₂ right :=
    ⟨⟨[5, 4], .right (.left .nil), rfl⟩, fun _ he => by cases he; rfl, nofun, nofun⟩
  obtain ⟨-, -, hreported, hjoined⟩ := executions_of_deferred Nat
  refine ⟨m, p₂, q₂, right, ⟨[5, 4, 2, 1, 3], .error (.unmapped "a")⟩, rfl, hright, by decide,
    hreported 6 p₂ q₂ right hright, ?_, rfl, rfl⟩
  apply (hjoined 3 6 _ _ _ _ _).2
  exact ⟨p₁, q₁, left, p₂, q₂, right, ⟨.task 1 _, .task 2 _, hleft⟩, ⟨.task 4 _, .task 5 _, hright⟩,
    .right (.right (.left (.left (.left .nil)))), by simp [left], by decide⟩

end Extraction

end Clausal
