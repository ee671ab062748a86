/-
  Clausal.Proofs.Clause.Resolution

  What a resolvent says about its parents. Whatever the clauses and the literal are, the resolvent
  is true wherever both parents are: a valuation makes the literal or its negation false, so one
  parent owes its truth to a literal that is kept (`Clause.holds_resolve`). If the parents do hold
  the literal and its negation and do not contradict themselves, nothing else is said about them
  apart from that variable: a valuation that makes the resolvent true makes both parents true once
  the variable has the value that helps the parent without a true literal
  (`Clause.exists_holds_of_holds_resolve`).
-/
import Clausal.Assignment.Lookup
import Clausal.Proofs.Clause.Entailment

namespace Clausal

/-! ## Valuations that differ in one variable -/

/-- A literal over another variable keeps its truth value. -/
theorem Literal.holds_update_of_ne {l : Literal} {x : Variable} (h : l.var ≠ x) (v : Valuation)
    (b : Bool) : l.holds (v.update x b) = l.holds v := by
  rw [holds, Valuation.update_of_ne v b h, holds]

/-- A literal is true when its variable gets its sign. -/
@[simp] theorem Literal.holds_update_self (v : Valuation) (l : Literal) :
    l.holds (v.update l.var l.isPositive) = true := by
  rw [holds, Valuation.update_self, beq_self_eq_true]

namespace Clause

variable {c d : Clause} {l : Literal} {v : Valuation}

/-- A clause does not depend on the variables that it does not mention. -/
theorem holds_update_of_not_mem_vars {x : Variable} (h : x ∉ c.vars) (v : Valuation) (b : Bool) :
    c.holds (v.update x b) = c.holds v := by
  have hliteral : ∀ m ∈ c, m.holds (v.update x b) = m.holds v := by
    intro m hm
    apply Literal.holds_update_of_ne
    intro hvar
    exact h (Assignment.mem_vars.2 ⟨m, hm, hvar⟩)
  rw [Bool.eq_iff_iff, holds_iff, holds_iff]
  constructor
  · intro ⟨m, hm, htrue⟩
    exact ⟨m, hm, hliteral m hm ▸ htrue⟩
  · intro ⟨m, hm, htrue⟩
    exact ⟨m, hm, (hliteral m hm).trans htrue⟩

/-- A clause is true when the variable of one of its literals gets that literal's sign. -/
theorem holds_update_of_mem (hl : l ∈ c) (v : Valuation) :
    c.holds (v.update l.var l.isPositive) = true :=
  holds_iff.2 ⟨l, hl, Literal.holds_update_self v l⟩

/-! ## Soundness -/

/-- The resolvent is true wherever both clauses are, on whatever literal they are resolved. -/
theorem holds_resolve (l : Literal) (hc : c.holds v = true) (hd : d.holds v = true) :
    (c.resolve d l).holds v = true := by
  obtain ⟨m, hm, hmtrue⟩ := holds_iff.1 hc
  obtain ⟨n, hn, hntrue⟩ := holds_iff.1 hd
  apply holds_iff.2
  by_cases hl : l.holds v = true
  · -- The negation is false, so the second clause is true through a literal that is kept.
    have hne : n ≠ -l := by
      rintro rfl
      rw [Literal.holds_neg, hl] at hntrue
      cases hntrue
    exact ⟨n, mem_resolve.2 (.inr ⟨hn, hne⟩), hntrue⟩
  · have hne : m ≠ l := by
      rintro rfl
      exact hl hmtrue
    exact ⟨m, mem_resolve.2 (.inl ⟨hm, hne⟩), hmtrue⟩

/-! ## Elimination -/

section Eliminates

variable (hlc : l ∈ c) (hld : -l ∈ d) (hc : ∀ m ∈ c, -m ∉ c) (hd : ∀ m ∈ d, -m ∉ d)
include hlc hld hc hd

/-- The variable that is resolved on is gone. -/
theorem var_not_mem_vars_resolve : l.var ∉ (c.resolve d l).vars := by
  intro hmem
  obtain ⟨m, hm, hvar⟩ := Assignment.mem_vars.1 hmem
  -- Each parent holds one of the two literals over the variable, hence not the other one.
  have hnegc : -l ∉ c := hc l hlc
  have hposd : l ∉ d := by
    intro hl
    exact hd l hl hld
  cases mem_resolve.1 hm with
  | inl h =>
    cases Literal.eq_or_eq_neg_of_var_eq hvar with
    | inl heq => exact h.2 heq
    | inr heq => exact hnegc (heq ▸ h.1)
  | inr h =>
    cases Literal.eq_or_eq_neg_of_var_eq hvar with
    | inl heq => exact hposd (heq ▸ h.1)
    | inr heq => exact h.2 heq

/-- Where the resolvent is true, some value of the variable makes both clauses true. -/
theorem exists_holds_of_holds_resolve (h : (c.resolve d l).holds v = true) :
    ∃ b, c.holds (v.update l.var b) = true ∧ d.holds (v.update l.var b) = true := by
  obtain ⟨m, hm, htrue⟩ := holds_iff.1 h
  have hvar : m.var ≠ l.var := by
    intro heq
    exact var_not_mem_vars_resolve hlc hld hc hd (Assignment.mem_vars.2 ⟨m, hm, heq⟩)
  -- The literal that is true stays true, and the variable serves the other clause.
  have hkept : ∀ b, m.holds (v.update l.var b) = true := by
    intro b
    rw [Literal.holds_update_of_ne hvar v b, htrue]
  cases mem_resolve.1 hm with
  | inl hmc =>
    have hother := holds_update_of_mem hld v
    rw [Literal.var_neg] at hother
    exact ⟨(-l).isPositive, holds_iff.2 ⟨m, hmc.1, hkept _⟩, hother⟩
  | inr hmd => exact ⟨l.isPositive, holds_update_of_mem hlc v, holds_iff.2 ⟨m, hmd.1, hkept _⟩⟩

/-- The resolvent says that some value of the variable makes both clauses true. -/
theorem holds_resolve_iff (v : Valuation) : (c.resolve d l).holds v = true ↔
    ∃ b, c.holds (v.update l.var b) = true ∧ d.holds (v.update l.var b) = true := by
  constructor
  · exact exists_holds_of_holds_resolve hlc hld hc hd
  · intro ⟨b, hcb, hdb⟩
    have hres : (c.resolve d l).holds (v.update l.var b) = true := holds_resolve l hcb hdb
    have hgone := var_not_mem_vars_resolve hlc hld hc hd
    rw [holds_update_of_not_mem_vars hgone v b] at hres
    exact hres

end Eliminates

/-! ## Conflicts -/

/-- Two clauses that ask a solution for opposite values of a variable have a falsified resolvent. -/
theorem evaluate_resolve_of_unit {s : Solution} (hc : c.evaluate s = .unit l)
    (hd : d.evaluate s = .unit (-l)) : (c.resolve d l).evaluate s = .falsified := by
  obtain ⟨hcsat, -, -, hcothers⟩ := evaluate_eq_unit_iff.1 hc
  obtain ⟨hdsat, -, -, hdothers⟩ := evaluate_eq_unit_iff.1 hd
  apply evaluate_eq_falsified_iff.2
  constructor
  · intro ⟨m, hm, hmem⟩
    cases mem_resolve.1 hm with
    | inl h => exact hcsat ⟨m, h.1, hmem⟩
    | inr h => exact hdsat ⟨m, h.1, hmem⟩
  · intro m hm
    cases mem_resolve.1 hm with
    | inl h => exact hcothers m h.1 h.2
    | inr h => exact hdothers m h.1 h.2

/-- Resolution is sound for all clauses and literals. If the first clause holds the literal, the
second one its negation, and neither contradicts itself, it eliminates the variable of the literal:
the resolvent does not mention it and is true exactly where some value of it makes both clauses
true. If a solution leaves of the first clause only the literal and of the second one only its
negation, the resolvent is falsified. -/
theorem resolve_eliminates (c d : Clause) (l : Literal) :
    (∀ v, c.holds v = true → d.holds v = true → (c.resolve d l).holds v = true) ∧
    (l ∈ c → -l ∈ d → (∀ m ∈ c, -m ∉ c) → (∀ m ∈ d, -m ∉ d) →
      l.var ∉ (c.resolve d l).vars ∧
      ∀ v, (c.resolve d l).holds v = true ↔
        ∃ b, c.holds (v.update l.var b) = true ∧ d.holds (v.update l.var b) = true) ∧
    ∀ s, c.evaluate s = .unit l → d.evaluate s = .unit (-l) →
      (c.resolve d l).evaluate s = .falsified := by
  refine ⟨fun _ => holds_resolve l, ?_, fun _ => evaluate_resolve_of_unit⟩
  intro hlc hld hc hd
  exact ⟨var_not_mem_vars_resolve hlc hld hc hd, holds_resolve_iff hlc hld hc hd⟩

/-- Two clauses with repetitions and a common literal, under a solution that contradicts itself on a
variable of neither; and a clause that contradicts itself, resolved on a literal that is in neither
clause. -/
theorem resolve_eliminates_repeated :
    (∃ (c d : Clause) (l : Literal) (s : Solution),
      c.literals.map Literal.toInt = [2, 1, 2, 1] ∧ d.literals.map Literal.toInt = [2, 3, -1] ∧
      l.toInt = 1 ∧ s.literals.map Literal.toInt = [-3, 4, -2, -4] ∧
      (c.resolve d l).literals.map Literal.toInt = [2, 3] ∧ l.var ∉ (c.resolve d l).vars ∧
      (∀ v, (c.resolve d l).holds v = true ↔
        ∃ b, c.holds (v.update l.var b) = true ∧ d.holds (v.update l.var b) = true) ∧
      c.evaluate s = .unit l ∧ d.evaluate s = .unit (-l) ∧
      (c.resolve d l).evaluate s = .falsified) ∧
    ∃ (c d : Clause) (l : Literal) (v : Valuation), c.literals.map Literal.toInt = [2, -2] ∧
      d.literals.map Literal.toInt = [3] ∧ l.toInt = 1 ∧ c.holds v = true ∧ d.holds v = true ∧
      (c.resolve d l).holds v = true := by
  let x : Variable := ⟨1, by decide, by decide⟩
  let y : Variable := ⟨2, by decide, by decide⟩
  let z : Variable := ⟨3, by decide, by decide⟩
  let w : Variable := ⟨4, by decide, by decide⟩
  constructor
  · let c : Clause := ⟨[.ofVar y true, .ofVar x true, .ofVar y true, .ofVar x true]⟩
    let d : Clause := ⟨[.ofVar y true, .ofVar z true, .ofVar x false]⟩
    let l : Literal := .ofVar x true
    let s : Solution := ⟨[.ofVar z false, .ofVar w true, .ofVar y false, .ofVar w false]⟩
    have hlc : l ∈ c := by decide
    have hld : -l ∈ d := by decide
    have hc : ∀ m ∈ c.literals, -m ∉ c.literals := by decide
    have hd : ∀ m ∈ d.literals, -m ∉ d.literals := by decide
    have hcs : c.evaluate s = .unit l := by decide
    have hds : d.evaluate s = .unit (-l) := by decide
    obtain ⟨-, heliminates, hconflict⟩ := resolve_eliminates c d l
    obtain ⟨hgone, hiff⟩ := heliminates hlc hld hc hd
    exact ⟨c, d, l, s, by decide, by decide, by decide, by decide, by decide, hgone, hiff, hcs,
      hds, hconflict s hcs hds⟩
  · let c : Clause := ⟨[.ofVar y true, .ofVar y false]⟩
    let d : Clause := ⟨[.ofVar z true]⟩
    let l : Literal := .ofVar x true
    have hc : c.holds (fun _ => true) = true := by decide
    have hd : d.holds (fun _ => true) = true := by decide
    exact ⟨c, d, l, fun _ => true, by decide, by decide, by decide, hc, hd,
      (resolve_eliminates c d l).1 _ hc hd⟩

end Clause

end Clausal
