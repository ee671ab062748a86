/-
  Clausal.Proofs.Assignment.Translation

  Renumbering and the algebra of literals. Both numberings give a variable one name and a name one
  variable, so a literal and its translation belong to each other one to one
  (`Literal.biUnique_reindex`), and the translation of a negation is the negation of the
  translation. That is all the operations look at: each of them compares literals, negates them and
  keeps some of them in order. So it makes no difference whether lists are renumbered before an
  operation or its result afterwards.
-/
import Clausal.Proofs.ClauseList

namespace Clausal

/-! ## Literals -/

/-- The literal that has under the new numbering the name and sign of `l` under the old one. -/
def Literal.reindex (l : Literal) (old new : VariableMap) : Except Problem Literal :=
  old.named l >>= new.literal

namespace Literal

variable {old new : VariableMap} {l l' : Literal}

/-- A literal and its translation have one reading by name. -/
theorem reindex_eq_ok_iff :
    l.reindex old new = .ok l' ↔ ∃ n, old.named l = .ok n ∧ new.named l' = .ok n := by
  rw [reindex, bind_eq_ok_iff]
  simp only [VariableMap.literal_eq_ok_iff_named]

/-- Renumbering back undoes renumbering. -/
theorem reindex_symm (h : l.reindex old new = .ok l') : l'.reindex new old = .ok l := by
  obtain ⟨n, hold, hnew⟩ := reindex_eq_ok_iff.1 h
  exact reindex_eq_ok_iff.2 ⟨n, hnew, hold⟩

/-- A literal has one translation, and it is the translation of no other literal. -/
theorem biUnique_reindex (old new : VariableMap) :
    Relator.BiUnique fun l l' : Literal => l.reindex old new = .ok l' := by
  have hright : ∀ {old new : VariableMap} {l m n : Literal},
      l.reindex old new = .ok m → l.reindex old new = .ok n → m = n := by
    intro old new l m n hm hn
    exact Except.ok.inj (hm.symm.trans hn)
  constructor
  · intro l m n hl hm
    exact hright (reindex_symm hl) (reindex_symm hm)
  · intro l m n hm hn
    exact hright hm hn

theorem reindex_neg (h : l.reindex old new = .ok l') : (-l).reindex old new = .ok (-l') := by
  obtain ⟨n, hold, hnew⟩ := reindex_eq_ok_iff.1 h
  rw [VariableMap.named_eq_ok_iff] at hold hnew
  apply reindex_eq_ok_iff.2
  refine ⟨⟨n.name, !n.positive⟩, ?_, ?_⟩
  · apply VariableMap.named_eq_ok_iff.2
    rw [var_neg, isPositive_neg, hold.2]
    exact ⟨hold.1, rfl⟩
  · apply VariableMap.named_eq_ok_iff.2
    rw [var_neg, isPositive_neg, hnew.2]
    exact ⟨hnew.1, rfl⟩

end Literal

/-! ## Lists of literals -/

namespace Assignment

variable {k k' : Kind} {old new : VariableMap} {l l' : Literal}

/-- A list is renumbered literal by literal. -/
theorem reindex_eq_ok_iff {a a' : Assignment k} : a.reindex old new = .ok a' ↔
    List.Forall₂ (fun l l' => l.reindex old new = .ok l') a.literals a'.literals := by
  exact map_mk_eq_ok_iff

theorem reindex_symm {a a' : Assignment k} (h : a.reindex old new = .ok a') :
    a'.reindex new old = .ok a :=
  reindex_eq_ok_iff.2 ((reindex_eq_ok_iff.1 h).imp fun _ _ hl => Literal.reindex_symm hl).flip

/-- A literal is in a list when its translation is in the translated list. -/
theorem mem_iff_of_reindex {a a' : Assignment k} (ha : a.reindex old new = .ok a')
    (hl : l.reindex old new = .ok l') : l ∈ a ↔ l' ∈ a' :=
  List.rel_mem (Literal.biUnique_reindex old new) hl (reindex_eq_ok_iff.1 ha)

theorem reindex_negate {a a' : Assignment k} (h : a.reindex old new = .ok a') :
    a.negate.reindex old new = .ok a'.negate := by
  apply reindex_eq_ok_iff.2
  rw [negate, negate, List.forall₂_map_left_iff, List.forall₂_map_right_iff]
  exact (reindex_eq_ok_iff.1 h).imp fun _ _ hl => Literal.reindex_neg hl

theorem reindex_merge {as as' : List (Assignment k)}
    (h : as.mapM (·.reindex old new) = .ok as') :
    (merge as).reindex old new = .ok (merge as') := by
  have hlists := mapM_eq_ok_iff.1 h
  have hliterals := List.rel_flatMap hlists fun _ _ ha => reindex_eq_ok_iff.1 ha
  exact reindex_eq_ok_iff.2 (forall₂_eraseDups (Literal.biUnique_reindex old new) hliterals)

theorem countConflicts_of_reindex {a a' : Assignment k} {b b' : Assignment k'}
    (ha : a.reindex old new = .ok a') (hb : b.reindex old new = .ok b') :
    a.countConflicts b.literals = a'.countConflicts b'.literals := by
  have hconflicts := forall₂_filter (p := fun l => decide (-l ∈ a))
    (q := fun l => decide (-l ∈ a')) (reindex_eq_ok_iff.1 hb) fun l l' hl =>
      decide_eq_decide.2 (mem_iff_of_reindex ha (Literal.reindex_neg hl))
  rw [countConflicts, countConflicts, List.countP_eq_length_filter, List.countP_eq_length_filter]
  exact hconflicts.length_eq

theorem isContradictory_of_reindex {a a' : Assignment k} (h : a.reindex old new = .ok a') :
    a.isContradictory = a'.isContradictory := by
  rw [Bool.eq_iff_iff, isContradictory_iff, isContradictory_iff]
  exact exists_mem_iff_of_forall₂ (reindex_eq_ok_iff.1 h) fun l l' hl =>
    mem_iff_of_reindex h (Literal.reindex_neg hl)

/-- The clean forms, where there are any, are translations of each other. -/
theorem reindex_clean? {a a' : Assignment k} (h : a.reindex old new = .ok a') :
    Option.Rel (fun b b' => b.reindex old new = .ok b') a.clean? a'.clean? := by
  rw [clean?, clean?, isContradictory_of_reindex h]
  split
  · exact .none
  · exact .some (reindex_eq_ok_iff.2
      (forall₂_eraseDups (Literal.biUnique_reindex old new) (reindex_eq_ok_iff.1 h)))

end Assignment

/-! ## Clauses -/

/-- The same answer under another numbering. -/
def Evaluation.reindex (e : Evaluation) (old new : VariableMap) : Except Problem Evaluation :=
  match e with
  | .unit l => .unit <$> l.reindex old new
  | .satisfied => .ok .satisfied
  | .falsified => .ok .falsified
  | .unknown => .ok .unknown

namespace Clause

variable {old new : VariableMap} {c c' d d' : Clause} {s s' : Solution} {l l' : Literal}

theorem reindex_resolve (hc : c.reindex old new = .ok c') (hd : d.reindex old new = .ok d')
    (hl : l.reindex old new = .ok l') :
    (c.resolve d l).reindex old new = .ok (c'.resolve d' l') := by
  have hunique := Literal.biUnique_reindex old new
  -- A literal that is left out on one side is left out on the other.
  have hkept : ∀ {x x' : Literal}, x.reindex old new = .ok x' → ∀ m m' : Literal,
      m.reindex old new = .ok m' → decide (m ≠ x) = decide (m' ≠ x') := by
    intro x x' hx m m' hm
    exact decide_eq_decide.2 (not_congr (Relator.rel_eq hunique hm hx))
  have hleft := forall₂_filter (Assignment.reindex_eq_ok_iff.1 hc) (hkept hl)
  have hright := forall₂_filter (Assignment.reindex_eq_ok_iff.1 hd) (hkept (Literal.reindex_neg hl))
  exact Assignment.reindex_eq_ok_iff.2 (forall₂_eraseDups hunique (List.rel_append hleft hright))

section Evaluation

variable (hc : c.reindex old new = .ok c') (hs : s.reindex old new = .ok s')
include hc hs

/-- The literals that a solution leaves open correspond to each other. -/
theorem forall₂_pending :
    List.Forall₂ (fun l l' => l.reindex old new = .ok l') (c.pending s) (c'.pending s') := by
  apply forall₂_eraseDups (Literal.biUnique_reindex old new)
  apply forall₂_filter (Assignment.reindex_eq_ok_iff.1 hc)
  intro l l' hl
  exact decide_eq_decide.2
    (not_congr (Assignment.mem_iff_of_reindex hs (Literal.reindex_neg hl)))

theorem isUnit_of_reindex : c.isUnit s = c'.isUnit s' := by
  rw [isUnit, isUnit, (forall₂_pending hc hs).length_eq]

theorem exists_satisfied_iff_of_reindex : (∃ l ∈ c, l ∈ s) ↔ ∃ l ∈ c', l ∈ s' :=
  exists_mem_iff_of_forall₂ (Assignment.reindex_eq_ok_iff.1 hc) fun _ _ hl =>
    Assignment.mem_iff_of_reindex hs hl

theorem reindex_evaluate : (c.evaluate s).reindex old new = .ok (c'.evaluate s') := by
  have hsatisfied := exists_satisfied_iff_of_reindex hc hs
  by_cases h : ∃ l ∈ c, l ∈ s
  · rw [evaluate_eq_satisfied_iff.2 h, evaluate_eq_satisfied_iff.2 (hsatisfied.1 h)]
    rfl
  · rw [evaluate_of_not_satisfied h, evaluate_of_not_satisfied (mt hsatisfied.2 h)]
    -- As many literals are open on one side as on the other.
    have hpending := forall₂_pending hc hs
    generalize c.pending s = ls at hpending
    generalize c'.pending s' = ls' at hpending
    cases hpending with
    | nil => rfl
    | cons hl hrest =>
      cases hrest with
      | nil =>
        show Evaluation.unit <$> Literal.reindex _ old new = _
        rw [hl]
        rfl
      | cons _ _ => rfl

end Evaluation

end Clause

/-! ## Clause lists -/

namespace ClauseList

variable {old new : VariableMap} {l l' : ClauseList}

/-- A list is renumbered clause by clause and gets the new numbering. -/
theorem reindex_eq_ok_iff (hold : l.variableMap = some old) : l.reindex new = .ok l' ↔
    l'.variableMap = some new ∧
      List.Forall₂ (fun c c' : Clause => c.reindex old new = .ok c') l.clauses l'.clauses := by
  rw [← mapM_eq_ok_iff, reindex, requireMap, hold]
  exact bind_mk_eq_ok_iff

theorem satisfies_of_reindex {s s' : Solution} (hold : l.variableMap = some old)
    (hs : s.reindex old new = .ok s') (hl : l.reindex new = .ok l') :
    s.satisfies l = s'.satisfies l' := by
  obtain ⟨-, hclauses⟩ := (reindex_eq_ok_iff hold).1 hl
  rw [Bool.eq_iff_iff, Solution.satisfies, Solution.satisfies, List.all_eq_true, List.all_eq_true]
  apply forall_mem_iff_of_forall₂ hclauses
  intro c c' hc
  rw [decide_eq_true_eq, decide_eq_true_eq, Clause.evaluate_eq_satisfied_iff,
    Clause.evaluate_eq_satisfied_iff]
  exact Clause.exists_satisfied_iff_of_reindex hc hs

end ClauseList

/-! ## The whole algebra -/

/-- Renumbering is an isomorphism of the algebra of literals. It can be undone, and it commutes with
negation, cleaning, union and resolution. It keeps the number of conflicts, whether a clause is
unit, and what a solution says about a clause, apart from the translation of the literal that is
left; so a solution satisfies a clause list exactly when the renumbered one satisfies the renumbered
list. -/
theorem reindex_isomorphism (old new : VariableMap) :
    (∀ (k : Kind) (a a' : Assignment k), a.reindex old new = .ok a' →
      a'.reindex new old = .ok a ∧ a.negate.reindex old new = .ok a'.negate ∧
      Option.Rel (fun b b' => b.reindex old new = .ok b') a.clean? a'.clean?) ∧
    (∀ (k : Kind) (as as' : List (Assignment k)), as.mapM (·.reindex old new) = .ok as' →
      (Assignment.merge as).reindex old new = .ok (Assignment.merge as')) ∧
    (∀ (k k' : Kind) (a a' : Assignment k) (b b' : Assignment k'),
      a.reindex old new = .ok a' → b.reindex old new = .ok b' →
      a.countConflicts b.literals = a'.countConflicts b'.literals) ∧
    (∀ (c c' d d' : Clause) (l l' : Literal), c.reindex old new = .ok c' →
      d.reindex old new = .ok d' → l.reindex old new = .ok l' →
      (c.resolve d l).reindex old new = .ok (c'.resolve d' l')) ∧
    (∀ (c c' : Clause) (s s' : Solution), c.reindex old new = .ok c' → s.reindex old new = .ok s' →
      c.isUnit s = c'.isUnit s' ∧ (c.evaluate s).reindex old new = .ok (c'.evaluate s')) ∧
    ∀ (s s' : Solution) (l l' : ClauseList), l.variableMap = some old →
      s.reindex old new = .ok s' → l.reindex new = .ok l' → s.satisfies l = s'.satisfies l' := by
  refine ⟨?_, ?_, ?_, ?_, ?_, ?_⟩
  · intro k a a' h
    exact ⟨Assignment.reindex_symm h, Assignment.reindex_negate h, Assignment.reindex_clean? h⟩
  · intro k as as' h
    exact Assignment.reindex_merge h
  · intro k k' a a' b b' ha hb
    exact Assignment.countConflicts_of_reindex ha hb
  · intro c c' d d' l l' hc hd hl
    exact Clause.reindex_resolve hc hd hl
  · intro c c' s s' hc hs
    exact ⟨Clause.isUnit_of_reindex hc hs, Clause.reindex_evaluate hc hs⟩
  · intro s s' l l' hold hs hl
    exact ClauseList.satisfies_of_reindex hold hs hl

/-- Two clauses, one of which contradicts itself, and a solution that leaves one literal of the
other one open, under a numbering that has one more name and all names in other places. -/
theorem reindex_isomorphism_moved :
    ∃ (old new : VariableMap) (c c' d d' : Clause) (l l' : Literal) (s s' : Solution),
      old.names = ["a", "b", "c"] ∧ new.names = ["d", "c", "a", "b"] ∧
      c.literals.map Literal.toInt = [1, -2, 3, 1] ∧ c'.literals.map Literal.toInt = [3, -4, 2, 3] ∧
      d.literals.map Literal.toInt = [-1, 3, -3] ∧ d'.literals.map Literal.toInt = [-3, 2, -2] ∧
      l.toInt = 1 ∧ l'.toInt = 3 ∧ s.literals.map Literal.toInt = [-1, 2, -1] ∧
      s'.literals.map Literal.toInt = [-3, 4, -3] ∧ c.reindex old new = .ok c' ∧
      d.reindex old new = .ok d' ∧ l.reindex old new = .ok l' ∧ s.reindex old new = .ok s' ∧
      c'.reindex new old = .ok c ∧ c.negate.reindex old new = .ok c'.negate ∧
      Option.Rel (fun b b' => b.reindex old new = .ok b') d.clean? d'.clean? ∧
      (Assignment.merge [c, d]).reindex old new = .ok (Assignment.merge [c', d']) ∧
      c.countConflicts s.literals = c'.countConflicts s'.literals ∧
      (c.resolve d l).reindex old new = .ok (c'.resolve d' l') ∧ c.isUnit s = c'.isUnit s' ∧
      (c.evaluate s).reindex old new = .ok (c'.evaluate s') ∧
      s.satisfies ⟨[c, d], some old⟩ = s'.satisfies ⟨[c', d'], some new⟩ := by
  let x : Variable := ⟨1, by decide, by decide⟩
  let y : Variable := ⟨2, by decide, by decide⟩
  let z : Variable := ⟨3, by decide, by decide⟩
  let w : Variable := ⟨4, by decide, by decide⟩
  let old : VariableMap := ⟨["a", "b", "c"], by decide, by decide⟩
  let new : VariableMap := ⟨["d", "c", "a", "b"], by decide, by decide⟩
  let c : Clause := ⟨[.ofVar x true, .ofVar y false, .ofVar z true, .ofVar x true]⟩
  let c' : Clause := ⟨[.ofVar z true, .ofVar w false, .ofVar y true, .ofVar z true]⟩
  let d : Clause := ⟨[.ofVar x false, .ofVar z true, .ofVar z false]⟩
  let d' : Clause := ⟨[.ofVar z false, .ofVar y true, .ofVar y false]⟩
  let l : Literal := .ofVar x true
  let l' : Literal := .ofVar z true
  let s : Solution := ⟨[.ofVar x false, .ofVar y true, .ofVar x false]⟩
  let s' : Solution := ⟨[.ofVar z false, .ofVar w true, .ofVar z false]⟩
  have hc : c.reindex old new = .ok c' := by rfl
  have hd : d.reindex old new = .ok d' := by rfl
  have hl : l.reindex old new = .ok l' := by rfl
  have hs : s.reindex old new = .ok s' := by rfl
  have hcd : [c, d].mapM (·.reindex old new) = .ok [c', d'] := by rfl
  have hlist : (⟨[c, d], some old⟩ : ClauseList).reindex new = .ok ⟨[c', d'], some new⟩ := by rfl
  obtain ⟨hlists, hmerge, hconflicts, hresolve, hclauses, hsatisfies⟩ := reindex_isomorphism old new
  obtain ⟨hback, hnegate, -⟩ := hlists _ c c' hc
  obtain ⟨hunit, hevaluate⟩ := hclauses c c' s s' hc hs
  exact ⟨old, new, c, c', d, d', l, l', s, s', rfl, rfl, by decide, by decide, by decide,
    by decide, by decide, by decide, by decide, by decide, hc, hd, hl, hs, hback, hnegate,
    (hlists _ d d' hd).2.2, hmerge _ _ _ hcd, hconflicts _ _ _ _ _ _ hc hs,
    hresolve _ _ _ _ _ _ hc hd hl, hunit, hevaluate, hsatisfies _ _ _ _ rfl hs hlist⟩

end Clausal
