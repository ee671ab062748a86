/-
  Clausal.Proofs.Assignment.Readings

  The two readings of a value side by side. The first literal over a variable decides `value?`, the
  last one decides the table of all values, so each is the other one on the reversed list.

  In a list that does not contradict itself all literals over a variable are one literal. There the
  readings agree, and either of them tells which literals the list holds: those that give their
  variable its value. No list that contradicts itself can be told from values of its variables, as
  a variable has one value at most (`not_neg_mem_of_reading`).
-/
import Clausal.Proofs.Assignment.Cleaning
import Clausal.Proofs.Assignment.Selection
import Clausal.Proofs.Assignment.Values

namespace Clausal.Assignment

variable {k : Kind} {a : Assignment k} {x : Variable} {positive : Bool}

/-- The literals from the last to the first. -/
def reverse (a : Assignment k) : Assignment k :=
  ⟨a.literals.reverse⟩

/-- The literals that give variables their values. -/
def ofValues (vs : List (Variable × Bool)) : Assignment k :=
  ⟨vs.map fun p => .ofVar p.1 p.2⟩

/-- The first literal over the variable has the sign. -/
def FirstSign (a : Assignment k) (x : Variable) (positive : Bool) : Prop :=
  ∃ before after, a.literals = before ++ .ofVar x positive :: after ∧ ∀ l ∈ before, l.var ≠ x

/-! ## The first literal -/

theorem value?_eq_lookup (a : Assignment k) (x : Variable) :
    a.value? x = lookup Literal.var Literal.isPositive a.literals x := rfl

theorem value?_eq_some_iff : a.value? x = some positive ↔ a.FirstSign x positive := by
  rw [value?_eq_lookup, lookup_eq_some_iff_first]
  constructor
  · rintro ⟨before, l, after, hsplit, rfl, rfl, hbefore⟩
    exact ⟨before, after, by rwa [Literal.ofVar_var], hbefore⟩
  · rintro ⟨before, after, hsplit, hbefore⟩
    exact ⟨before, _, after, hsplit, Literal.var_ofVar .., Literal.isPositive_ofVar .., hbefore⟩

theorem lookup_values_eq_value?_reverse (a : Assignment k) (x : Variable) :
    a.values.lookup x = a.reverse.value? x :=
  a.lookup_values x

theorem isSome_lookup_values_iff : (a.values.lookup x).isSome ↔ x ∈ a.vars := by
  rw [lookup_values_eq_value?_reverse, isSome_value?_iff, vars, reverse, List.map_reverse,
    List.mem_reverse, vars]

/-! ## The table -/

/-- The table lists the variables in ascending order. -/
theorem pairwise_values (a : Assignment k) :
    a.values.Pairwise fun p q => p.1.index < q.1.index :=
  List.foldlRecOn a.literals _ .nil fun _ hvalues _ _ => pairwise_setValue hvalues

theorem lookup_pairs (vs : List (Variable × Bool)) (x : Variable) :
    vs.lookup x = lookup Prod.fst Prod.snd vs x := by
  induction vs with
  | nil => rfl
  | cons p vs ih => rw [lookup_cons_pair, lookup_cons, ih]

/-- The table has one entry for each variable in it. -/
theorem mem_values_iff : (x, positive) ∈ a.values ↔ a.values.lookup x = some positive := by
  -- The variables ascend, so none has two entries.
  have hnodup : (a.values.map Prod.fst).Nodup := by
    rw [List.Nodup, List.pairwise_map]
    exact a.pairwise_values.imp fun hlt heq => Nat.ne_of_lt hlt (congrArg Variable.index heq)
  rw [lookup_pairs, lookup_eq_some_iff hnodup]
  constructor
  · intro h
    exact ⟨_, h, rfl, rfl⟩
  · rintro ⟨p, hp, rfl, rfl⟩
    exact hp

theorem mem_ofValues_values {l : Literal} :
    l ∈ (ofValues a.values : Assignment k) ↔ a.values.lookup l.var = some l.isPositive := by
  rw [← mem_values_iff, ofValues, mem_def, List.mem_map]
  constructor
  · rintro ⟨p, hp, rfl⟩
    rwa [Literal.var_ofVar, Literal.isPositive_ofVar]
  · intro h
    exact ⟨_, h, l.ofVar_var⟩

/-! ## Lists that do not contradict themselves -/

section Consistent

variable (h : ∀ l ∈ a, -l ∉ a)
include h

theorem lookup_values_eq_value? (x : Variable) : a.values.lookup x = a.value? x := by
  rw [lookup_values, lookup_reverse_of_inj (eq_of_var_eq h), value?_eq_lookup]

theorem mem_iff_value? {l : Literal} : l ∈ a ↔ a.value? l.var = some l.isPositive := by
  rw [value?_eq_lookup, lookup_eq_some_iff_of_inj (eq_of_var_eq h)]
  constructor
  · intro hl
    exact ⟨l, hl, rfl, rfl⟩
  · rintro ⟨m, hm, hvar, hsign⟩
    rwa [← Literal.ext_var hvar hsign]

theorem mem_ofValues_values_iff {l : Literal} :
    l ∈ (ofValues a.values : Assignment k) ↔ l ∈ a := by
  rw [mem_ofValues_values, lookup_values_eq_value? h, mem_iff_value? h]

end Consistent

/-- If the members of a list are those that give their variables the values they have, the list does
not contradict itself. -/
theorem not_neg_mem_of_reading (value : Variable → Option Bool)
    (h : ∀ l, l ∈ a ↔ value l.var = some l.isPositive) : ∀ l ∈ a, -l ∉ a := by
  intro l hl hneg
  have hpositive := (h l).1 hl
  have hnegative := (h (-l)).1 hneg
  rw [Literal.var_neg, hpositive, Option.some_inj, Literal.isPositive_neg] at hnegative
  exact Bool.not_ne_self _ hnegative.symm

/-! ## The readings -/

/-- A variable has a value in either reading exactly when it occurs. The first literal over it
decides the one and the last literal the other, so reversing the list turns the one into the other;
the table has one entry for each variable, in ascending order. If a list has a clean form the
readings agree; and it has one exactly when the literals of the table are its members, and exactly
when, read as a solution, it holds the literals that give their variables the values they have. -/
theorem value?_values_agree (a : Assignment k) :
    (∀ x, ((a.value? x).isSome ↔ x ∈ a.vars) ∧ ((a.indexOf? x).isSome ↔ x ∈ a.vars) ∧
      ((a.values.lookup x).isSome ↔ x ∈ a.vars)) ∧
    (a.values.Pairwise fun p q => p.1.index < q.1.index) ∧
    (∀ x positive, (x, positive) ∈ a.values ↔ a.values.lookup x = some positive) ∧
    (∀ x positive, (a.value? x = some positive ↔ a.FirstSign x positive) ∧
      (a.values.lookup x = some positive ↔ a.LastSign x positive)) ∧
    (∀ x, a.values.lookup x = a.reverse.value? x) ∧
    (a.clean?.isSome → ∀ x, a.values.lookup x = a.value? x) ∧
    (a.clean?.isSome ↔ ∀ l, l ∈ (ofValues a.values : Assignment k) ↔ l ∈ a) ∧
    (a.clean?.isSome ↔
      ∀ l, l ∈ a.toKind .solution ↔ a.value? l.var = some l.isPositive) := by
  rw [isSome_clean?_iff]
  refine ⟨?_, a.pairwise_values, ?_, ?_, a.lookup_values_eq_value?_reverse, ?_, ?_, ?_⟩
  · intro x
    exact ⟨isSome_value?_iff, isSome_indexOf?_iff, isSome_lookup_values_iff⟩
  · intro x positive
    exact mem_values_iff
  · intro x positive
    exact ⟨value?_eq_some_iff, lookup_values_eq_some_iff⟩
  · exact lookup_values_eq_value?
  · constructor
    · exact fun h l => mem_ofValues_values_iff h
    · intro h
      apply not_neg_mem_of_reading fun x => a.values.lookup x
      intro l
      rw [← h l, mem_ofValues_values]
  · constructor
    · exact fun h l => mem_iff_value? h
    · exact not_neg_mem_of_reading a.value?

/-- A list with a repeated literal, and one that contradicts itself, so that the readings part. -/
theorem value?_values_agree_repeated :
    ∃ (a b : Assignment .plain) (x : Variable),
      a.literals.map Literal.toInt = [2, -1, 2] ∧ b.literals.map Literal.toInt = [1, -2, -1] ∧
      x.index = 1 ∧ a.clean?.isSome ∧ (∀ y, a.values.lookup y = a.value? y) ∧
      b.clean? = none ∧ b.value? x = some true ∧ b.values.lookup x = some false ∧
      b.values.lookup x = b.reverse.value? x := by
  let x : Variable := ⟨1, by decide, by decide⟩
  let y : Variable := ⟨2, by decide, by decide⟩
  let a : Assignment .plain := ⟨[.ofVar y true, .ofVar x false, .ofVar y true]⟩
  let b : Assignment .plain := ⟨[.ofVar x true, .ofVar y false, .ofVar x false]⟩
  have ha : a.clean?.isSome := by decide
  obtain ⟨-, -, -, -, -, hagree, -⟩ := value?_values_agree a
  obtain ⟨-, -, -, -, hreverse, -⟩ := value?_values_agree b
  exact ⟨a, b, x, by decide, by decide, rfl, ha, hagree ha, by decide, by decide, by decide,
    hreverse x⟩

end Clausal.Assignment
