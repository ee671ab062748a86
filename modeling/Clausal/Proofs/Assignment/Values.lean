/-
  Clausal.Proofs.Assignment.Values

  The values that a list gives its variables, all in one table. Each literal writes the sign of its
  variable over the one that is there, so what the table says of a variable is the sign of its last
  literal (`lookup_values_eq_some_iff`).
-/
import Clausal.Assignment.Lookup
import Clausal.Proofs.Lookup

namespace Clausal.Assignment

variable {k : Kind} {a : Assignment k} {x : Variable} {positive : Bool}

/-- The last literal over the variable has the sign. -/
def LastSign (a : Assignment k) (x : Variable) (positive : Bool) : Prop :=
  ∃ before after, a.literals = before ++ .ofVar x positive :: after ∧ ∀ l ∈ after, l.var ≠ x

theorem lookup_cons_pair (w : Variable) (c : Bool) (vs : List (Variable × Bool)) (x : Variable) :
    ((w, c) :: vs).lookup x = if w = x then some c else vs.lookup x := by
  rw [List.lookup_cons]
  split
  · next h => rw [if_pos (beq_iff_eq.1 h).symm]
  · next h => rw [if_neg (beq_eq_false_iff_ne.1 h).symm]

/-- Setting a value is seen under its variable and under no other. -/
theorem lookup_setValue (v : Variable) (b : Bool) (vs : List (Variable × Bool)) (x : Variable) :
    (setValue v b vs).lookup x = if v = x then some b else vs.lookup x := by
  induction vs with
  | nil => rw [setValue, lookup_cons_pair]
  | cons p vs ih =>
    obtain ⟨w, c⟩ := p
    unfold setValue
    split
    · rw [lookup_cons_pair]
    · split
      · next heq =>
        -- The old value of the variable is out of the way.
        subst heq
        rw [lookup_cons_pair, lookup_cons_pair]
        split <;> rfl
      · next hne =>
        rw [lookup_cons_pair, lookup_cons_pair, ih]
        by_cases hx : w = x
        · rw [if_pos hx, if_pos hx, if_neg (hx ▸ hne)]
        · rw [if_neg hx, if_neg hx]

theorem lookup_values (a : Assignment k) (x : Variable) :
    a.values.lookup x = lookup Literal.var Literal.isPositive a.literals.reverse x := by
  have hpass := lookup_foldl (fun (vs : List (Variable × Bool)) x => vs.lookup x)
    (fun vs (l : Literal) => lookup_setValue l.var l.isPositive vs) [] a.literals x
  exact hpass.trans Option.or_none

/-- The table gives a variable the sign of its last literal. -/
theorem lookup_values_eq_some_iff : a.values.lookup x = some positive ↔ a.LastSign x positive := by
  rw [lookup_values, lookup_reverse_eq_some_iff]
  constructor
  · rintro ⟨before, l, after, hsplit, rfl, rfl, hafter⟩
    exact ⟨before, after, by rwa [Literal.ofVar_var], hafter⟩
  · rintro ⟨before, after, hsplit, hafter⟩
    exact ⟨before, _, after, hsplit, Literal.var_ofVar .., Literal.isPositive_ofVar .., hafter⟩

end Clausal.Assignment
