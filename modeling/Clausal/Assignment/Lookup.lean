/-
  Clausal.Assignment.Lookup

  A list of literals seen from its variables: which variables it mentions, the part over a set of
  variables and the rest, and the value it gives a variable. Two readings of a value stand side by
  side. `value?` is the sign of the first literal over the variable; `values` collects all variables
  in ascending order, each with the sign of its last literal.
-/
import Clausal.Assignment.Basic

namespace Clausal.Assignment

variable {k : Kind}

/-! ## Mentioned variables -/

/-- The variable of each literal in storage order, repetitions included. -/
def vars (a : Assignment k) : List Variable :=
  a.literals.map Literal.var

/-- Whether some of the variables occurs. -/
def mentionsAny (a : Assignment k) (vs : List Variable) : Bool :=
  vs.any (· ∈ a.vars)

/-- Whether none of the variables occurs. -/
def mentionsNone (a : Assignment k) (vs : List Variable) : Bool :=
  vs.all (· ∉ a.vars)

theorem mentionsNone_eq_not_mentionsAny (a : Assignment k) (vs : List Variable) :
    a.mentionsNone vs = !a.mentionsAny vs := by
  simp [mentionsNone, mentionsAny, ← List.not_any_eq_all_not]

theorem mem_vars {a : Assignment k} {v : Variable} :
    v ∈ a.vars ↔ ∃ l ∈ a, l.var = v := by
  simp [vars, mem_def]

/-! ## Selection -/

/-- The literals over the given variables, in order. -/
def retain (a : Assignment k) (vs : List Variable) : Assignment k :=
  ⟨a.literals.filter (·.var ∈ vs)⟩

/-- The literals over other variables than the given ones, in order. -/
def remove (a : Assignment k) (vs : List Variable) : Assignment k :=
  ⟨a.literals.filter (·.var ∉ vs)⟩

@[simp] theorem mem_retain {a : Assignment k} {vs : List Variable} {l : Literal} :
    l ∈ a.retain vs ↔ l ∈ a ∧ l.var ∈ vs := by
  simp [retain, mem_def]

@[simp] theorem mem_remove {a : Assignment k} {vs : List Variable} {l : Literal} :
    l ∈ a.remove vs ↔ l ∈ a ∧ l.var ∉ vs := by
  simp [remove, mem_def]

/-! ## Values -/

/-- The position of the first literal over a variable. -/
def indexOf? (a : Assignment k) (v : Variable) : Option Nat :=
  a.literals.findIdx? (·.var = v)

/-- The sign of the first literal over a variable. -/
def value? (a : Assignment k) (v : Variable) : Option Bool :=
  (a.literals.find? (·.var = v)).map Literal.isPositive

/-- Give a variable a value in a list that is sorted by variable. -/
def setValue (v : Variable) (b : Bool) : List (Variable × Bool) → List (Variable × Bool)
  | [] => [(v, b)]
  | (w, c) :: rest =>
    if v.index < w.index then (v, b) :: (w, c) :: rest
    else if v = w then (v, b) :: rest
    else (w, c) :: setValue v b rest

/-- The variables that occur, in ascending order, each with the sign of its last literal. -/
def values (a : Assignment k) : List (Variable × Bool) :=
  a.literals.foldl (fun vs l => setValue l.var l.isPositive vs) []

/-- The variables of a sorted list of values stay sorted when a value is set. -/
theorem pairwise_setValue {v : Variable} {b : Bool} {vs : List (Variable × Bool)}
    (h : vs.Pairwise fun p q => p.1.index < q.1.index) :
    (setValue v b vs).Pairwise fun p q => p.1.index < q.1.index := by
  have hmem : ∀ {vs : List (Variable × Bool)}, ∀ p ∈ setValue v b vs, p.1 = v ∨ p ∈ vs := by
    intro vs
    induction vs with
    | nil => simp [setValue]
    | cons q rest ih =>
      intro p hp
      unfold setValue at hp
      split at hp
      · rcases List.mem_cons.1 hp with rfl | hp
        · exact .inl rfl
        · exact .inr hp
      · split at hp
        · rcases List.mem_cons.1 hp with rfl | hp
          · exact .inl rfl
          · exact .inr (List.mem_cons_of_mem _ hp)
        · rcases List.mem_cons.1 hp with rfl | hp
          · exact .inr List.mem_cons_self
          · exact (ih p hp).imp_right (List.mem_cons_of_mem _)
  induction vs with
  | nil => simp [setValue]
  | cons q rest ih =>
    obtain ⟨hq, hrest⟩ := List.pairwise_cons.1 h
    unfold setValue
    split
    · next hlt =>
      refine List.pairwise_cons.2 ⟨fun p hp => ?_, h⟩
      rcases List.mem_cons.1 hp with rfl | hp
      · exact hlt
      · exact Nat.lt_trans hlt (hq p hp)
    · split
      · next heq => exact List.pairwise_cons.2 ⟨fun p hp => heq ▸ hq p hp, hrest⟩
      · next hnlt hne =>
        refine List.pairwise_cons.2 ⟨fun p hp => ?_, ih hrest⟩
        rcases hmem p hp with rfl | hp
        · have : p.1.index ≠ q.1.index := fun h => hne (Variable.ext_index h)
          simp only at hnlt ⊢
          omega
        · exact hq p hp

end Clausal.Assignment
