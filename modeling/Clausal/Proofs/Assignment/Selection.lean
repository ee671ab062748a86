/-
  Clausal.Proofs.Assignment.Selection

  Selecting literals by their variables. The literals over given variables and the others are what
  the list is dealt into, and there is no other way to deal it out (`isSplit_iff`): every position
  goes to one side, and both sides are in the order of the list. A selection looks at variables
  only, so it makes no difference whether signs are flipped or repetitions are dropped before it or
  after it.

  Whether a variable occurs can be asked in several ways: in one pass over the literals, by the
  position of the first literal over it, or by its value. The answers are the same, and they say
  whether a selection finds anything.
-/
import Clausal.Assignment.Lookup
import Clausal.Assignment.Scan
import Clausal.Interleaving

namespace Clausal.Assignment

variable {k : Kind} {a b c : Assignment k} {vs ws : List Variable} {v : Variable}

/-! ## Looking for a variable -/

theorem isSome_indexOf?_iff : (a.indexOf? v).isSome ↔ v ∈ a.vars := by
  simp [indexOf?, List.findIdx?_isSome, vars]

theorem isSome_value?_iff : (a.value? v).isSome ↔ v ∈ a.vars := by
  simp [value?, vars]

/-- The value of a variable is the sign that stands at its first position. -/
theorem value?_eq_bind_indexOf? (a : Assignment k) (v : Variable) :
    a.value? v = (a.indexOf? v).bind fun i => a.literals[i]?.map Literal.isPositive := by
  obtain ⟨ls⟩ := a
  simp only [value?, indexOf?]
  induction ls with
  | nil => rfl
  | cons l ls ih =>
    by_cases hl : l.var = v
    · simp [List.findIdx?_cons, hl]
    · -- The first position moves with the literals behind this one.
      simpa [List.findIdx?_cons, hl, Option.bind_map, Function.comp_def] using ih

theorem mentionsAny_iff : a.mentionsAny vs = true ↔ ∃ v ∈ vs, v ∈ a.vars := by
  simp [mentionsAny]

theorem mentionsAny_iff_exists_literal : a.mentionsAny vs = true ↔ ∃ l ∈ a, l.var ∈ vs := by
  simp only [mentionsAny_iff, mem_vars]
  constructor
  · rintro ⟨_, hv, l, hl, rfl⟩
    exact ⟨l, hl, hv⟩
  · rintro ⟨l, hl, hv⟩
    exact ⟨l.var, hv, l, hl, rfl⟩

/-- Variables are looked for one by one. -/
theorem mentionsAny_eq_any_indexOf? (a : Assignment k) (vs : List Variable) :
    a.mentionsAny vs = vs.any fun v => (a.indexOf? v).isSome := by
  rw [Bool.eq_iff_iff, mentionsAny_iff, List.any_eq_true]
  simp only [isSome_indexOf?_iff]

theorem mentionsNone_eq_all_indexOf? (a : Assignment k) (vs : List Variable) :
    a.mentionsNone vs = vs.all fun v => (a.indexOf? v).isNone := by
  rw [mentionsNone_eq_not_mentionsAny, mentionsAny_eq_any_indexOf?, List.not_any_eq_all_not]
  simp only [Option.not_isSome]

/-! ## Dealing out -/

/-- The list is dealt into a list over the given variables and one over others. -/
structure IsSplit (a : Assignment k) (vs : List Variable) (b c : Assignment k) : Prop where
  interleaving : Interleaving b.literals c.literals a.literals
  var_mem : ∀ l ∈ b, l.var ∈ vs
  var_not_mem : ∀ l ∈ c, l.var ∉ vs

/-- The only way to deal a list out by variables is into the literals that are retained and those
that are left when they are removed. -/
theorem isSplit_iff : a.IsSplit vs b c ↔ b = a.retain vs ∧ c = a.remove vs := by
  have hfilter : (Interleaving b.literals c.literals a.literals ∧ (∀ l ∈ b, l.var ∈ vs) ∧
      ∀ l ∈ c, l.var ∉ vs) ↔
      b.literals = (a.retain vs).literals ∧ c.literals = (a.remove vs).literals :=
    interleaving_iff_filter
  constructor
  · rintro ⟨hinterleaving, hb, hc⟩
    obtain ⟨hretain, hremove⟩ := hfilter.1 ⟨hinterleaving, hb, hc⟩
    exact ⟨ext_literals hretain, ext_literals hremove⟩
  · rintro ⟨rfl, rfl⟩
    obtain ⟨hinterleaving, hb, hc⟩ := hfilter.2 ⟨rfl, rfl⟩
    exact ⟨hinterleaving, hb, hc⟩

/-- One pass deals the list out. -/
theorem partition_literals (a : Assignment k) (vs : List Variable) :
    a.literals.partition (·.var ∈ vs) = ((a.retain vs).literals, (a.remove vs).literals) := by
  rw [List.partition_eq_filter_filter, retain, remove]
  congr 2
  funext l
  exact (decide_not ..).symm

/-! ## Removing in turn -/

theorem remove_remove (a : Assignment k) (vs ws : List Variable) :
    (a.remove vs).remove ws = a.remove (vs ++ ws) := by
  apply ext_literals
  rw [remove, remove, List.filter_filter, remove]
  apply List.filter_congr
  intro l _
  simp [Bool.and_comm]

theorem remove_comm (a : Assignment k) (vs ws : List Variable) :
    (a.remove vs).remove ws = (a.remove ws).remove vs := by
  apply ext_literals
  rw [remove, remove, List.filter_filter, remove, remove, List.filter_filter]
  apply List.filter_congr
  intro l _
  exact Bool.and_comm ..

/-! ## Signs and repetitions -/

theorem negate_retain (a : Assignment k) (vs : List Variable) :
    (a.retain vs).negate = a.negate.retain vs := by
  apply ext_literals
  simp [negate, retain, List.filter_map, Function.comp_def]

theorem negate_remove (a : Assignment k) (vs : List Variable) :
    (a.remove vs).negate = a.negate.remove vs := by
  apply ext_literals
  simp [negate, remove, List.filter_map, Function.comp_def]

/-- What is selected from a list that does not contradict itself has a clean form, which is selected
from the clean form of the list. -/
theorem clean?_filter (h : a.clean? = some b) (p : Literal → Bool) :
    (⟨a.literals.filter p⟩ : Assignment k).clean? = some ⟨b.literals.filter p⟩ := by
  obtain ⟨hconsistent, hb⟩ := clean?_eq_some_iff.1 h
  refine clean?_eq_some_iff.2 ⟨?_, ?_⟩
  · intro l hl hneg
    exact hconsistent l (List.mem_filter.1 hl).1 (List.mem_filter.1 hneg).1
  · rw [hb, eraseDups_filter]

/-! ## Finding something -/

theorem isEmpty_retain_eq_false_iff :
    (a.retain vs).isEmpty = false ↔ a.mentionsAny vs = true := by
  rw [mentionsAny_iff_exists_literal, isEmpty, List.isEmpty_eq_false_iff_exists_mem]
  simp only [← mem_def, mem_retain]

theorem remove_eq_self_iff : a.remove vs = a ↔ ∀ l ∈ a, l.var ∉ vs := by
  constructor
  · intro h l hl
    rw [← h] at hl
    exact (mem_remove.1 hl).2
  · intro h
    apply ext_literals
    rw [remove, List.filter_eq_self]
    intro l hl
    exact decide_eq_true (h l hl)

theorem remove_ne_self_iff : a.remove vs ≠ a ↔ a.mentionsAny vs = true := by
  rw [Ne, remove_eq_self_iff, mentionsAny_iff_exists_literal]
  simp

theorem exists_isSome_value?_iff :
    (∃ v ∈ vs, (a.value? v).isSome) ↔ a.mentionsAny vs = true := by
  simp only [isSome_value?_iff, mentionsAny_iff]

/-! ## Selecting by variables -/

/-- Selecting by variables deals a list out, in one pass and in no other way: each literal goes to
the one side if its variable is given and to the other side if not, and both sides keep the order.
Removing variables in turn is removing all of them, in either order. Negation and cleaning can come
before a selection or after it. Looking for the variables one by one tells what the selection does:
if some of them is found, then some literal is retained, some is removed, and some of the variables
has a value; otherwise none of this is so. -/
theorem retain_remove_split (a : Assignment k) (vs ws : List Variable) :
    (∀ b c, a.IsSplit vs b c ↔ b = a.retain vs ∧ c = a.remove vs) ∧
    a.literals.partition (·.var ∈ vs) = ((a.retain vs).literals, (a.remove vs).literals) ∧
    (a.remove vs).remove ws = a.remove (vs ++ ws) ∧
    (a.remove vs).remove ws = (a.remove ws).remove vs ∧
    (a.retain vs).negate = a.negate.retain vs ∧ (a.remove vs).negate = a.negate.remove vs ∧
    (∀ b, a.clean? = some b → (a.retain vs).clean? = some (b.retain vs) ∧
      (a.remove vs).clean? = some (b.remove vs)) ∧
    (a.mentionsAny vs = (vs.any fun v => (a.indexOf? v).isSome) ∧
      a.mentionsNone vs = (vs.all fun v => (a.indexOf? v).isNone) ∧
      ∀ v, a.value? v = (a.indexOf? v).bind fun i => a.literals[i]?.map Literal.isPositive) ∧
    (a.mentionsNone vs = false ↔ a.mentionsAny vs = true) ∧
    ((a.retain vs).isEmpty = false ↔ a.mentionsAny vs = true) ∧
    (a.remove vs ≠ a ↔ a.mentionsAny vs = true) ∧
    ((∃ v ∈ vs, (a.value? v).isSome) ↔ a.mentionsAny vs = true) := by
  refine ⟨fun b c => isSplit_iff, a.partition_literals vs, a.remove_remove vs ws,
    a.remove_comm vs ws, a.negate_retain vs, a.negate_remove vs, ?_, ?_, ?_,
    isEmpty_retain_eq_false_iff, remove_ne_self_iff, exists_isSome_value?_iff⟩
  · intro b hb
    exact ⟨clean?_filter hb _, clean?_filter hb _⟩
  · exact ⟨a.mentionsAny_eq_any_indexOf? vs, a.mentionsNone_eq_all_indexOf? vs,
      a.value?_eq_bind_indexOf?⟩
  · rw [mentionsNone_eq_not_mentionsAny, Bool.not_eq_false']

/-- A list that repeats two of its literals, of which one is selected, by variables that are given
twice. -/
theorem retain_remove_split_repeated :
    ∃ (a b : Assignment .plain) (vs : List Variable),
      a.literals.map Literal.toInt = [3, -1, 3, 2, -1] ∧ vs.map Variable.index = [1, 4, 1] ∧
      a.clean? = some b ∧ b.literals.map Literal.toInt = [3, -1, 2] ∧
      (a.retain vs).literals.map Literal.toInt = [-1, -1] ∧
      (a.remove vs).literals.map Literal.toInt = [3, 3, 2] ∧
      (a.retain vs).clean? = some (b.retain vs) ∧ (a.remove vs).clean? = some (b.remove vs) := by
  let x : Variable := ⟨1, by decide, by decide⟩
  let y : Variable := ⟨2, by decide, by decide⟩
  let z : Variable := ⟨3, by decide, by decide⟩
  let w : Variable := ⟨4, by decide, by decide⟩
  let a : Assignment .plain :=
    ⟨[.ofVar z true, .ofVar x false, .ofVar z true, .ofVar y true, .ofVar x false]⟩
  let b : Assignment .plain := ⟨[.ofVar z true, .ofVar x false, .ofVar y true]⟩
  have hb : a.clean? = some b := by decide
  obtain ⟨-, -, -, -, -, -, hclean, -⟩ := retain_remove_split a [x, w, x] []
  exact ⟨a, b, [x, w, x], by decide, by decide, hb, by decide, by decide, by decide, hclean b hb⟩

end Clausal.Assignment
