/-
  Clausal.Assignment.Basic

  Lists of literals and the algebra that does not look at variable names: union, negation, counting
  of conflicts and cleaning. One list has three readings, its kind: a plain set, the disjunction of
  a clause, the conjunction of a solution. Literals may repeat and contradict each other; order is
  kept and is part of every result.

  The view of a list is membership (`l ∈ a`). Conflicts and cleaning are both stated over it:
  `conflictsWith_iff` and `clean?_eq_none_iff`.
-/
import Clausal.Literal

namespace Clausal

/-- How a list of literals is read. -/
inductive Kind where
  /-- A set of literals without a connective. -/
  | plain
  /-- The disjunction of the literals, false when empty. -/
  | clause
  /-- The conjunction of the literals, true when empty. -/
  | solution
deriving DecidableEq

/-- The word for lists of a kind. -/
def Kind.name : Kind → String
  | .plain => "Assignment"
  | .clause => "Clause"
  | .solution => "Solution"

/-- A list of literals that is read as its kind says. -/
structure Assignment (kind : Kind) where
  /-- The literals in storage order. -/
  literals : List Literal
deriving DecidableEq

/-- A disjunction of literals. -/
abbrev Clause := Assignment .clause

/-- A conjunction of literals, that is, a possibly partial choice of values. -/
abbrev Solution := Assignment .solution

namespace Assignment

variable {k k' : Kind}

instance : Membership Literal (Assignment k) := ⟨fun a l => l ∈ a.literals⟩

theorem mem_def {l : Literal} {a : Assignment k} : l ∈ a ↔ l ∈ a.literals := Iff.rfl

instance (l : Literal) (a : Assignment k) : Decidable (l ∈ a) :=
  inferInstanceAs (Decidable (l ∈ a.literals))

theorem ext_literals {a b : Assignment k} (h : a.literals = b.literals) : a = b := by
  cases a; cases b; cases h; rfl

/-- The list without literals. -/
def empty : Assignment k := ⟨[]⟩

/-- The number of stored literals, repetitions included. -/
def size (a : Assignment k) : Nat :=
  a.literals.length

/-- Whether no literal is stored. -/
def isEmpty (a : Assignment k) : Bool :=
  a.literals.isEmpty

/-- The same literals under another reading. -/
def toKind (k' : Kind) (a : Assignment k) : Assignment k' := ⟨a.literals⟩

@[simp] theorem mem_toKind {l : Literal} {a : Assignment k} : l ∈ a.toKind k' ↔ l ∈ a := Iff.rfl

/-! ## Union -/

/-- The literals of all the lists, each at its first occurrence. -/
def merge (as : List (Assignment k)) : Assignment k :=
  ⟨(as.flatMap literals).eraseDups⟩

@[simp] theorem mem_merge {l : Literal} {as : List (Assignment k)} :
    l ∈ merge as ↔ ∃ a ∈ as, l ∈ a := by
  simp [merge, mem_def]

/-! ## Negation -/

/-- Every literal with its sign flipped, in place. -/
def negate (a : Assignment k) : Assignment k :=
  ⟨a.literals.map (-·)⟩

@[simp] theorem mem_negate {l : Literal} {a : Assignment k} : l ∈ a.negate ↔ -l ∈ a := by
  simp only [negate, mem_def, List.mem_map]
  constructor
  · rintro ⟨m, hm, rfl⟩
    simpa using hm
  · exact fun h => ⟨-l, h, Literal.neg_neg l⟩

@[simp] theorem negate_negate (a : Assignment k) : a.negate.negate = a :=
  ext_literals (by simp [negate, Function.comp_def])

/-! ## Conflicts -/

/-- How many of the given literals, counted by position, occur negated in the list. -/
def countConflicts (a : Assignment k) (ls : List Literal) : Nat :=
  ls.countP (-· ∈ a)

/-- Whether some literal of one list occurs negated in the other. -/
def conflictsWith (a : Assignment k) (b : Assignment k') : Bool :=
  0 < a.countConflicts b.literals

theorem conflictsWith_iff {a : Assignment k} {b : Assignment k'} :
    a.conflictsWith b = true ↔ ∃ l ∈ b, -l ∈ a := by
  simp [conflictsWith, countConflicts, List.countP_pos_iff, mem_def]

/-! ## Cleaning -/

/-- Whether the list holds some literal together with its negation. -/
def isContradictory (a : Assignment k) : Bool :=
  a.literals.any (-· ∈ a)

theorem isContradictory_iff {a : Assignment k} :
    a.isContradictory = true ↔ ∃ l ∈ a, -l ∈ a := by
  simp [isContradictory, mem_def]

/-- The list with each literal at its first occurrence only, if no literal contradicts another. -/
def clean? (a : Assignment k) : Option (Assignment k) :=
  if a.isContradictory then none else some ⟨a.literals.eraseDups⟩

/-- Exactly the contradictory lists have no clean form. -/
theorem clean?_eq_none_iff {a : Assignment k} : a.clean? = none ↔ ∃ l ∈ a, -l ∈ a := by
  simp [clean?, ← isContradictory_iff]

theorem isSome_clean?_iff {a : Assignment k} : a.clean?.isSome ↔ ∀ l ∈ a, -l ∉ a := by
  rw [Option.isSome_iff_ne_none, Ne, clean?_eq_none_iff]
  simp

theorem mem_of_clean?_eq_some {a b : Assignment k} (h : a.clean? = some b) {l : Literal} :
    l ∈ b ↔ l ∈ a := by
  unfold clean? at h
  split at h
  · simp at h
  · cases h
    simp [mem_def]

/-! ## Text -/

/-- The kind and the literals between brackets, as in `BooleanClause[1, -2]`. -/
def render (a : Assignment k) : String :=
  "Boolean" ++ k.name ++ "[" ++ ", ".intercalate (a.literals.map toString) ++ "]"

instance : ToString (Assignment k) := ⟨render⟩

end Assignment

end Clausal
