/-
  Clausal.ValueAssignment

  Lists of literals over names in place of indices. A name occurs at most once: writing a name a
  second time replaces its value and keeps its place (`ValueAssignment.insert`), so a list built
  from pairs has each name at its first pair with the value of its last.
-/
import Clausal.Assignment.Basic

namespace Clausal

/-- A name together with a sign. -/
structure NamedLiteral where
  /-- The name of the variable. -/
  name : String
  /-- Whether the literal is the variable itself. -/
  positive : Bool
deriving DecidableEq

/-- The name, behind a minus if the sign is negative. -/
def NamedLiteral.render (l : NamedLiteral) : String :=
  if l.positive then l.name else "-" ++ l.name

/-- The truth value of a named literal when every name has a value. -/
def NamedLiteral.holds (v : String → Bool) (l : NamedLiteral) : Bool :=
  v l.name == l.positive

/-- Literals over distinct names, read as their kind says. -/
structure ValueAssignment (kind : Kind) where
  /-- The literals in storage order. -/
  entries : List NamedLiteral
  nodup : (entries.map NamedLiteral.name).Nodup
deriving DecidableEq

namespace ValueAssignment

variable {k : Kind}

/-! ## Building -/

/-- Give a name a value: at its place if it has one, else at the end. -/
def setEntry (e : NamedLiteral) : List NamedLiteral → List NamedLiteral
  | [] => [e]
  | x :: xs => if x.name = e.name then e :: xs else x :: setEntry e xs

/-- Setting a value keeps the names and adds at most the given one, at the end. -/
theorem map_name_setEntry (e : NamedLiteral) (xs : List NamedLiteral) :
    (setEntry e xs).map NamedLiteral.name =
      if e.name ∈ xs.map NamedLiteral.name then xs.map NamedLiteral.name
      else xs.map NamedLiteral.name ++ [e.name] := by
  induction xs with
  | nil => simp [setEntry]
  | cons x xs ih =>
    unfold setEntry
    split
    · next h => simp [h]
    · next h =>
      have h' : ¬e.name = x.name := fun heq => h heq.symm
      simp only [List.map_cons, ih, List.mem_cons, h', false_or]
      split <;> rfl

theorem nodup_setEntry {e : NamedLiteral} {xs : List NamedLiteral}
    (h : (xs.map NamedLiteral.name).Nodup) : ((setEntry e xs).map NamedLiteral.name).Nodup := by
  rw [map_name_setEntry]
  split
  · exact h
  · next hmem =>
    refine List.nodup_append.2 ⟨h, by simp, fun a ha b hb heq => hmem ?_⟩
    rw [← List.mem_singleton.1 hb, ← heq]
    exact ha

/-- The list without literals. -/
def empty : ValueAssignment k := ⟨[], by simp⟩

/-- Give the name of a literal the literal's sign. -/
def insert (v : ValueAssignment k) (e : NamedLiteral) : ValueAssignment k :=
  ⟨setEntry e v.entries, nodup_setEntry v.nodup⟩

/-- The value assignment that literals inserted from left to right build. -/
def ofList (es : List NamedLiteral) : ValueAssignment k :=
  es.foldl insert empty

/-! ## Reading -/

/-- The number of names. -/
def size (v : ValueAssignment k) : Nat :=
  v.entries.length

/-- Whether there is no name. -/
def isEmpty (v : ValueAssignment k) : Bool :=
  v.entries.isEmpty

/-- The value of a name, if it has one. -/
def get? (v : ValueAssignment k) (name : String) : Option Bool :=
  (v.entries.find? (·.name = name)).map NamedLiteral.positive

/-- The same literals under another reading. -/
def toKind (k' : Kind) (v : ValueAssignment k) : ValueAssignment k' := ⟨v.entries, v.nodup⟩

/-- Setting a value is seen by the next reading of that name and by no other. -/
theorem get?_insert (v : ValueAssignment k) (e : NamedLiteral) (name : String) :
    (v.insert e).get? name = if e.name = name then some e.positive else v.get? name := by
  obtain ⟨xs, hxs⟩ := v
  simp only [get?, insert]
  clear hxs
  induction xs with
  | nil => by_cases h : e.name = name <;> simp [setEntry, h]
  | cons x xs ih =>
    by_cases hx : x.name = e.name
    · by_cases h : e.name = name <;> simp [setEntry, hx, h]
    · rw [setEntry, if_neg hx, List.find?_cons, List.find?_cons]
      by_cases hxn : x.name = name
      · have hne : ¬e.name = name := fun h => hx (hxn.trans h.symm)
        simp [hxn, hne]
      · simpa [hxn] using ih

/-! ## Text -/

/-- The kind and the literals between brackets, as in `ValueClause[a, -b]`. -/
def render (v : ValueAssignment k) : String :=
  "Value" ++ k.name ++ "[" ++ ", ".intercalate (v.entries.map NamedLiteral.render) ++ "]"

instance : ToString (ValueAssignment k) := ⟨render⟩

end ValueAssignment

end Clausal
