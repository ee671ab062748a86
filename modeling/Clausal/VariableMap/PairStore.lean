/-
  Clausal.VariableMap.PairStore

  A numbering kept in a store of pairs. The store is a parameter: pairs of a variable and a name
  that can be searched from both sides. What it promises is little (`LawfulPairStore`). A pair that
  is put in pushes out every pair that shares its name or its variable, and nothing is said about
  the order in which pairs are listed. So a numbering without gaps is the doing of `add` alone,
  which puts a name in only if it is new and takes its index from the number of pairs.
-/
import Clausal.VariableMap

namespace Clausal

/-- Pairs of a variable and a name, searched from both sides. -/
class PairStore (β : Type) where
  /-- The store without pairs. -/
  empty : β
  /-- The store with one more pair, in place of those that share its name or its variable. -/
  insert : β → String → Variable → β
  /-- The variable paired with a name. -/
  index? : β → String → Option Variable
  /-- The name paired with a variable. -/
  name? : β → Variable → Option String
  /-- The number of pairs. -/
  size : β → Nat
  /-- The pairs in some order. -/
  pairs : β → List (Variable × String)

/-- What a store of pairs promises. -/
class LawfulPairStore (β : Type) [PairStore β] : Prop where
  index?_empty (name : String) : PairStore.index? (PairStore.empty : β) name = none
  name?_empty (v : Variable) : PairStore.name? (PairStore.empty : β) v = none
  size_empty : PairStore.size (PairStore.empty : β) = 0
  /-- The name gets the variable, and the name that had the variable loses it. -/
  index?_insert (b : β) (name : String) (v : Variable) (other : String) :
    PairStore.index? (PairStore.insert b name v) other =
      if other = name then some v
      else if PairStore.index? b other = some v then none
      else PairStore.index? b other
  /-- The variable gets the name, and the variable that had the name loses it. -/
  name?_insert (b : β) (name : String) (v w : Variable) :
    PairStore.name? (PairStore.insert b name v) w =
      if w = v then some name
      else if PairStore.name? b w = some name then none
      else PairStore.name? b w
  /-- If no pair is pushed out, there is one more. -/
  size_insert (b : β) (name : String) (v : Variable) :
    PairStore.index? b name = none → PairStore.name? b v = none →
      PairStore.size (PairStore.insert b name v) = PairStore.size b + 1
  /-- Each pair is listed once. -/
  nodup_pairs (b : β) : (PairStore.pairs b).Nodup
  mem_pairs_iff (b : β) (v : Variable) (name : String) :
    (v, name) ∈ PairStore.pairs b ↔ PairStore.index? b name = some v

namespace PairStore

variable {β : Type} [PairStore β]

/-- Give a name the next index unless it has a variable, and return its variable. There may be no
index left. -/
def add (b : β) (name : String) : Except RangeError (Variable × β) :=
  match index? b name with
  | some v => .ok (v, b)
  | none => do
    let v ← Variable.ofIndex (size b + 1)
    return (v, insert b name v)

/-- Add names from left to right. -/
def addAll (b : β) (names : List String) : Except RangeError β :=
  names.foldlM (fun b name => Prod.snd <$> add b name) b

/-- The store that names added from left to right build. -/
def ofNames (β : Type) [PairStore β] (names : List String) : Except RangeError β :=
  addAll empty names

/-- The indices with their names, in ascending order. -/
def entries (b : β) : List (Nat × String) :=
  ((pairs b).map fun p => (p.1.index, p.2)).mergeSort fun p q => p.1 ≤ q.1

/-- The store that the names, added in ascending order, build. -/
def sorted (b : β) : Except RangeError β :=
  ofNames β ((pairs b).map Prod.snd).mergeSort

end PairStore

end Clausal
