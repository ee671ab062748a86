/-
  Clausal.Computation

  Deferred computations: values, tasks that may fail, and the ways to build on them. A computation
  is a description; nothing happens before it is run. Each function in it carries a label, and a run
  yields the labels of the functions that ran together with the result.

  Both sides of a join always run, and the failure of the left side is reported before that of the
  right. A function that builds on another computation runs only if that one succeeded.
-/

namespace Clausal

/-- A deferred computation of a value, with labels `ι` and failures `ε`. -/
inductive Computation (ι ε : Type) : Type → Type 1 where
  /-- A known value. -/
  | of {α : Type} (value : α) : Computation ι ε α
  /-- A function that yields a value or fails. -/
  | task {α : Type} (label : ι) (body : Unit → Except ε α) : Computation ι ε α
  /-- A function on the value of another computation. -/
  | map {α β : Type} (label : ι) (inner : Computation ι ε α) (f : α → β) : Computation ι ε β
  /-- Two independent computations. -/
  | join {α β : Type} (left : Computation ι ε α) (right : Computation ι ε β) :
      Computation ι ε (α × β)
  /-- A function that may fail on the value of another computation. -/
  | andThen {α β : Type} (label : ι) (inner : Computation ι ε α) (f : α → Except ε β) :
      Computation ι ε β

/-- What a run leaves: the labels of the functions that ran, and the value or failure. -/
structure Outcome (ι ε α : Type) where
  /-- The labels in the order in which their functions ran. -/
  trace : List ι
  /-- The value, or the failure that is reported. -/
  result : Except ε α

namespace Outcome

variable {ι ε α β : Type}

/-- Run a labelled function on the value of an outcome, if there is one. -/
def andThen (o : Outcome ι ε α) (label : ι) (f : α → Except ε β) : Outcome ι ε β :=
  match o.result with
  | .ok value => ⟨o.trace ++ [label], f value⟩
  | .error e => ⟨o.trace, .error e⟩

/-- The outcome of two computations, the left failure first. -/
def join (o : Outcome ι ε α) (p : Outcome ι ε β) : Outcome ι ε (α × β) where
  trace := o.trace ++ p.trace
  result := do
    let left ← o.result
    let right ← p.result
    return (left, right)

end Outcome

namespace Computation

variable {ι ε α β : Type}

/-- Run a computation, left sides before right sides. -/
def run : {α : Type} → Computation ι ε α → Outcome ι ε α
  | _, .of value => ⟨[], .ok value⟩
  | _, .task label body => ⟨[label], body ()⟩
  | _, .map label inner f => inner.run.andThen label fun value => .ok (f value)
  | _, .join left right => left.run.join right.run
  | _, .andThen label inner f => inner.run.andThen label f

end Computation

end Clausal
