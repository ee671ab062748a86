/-
  Clausal.Computation.Execution

  The executions of a computation that are possible when the two sides of a join run at the same
  time: the functions of one side may run before, after or between those of the other. `Execution`
  relates a computation to every outcome it may have; the run that takes left sides first is one of
  them (`execution_run`). An execution consists of executions of the parts
  (`execution_iff_unfolds`).
-/
import Clausal.Computation
import Clausal.Interleaving

namespace Clausal

variable {ι ε : Type}

/-- The outcomes that a computation may have. -/
inductive Execution : {α : Type} → Computation ι ε α → Outcome ι ε α → Prop where
  /-- A known value is there at once. -/
  | of {α : Type} (value : α) : Execution (.of value) ⟨[], .ok value⟩
  /-- A task runs its function. -/
  | task {α : Type} (label : ι) (body : Unit → Except ε α) :
      Execution (.task label body) ⟨[label], body ()⟩
  /-- The function runs after the inner computation, if that succeeded. -/
  | map {α β : Type} {label : ι} {inner : Computation ι ε α} {f : α → β} {o : Outcome ι ε α} :
      Execution inner o → Execution (.map label inner f) (o.andThen label fun x => .ok (f x))
  /-- Both sides run, in any interleaving. -/
  | join {α β : Type} {left : Computation ι ε α} {right : Computation ι ε β} {o : Outcome ι ε α}
      {p : Outcome ι ε β} {trace : List ι} :
      Execution left o → Execution right p → Interleaving o.trace p.trace trace →
      Execution (.join left right) ⟨trace, (o.join p).result⟩
  /-- The function runs after the inner computation, if that succeeded. -/
  | andThen {α β : Type} {label : ι} {inner : Computation ι ε α} {f : α → Except ε β}
      {o : Outcome ι ε α} : Execution inner o →
      Execution (.andThen label inner f) (o.andThen label f)

/-- Running left sides first is an execution. -/
theorem execution_run : {α : Type} → (c : Computation ι ε α) → Execution c c.run
  | _, .of value => .of value
  | _, .task label body => .task label body
  | _, .map _ inner _ => .map (execution_run inner)
  | _, .join left right => .join (execution_run left) (execution_run right) (.append _ _)
  | _, .andThen _ inner _ => .andThen (execution_run inner)

/-! ## Executions of the parts -/

/-- The outcome is one that executions of the parts of the computation lead to. -/
def Computation.Unfolds : {α : Type} → Computation ι ε α → Outcome ι ε α → Prop
  | _, .of value, o => o = ⟨[], .ok value⟩
  | _, .task label body, o => o = ⟨[label], body ()⟩
  | _, .map label inner f, o => ∃ p, Execution inner p ∧ o = p.andThen label fun x => .ok (f x)
  | _, .join left right, o =>
    ∃ p q, Execution left p ∧ Execution right q ∧ Interleaving p.trace q.trace o.trace ∧
      o.result = (p.join q).result
  | _, .andThen label inner f, o => ∃ p, Execution inner p ∧ o = p.andThen label f

-- Equal types of pairs need not have equal components, so `cases` does not open an execution of a
-- given join. It does if the computation is a variable.
theorem execution_iff_unfolds {α : Type} {c : Computation ι ε α} {o : Outcome ι ε α} :
    Execution c o ↔ c.Unfolds o := by
  constructor
  · intro h
    cases h with
    | of value => rfl
    | task label body => rfl
    | map hinner => exact ⟨_, hinner, rfl⟩
    | join hleft hright htrace => exact ⟨_, _, hleft, hright, htrace, rfl⟩
    | andThen hinner => exact ⟨_, hinner, rfl⟩
  · intro h
    cases c with
    | of value => exact h ▸ .of value
    | task label body => exact h ▸ .task label body
    | map label inner f =>
      obtain ⟨p, hinner, rfl⟩ := h
      exact hinner.map
    | join left right =>
      obtain ⟨trace, result⟩ := o
      obtain ⟨p, q, hleft, hright, htrace, rfl⟩ := h
      exact hleft.join hright htrace
    | andThen label inner f =>
      obtain ⟨p, hinner, rfl⟩ := h
      exact hinner.andThen

theorem execution_join_iff {α β : Type} {left : Computation ι ε α} {right : Computation ι ε β}
    {o : Outcome ι ε (α × β)} :
    Execution (.join left right) o ↔
      ∃ p q, Execution left p ∧ Execution right q ∧ Interleaving p.trace q.trace o.trace ∧
        o.result = (p.join q).result :=
  execution_iff_unfolds

theorem execution_andThen_iff {α β : Type} {label : ι} {inner : Computation ι ε α}
    {f : α → Except ε β} {o : Outcome ι ε β} :
    Execution (.andThen label inner f) o ↔ ∃ p, Execution inner p ∧ o = p.andThen label f :=
  execution_iff_unfolds

end Clausal
