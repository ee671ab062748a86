/-
  Clausal.Proofs.Computation.Calls

  What a computation calls and what comes of it, whichever side of each join is executed first. The
  functions that are called, each with its failure if it fails, depend on the computation alone
  (`Computation.calls`): every task, and every other function whose inner computation has a value.
  They are listed left sides before right sides and inner ones before outer ones. Every execution
  calls these functions and no others, in an order of its own (`Execution.perm_trace`), and ends
  with the failure of the first one in the list that fails, or with the value composed from the
  leaves if none fails (`Execution.explains`).

  When all functions have labels of their own, a label in a trace stands for one function. So the
  trace says that every task is called exactly once (`Execution.count_trace_task`), and so is every
  function whose inner computation succeeds, while the others are not called at all
  (`Execution.count_trace_continuation`).
-/
import Clausal.Computation.Execution
import Clausal.Proofs.Collect
import Mathlib.Data.List.Nodup

namespace Clausal

variable {ι ε α β γ : Type}

/-! ## Results and outcomes -/

theorem eq_ok_iff_toOption {result : Except ε α} {x : α} :
    result = .ok x ↔ result.toOption = some x := by
  cases result <;> simp [Except.toOption]

namespace Outcome

@[simp] theorem result_andThen (o : Outcome ι ε α) (label : ι) (f : α → Except ε β) :
    (o.andThen label f).result = o.result >>= f := by
  unfold andThen
  cases o.result <;> rfl

/-- The function is called when there is a value. -/
theorem trace_andThen (o : Outcome ι ε α) (label : ι) (f : α → Except ε β) :
    (o.andThen label f).trace = o.trace ++ (o.result.toOption.map fun _ => label).toList := by
  unfold andThen
  cases o.result with
  | ok x => rfl
  | error e => exact (List.append_nil _).symm

section Parts

variable {o : Outcome ι ε α} {p : Outcome ι ε β}

/-- A function on the value of an outcome is called last, and only if there is a value. -/
theorem eq_andThen_iff {label : ι} {f : α → Except ε β} :
    p = o.andThen label f ↔
      p.trace = o.trace ++ (if o.result.isOk then [label] else []) ∧
      (∀ e, o.result = .error e → p.result = .error e) ∧
      ∀ x, o.result = .ok x → p.result = f x := by
  obtain ⟨trace, result⟩ := p
  obtain ⟨inner, value⟩ := o
  cases value <;> simp [andThen, Except.isOk, Except.toBool]

theorem join_result_eq_ok_iff {x : α} {y : β} :
    (o.join p).result = .ok (x, y) ↔ o.result = .ok x ∧ p.result = .ok y := by
  rw [join]
  cases o.result <;> cases p.result <;> simp [bind, Except.bind, pure, Except.pure]

theorem join_result_eq_error_iff {e : ε} :
    (o.join p).result = .error e ↔
      o.result = .error e ∨ ∃ x, o.result = .ok x ∧ p.result = .error e := by
  rw [join]
  cases o.result <;> cases p.result <;> simp [bind, Except.bind, pure, Except.pure]

theorem isOk_join_result : (o.join p).result.isOk = (o.result.isOk && p.result.isOk) := by
  rw [join]
  cases o.result <;> cases p.result <;> rfl

/-- The failure of the left side hides that of the right side. -/
theorem failureOf?_join_result :
    failureOf? (o.join p).result = (failureOf? o.result).or (failureOf? p.result) := by
  rw [join]
  cases o.result <;> cases p.result <;> rfl

/-- The result of a join is known from when it is a pair of values and from what it fails with. -/
theorem eq_join_result_iff {result : Except ε (α × β)} :
    result = (o.join p).result ↔
      (∀ x y, result = .ok (x, y) ↔ o.result = .ok x ∧ p.result = .ok y) ∧
      failureOf? result = (failureOf? o.result).or (failureOf? p.result) := by
  simp only [← join_result_eq_ok_iff, ← failureOf?_join_result]
  constructor
  · rintro rfl
    exact ⟨fun _ _ => .rfl, rfl⟩
  · rintro ⟨hvalue, hfailure⟩
    cases h : (o.join p).result with
    | error e =>
      rw [h] at hfailure
      exact eq_error_iff_failureOf?.2 hfailure
    | ok pair => exact (hvalue pair.1 pair.2).2 h

end Parts

end Outcome

/-! ## Calls -/

/-- A function that is called, with its failure if it fails. -/
structure Call (ι ε : Type) where
  /-- The label of the function. -/
  label : ι
  /-- What the function fails with. -/
  failure? : Option ε

namespace Computation

/-- The value composed from the leaves, if every function on the way to it succeeds. -/
def value? : {α : Type} → Computation ι ε α → Option α
  | _, .of value => some value
  | _, .task _ body => (body ()).toOption
  | _, .map _ inner f => inner.value?.map f
  | _, .join left right => left.value?.bind fun x => right.value?.map fun y => (x, y)
  | _, .andThen _ inner f => inner.value?.bind fun x => (f x).toOption

/-- The functions that are called, left sides before right sides and inner functions before outer
ones. -/
def calls : {α : Type} → Computation ι ε α → List (Call ι ε)
  | _, .of _ => []
  | _, .task label body => [⟨label, failureOf? (body ())⟩]
  | _, .map label inner _ => inner.calls ++ (inner.value?.map fun _ => ⟨label, none⟩).toList
  | _, .join left right => left.calls ++ right.calls
  | _, .andThen label inner f =>
    inner.calls ++ (inner.value?.map fun x => ⟨label, failureOf? (f x)⟩).toList

/-- The failure of the first function that fails. -/
def firstFailure? (c : Computation ι ε α) : Option ε :=
  c.calls.findSome? Call.failure?

/-- The labels of the functions that are called. -/
def called (c : Computation ι ε α) : List ι :=
  c.calls.map Call.label

theorem called_join (left : Computation ι ε α) (right : Computation ι ε β) :
    (join left right).called = left.called ++ right.called := by
  rw [called, calls, List.map_append, called, called]

/-- A function after a computation is called when there is a value to call it on. -/
theorem called_andThen (label : ι) (inner : Computation ι ε α) (f : α → Except ε β) :
    (andThen label inner f).called = inner.called ++ (inner.value?.map fun _ => label).toList := by
  rw [called, calls, List.map_append, ← Option.toList_map, Option.map_map, called]
  rfl

theorem called_map (label : ι) (inner : Computation ι ε α) (f : α → β) :
    (map label inner f).called = inner.called ++ (inner.value?.map fun _ => label).toList :=
  called_andThen label inner fun x => .ok (f x)

/-! ## Results -/

/-- The result is the value of the computation if it has one, and otherwise its first failure. -/
structure Explains (c : Computation ι ε α) (result : Except ε α) : Prop where
  toOption_eq : result.toOption = c.value?
  failureOf?_eq : failureOf? result = c.firstFailure?

namespace Explains

variable {left : Computation ι ε α} {right : Computation ι ε β} {inner : Computation ι ε α}
  {r : Except ε α}

theorem of (x : α) : (Computation.of x : Computation ι ε α).Explains (.ok x) :=
  ⟨rfl, rfl⟩

theorem task (label : ι) (body : Unit → Except ε α) :
    (Computation.task label body).Explains (body ()) where
  toOption_eq := rfl
  failureOf?_eq := by rw [firstFailure?, calls, List.findSome?_singleton]

/-- A function after a computation fails if there is a value on which it fails. -/
theorem andThen (h : inner.Explains r) (label : ι) (f : α → Except ε β) :
    (Computation.andThen label inner f).Explains (r >>= f) := by
  obtain ⟨hvalue, hfailure⟩ := h
  constructor
  · rw [value?, ← hvalue]
    cases r <;> rfl
  · rw [firstFailure?, calls, List.findSome?_append, ← hvalue]
    rw [firstFailure?] at hfailure
    rw [← hfailure]
    cases r with
    | ok x => exact List.findSome?_singleton.symm
    | error e => rfl

theorem map (h : inner.Explains r) (label : ι) (f : α → β) :
    (Computation.map label inner f).Explains (r >>= fun x => .ok (f x)) := by
  obtain ⟨hvalue, hfailure⟩ := h.andThen label fun x => (.ok (f x) : Except ε β)
  refine ⟨?_, hfailure⟩
  rw [hvalue, value?, value?]
  cases inner.value? <;> rfl

/-- The failure of the left side hides that of the right side. -/
theorem join {o : Outcome ι ε α} {p : Outcome ι ε β} (hleft : left.Explains o.result)
    (hright : right.Explains p.result) :
    (Computation.join left right).Explains (o.join p).result := by
  obtain ⟨hlv, hlf⟩ := hleft
  obtain ⟨hrv, hrf⟩ := hright
  constructor
  · rw [value?, ← hlv, ← hrv, Outcome.join]
    cases o.result <;> cases p.result <;> rfl
  · rw [firstFailure?] at hlf hrf
    rw [firstFailure?, calls, List.findSome?_append, ← hlf, ← hrf]
    exact Outcome.failureOf?_join_result

end Explains

end Computation

namespace Execution

variable {c : Computation ι ε α} {o : Outcome ι ε α}

/-- Every execution ends with the same result, whichever side of a join is executed first. -/
theorem explains (h : Execution c o) : c.Explains o.result := by
  induction h with
  | of value => exact .of value
  | task label body => exact .task label body
  | map _ ih =>
    rw [Outcome.result_andThen]
    exact ih.map _ _
  | join _ _ _ ihl ihr => exact ihl.join ihr
  | andThen _ ih =>
    rw [Outcome.result_andThen]
    exact ih.andThen _ _

/-- Every execution calls the functions of the computation, each as often as it is listed. -/
theorem perm_trace (h : Execution c o) : o.trace.Perm c.called := by
  induction h with
  | of value => exact .refl _
  | task label body => exact .refl _
  | map hinner ih =>
    rw [Outcome.trace_andThen, hinner.explains.toOption_eq, Computation.called_map]
    exact ih.append (.refl _)
  | join _ _ htrace ihl ihr =>
    rw [Computation.called_join]
    exact htrace.perm.trans (ihl.append ihr)
  | andThen hinner ih =>
    rw [Outcome.trace_andThen, hinner.explains.toOption_eq, Computation.called_andThen]
    exact ih.append (.refl _)

end Execution

/-! ## Parts -/

section Disjoint

variable {x : ι} {xs ys us vs : List ι}

/-- A member of the first of two lists that share none is not among members of the second. -/
theorem mem_left_of_mem_append (h : (xs ++ ys).Nodup) (hvs : vs ⊆ ys) (hx : x ∈ xs)
    (hmem : x ∈ us ++ vs) : x ∈ us := by
  have hdisjoint := List.disjoint_of_nodup_append h
  rcases List.mem_append.1 hmem with hmem | hmem
  · exact hmem
  · exact absurd (hvs hmem) (hdisjoint hx)

theorem mem_right_of_mem_append (h : (xs ++ ys).Nodup) (hus : us ⊆ xs) (hx : x ∈ ys)
    (hmem : x ∈ us ++ vs) : x ∈ vs :=
  mem_left_of_mem_append (List.perm_append_comm.nodup_iff.1 h) hus hx
    (List.perm_append_comm.mem_iff.1 hmem)

end Disjoint

namespace Computation

/-- The labels of all functions, called or not, in the order of `calls`. -/
def labels : {α : Type} → Computation ι ε α → List ι
  | _, .of _ => []
  | _, .task label _ => [label]
  | _, .map label inner _ => inner.labels ++ [label]
  | _, .join left right => left.labels ++ right.labels
  | _, .andThen label inner _ => inner.labels ++ [label]

/-- The computation `d` is built into another one, or is that one. -/
inductive PartOf {β : Type} (d : Computation ι ε β) :
    {α : Type} → Computation ι ε α → Prop where
  | refl : PartOf d d
  | map {α γ : Type} {label : ι} {inner : Computation ι ε α} {f : α → γ} :
      PartOf d inner → PartOf d (.map label inner f)
  | left {α γ : Type} {left : Computation ι ε α} {right : Computation ι ε γ} :
      PartOf d left → PartOf d (.join left right)
  | right {α γ : Type} {left : Computation ι ε α} {right : Computation ι ε γ} :
      PartOf d right → PartOf d (.join left right)
  | andThen {α γ : Type} {label : ι} {inner : Computation ι ε α} {f : α → Except ε γ} :
      PartOf d inner → PartOf d (.andThen label inner f)

/-- The outermost function has the label and is meant for the value of the inner computation. -/
inductive Continues {α : Type} (label : ι) (inner : Computation ι ε α) :
    {β : Type} → Computation ι ε β → Prop where
  | map {β : Type} (f : α → β) : Continues label inner (.map label inner f)
  | andThen {β : Type} (f : α → Except ε β) : Continues label inner (.andThen label inner f)

/-- The last function is called once or not at all. -/
theorem last_sublist (value? : Option α) (label : ι) :
    (value?.map fun _ => label).toList.Sublist [label] := by
  cases value? with
  | none => exact List.nil_sublist _
  | some x => exact .refl _

/-- The functions that are called are some of all functions. -/
theorem called_sublist_labels (c : Computation ι ε α) : c.called.Sublist c.labels := by
  induction c with
  | of value => exact .refl _
  | task label body => exact .refl _
  | map label inner f ih =>
    rw [called_map]
    exact ih.append (last_sublist _ _)
  | join left right ihl ihr =>
    rw [called_join]
    exact ihl.append ihr
  | andThen label inner f ih =>
    rw [called_andThen]
    exact ih.append (last_sublist _ _)

namespace PartOf

variable {c : Computation ι ε α} {d : Computation ι ε β}

theorem labels_sublist (h : PartOf d c) : d.labels.Sublist c.labels := by
  induction h with
  | refl => exact .refl _
  | map _ ih => exact ih.trans (List.sublist_append_left _ _)
  | left _ ih => exact ih.trans (List.sublist_append_left _ _)
  | right _ ih => exact ih.trans (List.sublist_append_right _ _)
  | andThen _ ih => exact ih.trans (List.sublist_append_left _ _)

/-- What a part calls is called in the whole. -/
theorem called_subset (h : PartOf d c) : d.called ⊆ c.called := by
  induction h with
  | refl => exact List.Subset.refl _
  | map _ ih =>
    rw [called_map]
    exact List.subset_append_of_subset_left _ ih
  | left _ ih =>
    rw [called_join]
    exact List.subset_append_of_subset_left _ ih
  | right _ ih =>
    rw [called_join]
    exact List.subset_append_of_subset_right _ ih
  | andThen _ ih =>
    rw [called_andThen]
    exact List.subset_append_of_subset_left _ ih

/-- A function of a part is called in the whole exactly if it is called in the part, if no other
function has its label. -/
theorem mem_called_iff (h : PartOf d c) (hnodup : c.labels.Nodup) {x : ι} (hx : x ∈ d.labels) :
    x ∈ c.called ↔ x ∈ d.called := by
  refine ⟨fun hcalled => ?_, fun hcalled => h.called_subset hcalled⟩
  -- What the whole calls around the part has other labels.
  induction h with
  | refl => exact hcalled
  | map hpart ih =>
    rw [called_map] at hcalled
    have hx' := hpart.labels_sublist.subset hx
    exact ih (List.nodup_append.1 hnodup).1
      (mem_left_of_mem_append hnodup (last_sublist _ _).subset hx' hcalled)
  | left hpart ih =>
    rw [called_join] at hcalled
    have hx' := hpart.labels_sublist.subset hx
    exact ih (List.nodup_append.1 hnodup).1
      (mem_left_of_mem_append hnodup (called_sublist_labels _).subset hx' hcalled)
  | right hpart ih =>
    rw [called_join] at hcalled
    have hx' := hpart.labels_sublist.subset hx
    exact ih (List.nodup_append.1 hnodup).2.1
      (mem_right_of_mem_append hnodup (called_sublist_labels _).subset hx' hcalled)
  | andThen hpart ih =>
    rw [called_andThen] at hcalled
    have hx' := hpart.labels_sublist.subset hx
    exact ih (List.nodup_append.1 hnodup).1
      (mem_left_of_mem_append hnodup (last_sublist _ _).subset hx' hcalled)

end PartOf

namespace Continues

variable {label : ι} {inner : Computation ι ε α} {d : Computation ι ε β}

theorem labels_eq (h : Continues label inner d) : d.labels = inner.labels ++ [label] := by
  cases h <;> rfl

theorem called_eq (h : Continues label inner d) :
    d.called = inner.called ++ (inner.value?.map fun _ => label).toList := by
  cases h with
  | map f => exact called_map label inner f
  | andThen f => exact called_andThen label inner f

/-- The function is called exactly if the inner computation has a value. -/
theorem mem_called_iff (h : Continues label inner d) (hnodup : d.labels.Nodup) :
    label ∈ d.called ↔ inner.value?.isSome := by
  rw [h.labels_eq] at hnodup
  rw [h.called_eq]
  cases hvalue : inner.value? with
  | some x => simp
  | none =>
    -- The inner functions have other labels.
    have hinner : label ∉ inner.called := by
      intro hcalled
      have hlabel := (called_sublist_labels inner).subset hcalled
      exact (List.nodup_append.1 hnodup).2.2 label hlabel label (List.mem_singleton_self _) rfl
    simpa using hinner

end Continues

end Computation

namespace Execution

variable {c : Computation ι ε α} {o : Outcome ι ε α}

/-! ## How often a function is called -/

section Count

variable [DecidableEq ι] (h : Execution c o) (hnodup : c.labels.Nodup)
include h hnodup

/-- The functions that are called are called once. -/
theorem count_trace (x : ι) : o.trace.count x = if x ∈ c.called then 1 else 0 := by
  rw [h.perm_trace.count_eq]
  exact (hnodup.sublist c.called_sublist_labels).count

/-- A task is called exactly once, whatever fails elsewhere. -/
theorem count_trace_task {label : ι} {body : Unit → Except ε β}
    (hpart : Computation.PartOf (.task label body) c) : o.trace.count label = 1 := by
  have hcalled : label ∈ (Computation.task label body).called := List.mem_singleton_self label
  rw [h.count_trace hnodup, if_pos (hpart.called_subset hcalled)]

/-- A function after a computation is called exactly once if that computation succeeds, and not at
all if it fails. -/
theorem count_trace_continuation {label : ι} {inner : Computation ι ε β}
    {d : Computation ι ε γ} {p : Outcome ι ε β} (hpart : d.PartOf c)
    (hd : Computation.Continues label inner d) (hinner : Execution inner p) :
    o.trace.count label = if p.result.isOk then 1 else 0 := by
  have hlabel : label ∈ d.labels := by
    rw [hd.labels_eq]
    exact List.mem_append_right _ (List.mem_singleton_self label)
  have hcalled : label ∈ c.called ↔ p.result.isOk := by
    rw [hpart.mem_called_iff hnodup hlabel,
      hd.mem_called_iff (hnodup.sublist hpart.labels_sublist), ← hinner.explains.toOption_eq]
    cases p.result <;> simp [Except.toOption, Except.isOk, Except.toBool]
  rw [h.count_trace hnodup]
  exact if_congr hcalled rfl rfl

end Count

/-! ## The result -/

theorem result_eq_ok_iff (h : Execution c o) {x : α} : o.result = .ok x ↔ c.value? = some x := by
  rw [eq_ok_iff_toOption, h.explains.toOption_eq]

/-- An execution succeeds exactly if no function that is called fails. -/
theorem exists_result_eq_ok_iff (h : Execution c o) :
    (∃ x, o.result = .ok x) ↔ ∀ call ∈ c.calls, call.failure? = none := by
  rw [exists_eq_ok_iff_failureOf?, h.explains.failureOf?_eq, Computation.firstFailure?,
    List.findSome?_eq_none_iff]

/-- An execution that does not succeed ends with the failure of the first function that fails. -/
theorem result_eq_error_iff (h : Execution c o) {e : ε} : o.result = .error e ↔
    ∃ before label after, c.calls = before ++ ⟨label, some e⟩ :: after ∧
      ∀ call ∈ before, call.failure? = none := by
  rw [eq_error_iff_failureOf?, h.explains.failureOf?_eq, Computation.firstFailure?,
    List.findSome?_eq_some_iff]
  constructor
  · rintro ⟨before, ⟨label, failure?⟩, after, hcalls, hfailure, hbefore⟩
    obtain rfl : failure? = some e := hfailure
    exact ⟨before, label, after, hcalls, hbefore⟩
  · rintro ⟨before, label, after, hcalls, hbefore⟩
    exact ⟨before, ⟨label, some e⟩, after, hcalls, rfl, hbefore⟩

end Execution

namespace Computation

/-- What an execution does is determined up to the order of the calls. A computation has an
execution, and every execution of it, whichever sides of joins it executes first, calls the same
functions. Where each function has a label of its own, it calls every task exactly once, and every
function after a computation exactly once if that computation succeeds and not at all if it fails.
It succeeds exactly if no function that is called fails, and then with the value composed from the
leaves. Otherwise it ends with the failure of the first one that fails, left sides before right
sides and inner functions before outer ones. -/
theorem executions_determined [DecidableEq ι] (c : Computation ι ε α) :
    Execution c c.run ∧ ∀ o, Execution c o →
      o.trace.Perm (c.calls.map Call.label) ∧
      (c.labels.Nodup →
        (∀ (β : Type) (label : ι) (body : Unit → Except ε β),
          PartOf (.task label body) c → o.trace.count label = 1) ∧
        ∀ (β γ : Type) (label : ι) (inner : Computation ι ε β) (d : Computation ι ε γ)
          (p : Outcome ι ε β), PartOf d c → Continues label inner d → Execution inner p →
          o.trace.count label = if p.result.isOk then 1 else 0) ∧
      (∀ x, o.result = .ok x ↔ c.value? = some x) ∧
      ((∃ x, o.result = .ok x) ↔ ∀ call ∈ c.calls, call.failure? = none) ∧
      ∀ e, o.result = .error e ↔ ∃ before label after,
        c.calls = before ++ ⟨label, some e⟩ :: after ∧ ∀ call ∈ before, call.failure? = none := by
  refine ⟨execution_run c, ?_⟩
  intro o h
  refine ⟨h.perm_trace, ?_, fun x => h.result_eq_ok_iff, h.exists_result_eq_ok_iff,
    fun e => h.result_eq_error_iff⟩
  intro hnodup
  constructor
  · intro β label body hpart
    exact h.count_trace_task hnodup hpart
  · intro β γ label inner d p hpart hd hinner
    exact h.count_trace_continuation hnodup hpart hd hinner

/-- A join of which both sides fail: the left one in the function after its task, the right one in
the task itself. Two more functions wait for values that do not come. -/
def failingSides : Computation Nat String Nat :=
  .map 5
    (.join (.andThen 2 (.task 1 fun _ => .ok 3) fun n => if 2 < n then .error "left" else .ok n)
      (.map 4 (.task 3 fun _ => .error "right") fun n => n + 1))
    fun p => p.1 + p.2

/-- The right side is executed first, and the failure of the left side is reported. -/
theorem executions_determined_failingSides :
    ∃ o : Outcome Nat String Nat, Execution failingSides o ∧ o.trace = [3, 1, 2] ∧
      o.result = .error "left" ∧ o.trace.count 1 = 1 ∧ o.trace.count 3 = 1 ∧
      o.trace.count 2 = 1 ∧ o.trace.count 4 = 0 ∧ o.trace.count 5 = 0 ∧
      ∃ before label after, failingSides.calls = before ++ ⟨label, some "left"⟩ :: after ∧
        ∀ call ∈ before, call.failure? = none := by
  let first : Computation Nat String Nat := .task 1 fun _ => .ok 3
  let second : Computation Nat String Nat := .task 3 fun _ => .error "right"
  let f : Nat → Except String Nat := fun n => if 2 < n then .error "left" else .ok n
  let g : Nat → Nat := fun n => n + 1
  have hfirst : Execution first first.run := .task 1 _
  have hsecond : Execution second second.run := .task 3 _
  have hleft : Execution (.andThen 2 first f) ⟨[1, 2], .error "left"⟩ := hfirst.andThen
  have hright : Execution (.map 4 second g) ⟨[3], .error "right"⟩ := hsecond.map
  have hjoin : Execution (.join (.andThen 2 first f) (.map 4 second g))
      ⟨[3, 1, 2], .error "left"⟩ :=
    .join hleft hright (.right (.left (.left .nil)))
  have h : Execution failingSides ⟨[3, 1, 2], .error "left"⟩ := hjoin.map
  have hnodup : failingSides.labels.Nodup := by decide
  obtain ⟨-, hcounts, -, -, herror⟩ := (executions_determined failingSides).2 _ h
  obtain ⟨htask, hcontinuation⟩ := hcounts hnodup
  refine ⟨_, h, rfl, rfl, ?_, ?_, ?_, ?_, ?_, (herror _).1 rfl⟩
  · exact htask _ 1 _ (.map (.left (.andThen .refl)))
  · exact htask _ 3 _ (.map (.right (.map .refl)))
  · exact hcontinuation _ _ 2 first _ _ (.map (.left .refl)) (.andThen f) hfirst
  · exact hcontinuation _ _ 4 second _ _ (.map (.right .refl)) (.map g) hsecond
  · exact hcontinuation _ _ 5 _ _ _ .refl (.map _) hjoin

end Computation

end Clausal
