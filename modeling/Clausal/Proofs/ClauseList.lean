/-
  Clausal.Proofs.ClauseList

  How many variables a clause list ranges over, and what its clauses say by name. The highest index
  is the least upper bound of the indices of all literals (`highestIndex_le_iff`), and the number of
  variables bounds in addition the numbering, where a list without numbering counts as numbered by
  the empty map.

  A reading by name is one row of named literals for each clause (`named_eq_ok_iff`). It determines
  the truth value of the list (`holds_iff_of_named`) and which clauses are tautologies
  (`named_dropTautologies`), so two lists with one reading differ in their numbering only.
-/
import Clausal.Proofs.VariableMap
import Clausal.Valuation
import Mathlib.Order.Bounds.Basic

namespace Clausal

/-- The maximum of a start value and the members of a list is one of them and bounds all. -/
theorem isGreatest_foldl_max (a : Nat) (xs : List Nat) :
    IsGreatest {k | k = a ∨ k ∈ xs} (xs.foldl max a) := by
  induction xs generalizing a with
  | nil =>
    refine ⟨.inl rfl, ?_⟩
    rintro k (rfl | hk)
    · exact Nat.le_refl k
    · cases hk
  | cons x xs ih =>
    obtain ⟨hmem, hbound⟩ := ih (max a x)
    rw [List.foldl_cons]
    have hmax : max a x ≤ xs.foldl max (max a x) := hbound (.inl rfl)
    refine ⟨?_, ?_⟩
    · rcases hmem with hmem | hmem
      · -- The larger one of the start value and the first member takes over as start value.
        have hchoice : max a x = a ∨ max a x = x := by omega
        rcases hchoice with h | h
        · exact .inl (hmem.trans h)
        · exact .inr (List.mem_cons.2 (.inl (hmem.trans h)))
      · exact .inr (List.mem_cons_of_mem _ hmem)
    · rintro k (rfl | hk)
      · omega
      · rcases List.mem_cons.1 hk with rfl | hk
        · omega
        · exact hbound (.inr hk)

theorem foldl_max_le_iff {a n : Nat} {xs : List Nat} :
    xs.foldl max a ≤ n ↔ a ≤ n ∧ ∀ x ∈ xs, x ≤ n := by
  rw [isLUB_le_iff (isGreatest_foldl_max a xs).isLUB]
  refine ⟨?_, ?_⟩
  · intro h
    exact ⟨h (.inl rfl), fun x hx => h (.inr hx)⟩
  · rintro ⟨ha, hxs⟩ k (rfl | hk)
    · exact ha
    · exact hxs k hk

namespace ClauseList

/-- The highest index bounds the indices of all literals, and nothing below it does. -/
theorem highestIndex_le_iff {l : ClauseList} {n : Nat} :
    l.highestIndex ≤ n ↔ ∀ c ∈ l.clauses, ∀ lit ∈ c, lit.var.index ≤ n := by
  rw [highestIndex, foldl_max_le_iff]
  simp only [List.mem_map, List.mem_flatMap, Assignment.mem_vars]
  refine ⟨?_, ?_⟩
  · intro h c hc lit hlit
    exact h.2 _ ⟨lit.var, ⟨c, hc, lit, hlit, rfl⟩, rfl⟩
  · intro h
    refine ⟨Nat.zero_le n, ?_⟩
    rintro _ ⟨_, ⟨c, hc, lit, hlit, rfl⟩, rfl⟩
    exact h c hc lit hlit

/-- The numbering of a clause list; a missing one counts as the empty map. -/
def numbering (l : ClauseList) : VariableMap :=
  l.variableMap.getD .empty

theorem numbering_of_eq_some {l : ClauseList} {m : VariableMap} (h : l.variableMap = some m) :
    l.numbering = m := by
  rw [numbering, h, Option.getD_some]

theorem variableCount_eq (l : ClauseList) :
    l.variableCount = max l.highestIndex l.numbering.size := by
  rw [variableCount, numbering]
  cases l.variableMap <;> rfl

/-- No list ranges over more variables than there are. -/
theorem variableCount_le_maxIndex (l : ClauseList) : l.variableCount ≤ Variable.maxIndex := by
  have hhighest : l.highestIndex ≤ Variable.maxIndex :=
    highestIndex_le_iff.2 fun _ _ lit _ => lit.var.index_le
  have hsize : l.numbering.size ≤ Variable.maxIndex := l.numbering.length_le
  rw [variableCount_eq]
  omega

/-! ## Reading by name -/

/-- A list whose clauses are found is there with its numbering. -/
theorem bind_mk_eq_ok_iff {ε : Type} {clauses : Except ε (List Clause)} {m : VariableMap}
    {l : ClauseList} :
    (clauses >>= fun cs => .ok ⟨cs, some m⟩) = .ok l ↔
      l.variableMap = some m ∧ clauses = .ok l.clauses := by
  obtain ⟨cs, map⟩ := l
  simp only [bind_eq_ok_iff, Except.ok.injEq, mk.injEq]
  constructor
  · rintro ⟨_, hclauses, rfl, rfl⟩
    exact ⟨rfl, hclauses⟩
  · rintro ⟨rfl, hclauses⟩
    exact ⟨cs, hclauses, rfl, rfl⟩

/-- The rows of a reading by name are the clauses literal by literal. -/
theorem named_eq_ok_iff {l : ClauseList} {rows : List (List NamedLiteral)} :
    l.named = .ok rows ↔ ∃ m, l.variableMap = some m ∧
      List.Forall₂ (fun c row => List.Forall₂ (fun lit n => m.named lit = .ok n) c.literals row)
        l.clauses rows := by
  simp only [← mapM_eq_ok_iff]
  rw [named, requireMap]
  cases l.variableMap with
  | none => simp [bind, Except.bind]
  | some m => simp [bind, Except.bind]

section Named

variable {l : ClauseList} {m : VariableMap} {rows : List (List NamedLiteral)}

/-- A list whose numbering covers all its variables can be read by name. -/
theorem exists_named (hm : l.variableMap = some m) (h : l.highestIndex ≤ m.size) :
    ∃ rows, l.named = .ok rows := by
  have hcovered := highestIndex_le_iff.1 h
  have hrow : ∀ c ∈ l.clauses,
      ∃ row, List.Forall₂ (fun lit n => m.named lit = .ok n) c.literals row := by
    intro c hc
    refine exists_forall₂ fun lit hlit => ?_
    obtain ⟨name, hname⟩ :=
      Option.isSome_iff_exists.1 (VariableMap.name?_isSome_iff.2 (hcovered c hc lit hlit))
    exact ⟨⟨name, lit.isPositive⟩, VariableMap.named_eq_ok_iff.2 ⟨hname, rfl⟩⟩
  obtain ⟨rows, hrows⟩ := exists_forall₂ hrow
  exact ⟨rows, named_eq_ok_iff.2 ⟨m, hm, hrows⟩⟩

/-- The rows are read under the numbering of the list. -/
theorem forall₂_of_named (hm : l.variableMap = some m) (h : l.named = .ok rows) :
    List.Forall₂ (fun c row => List.Forall₂ (fun lit n => m.named lit = .ok n) c.literals row)
      l.clauses rows := by
  obtain ⟨m', hm', hrows⟩ := named_eq_ok_iff.1 h
  obtain rfl := Option.some.inj (hm.symm.trans hm')
  exact hrows

/-- The names that are read are in the numbering. -/
theorem mem_names_of_named (hm : l.variableMap = some m) (h : l.named = .ok rows) :
    ∀ row ∈ rows, ∀ n ∈ row, n.name ∈ m.names := by
  intro row hrow n hn
  obtain ⟨c, -, hc⟩ := exists_of_mem_right (forall₂_of_named hm h) hrow
  obtain ⟨lit, -, hlit⟩ := exists_of_mem_right hc hn
  exact VariableMap.mem_names_iff.2 ⟨lit.var, (VariableMap.named_eq_ok_iff.1 hlit).1⟩

/-- The numbering covers what can be read by name. -/
theorem covered_of_named (hm : l.variableMap = some m) (h : l.named = .ok rows) :
    ∀ c ∈ l.clauses, ∀ lit ∈ c, lit.var.index ≤ m.size := by
  intro c hc lit hlit
  obtain ⟨row, -, hrow⟩ := exists_of_mem_left (forall₂_of_named hm h) hc
  obtain ⟨n, -, hn⟩ := exists_of_mem_left hrow hlit
  apply VariableMap.name?_isSome_iff.1
  rw [(VariableMap.named_eq_ok_iff.1 hn).1, Option.isSome_some]

theorem size_of_named (h : l.named = .ok rows) : l.size = rows.length := by
  obtain ⟨_, _, hrows⟩ := named_eq_ok_iff.1 h
  exact hrows.length_eq

/-- A list is determined by its numbering and its rows. -/
theorem ext_named {k : ClauseList} (hmap : l.variableMap = k.variableMap) (hl : l.named = .ok rows)
    (hk : k.named = .ok rows) : l = k := by
  obtain ⟨m, hm, hlrows⟩ := named_eq_ok_iff.1 hl
  have hkrows := forall₂_of_named (hmap.symm.trans hm) hk
  -- A named literal is the reading of one literal, hence a row that of one clause.
  have hliteral : Relator.LeftUnique fun (lit : Literal) n => m.named lit = .ok n := by
    intro lit lit' n h h'
    rw [← VariableMap.literal_eq_ok_iff_named] at h h'
    exact Except.ok.inj (h.symm.trans h')
  have hclause : Relator.LeftUnique fun (c : Clause) row =>
      List.Forall₂ (fun lit n => m.named lit = .ok n) c.literals row := by
    intro c c' row h h'
    exact Assignment.ext_literals (hliteral.forall₂ h h')
  obtain ⟨clauses, map⟩ := l
  obtain ⟨clauses', map'⟩ := k
  obtain rfl : map = map' := hmap
  obtain rfl : clauses = clauses' := hclause.forall₂ hlrows hkrows
  rfl

/-- A list is true when each of its rows has a true literal. -/
theorem holds_iff_of_named (hm : l.variableMap = some m) (h : l.named = .ok rows)
    (v : String → Bool) :
    l.holds (.ofNames m v) = true ↔ ∀ row ∈ rows, ∃ n ∈ row, n.holds v = true := by
  rw [holds_iff]
  refine forall_mem_iff_of_forall₂ (forall₂_of_named hm h) fun c row hrow => ?_
  rw [Clause.holds_iff]
  refine exists_mem_iff_of_forall₂ hrow fun lit n hn => ?_
  rw [VariableMap.holds_of_named hn]

end Named

/-! ## Tautologies -/

/-- Some name occurs in the row with both signs. -/
def BothSigns (row : List NamedLiteral) : Prop :=
  ∃ n ∈ row, ⟨n.name, !n.positive⟩ ∈ row

instance : DecidablePred BothSigns := fun row =>
  inferInstanceAs (Decidable (∃ n ∈ row, ⟨n.name, !n.positive⟩ ∈ row))

/-- A row with a name in both signs is true. -/
theorem exists_holds_of_bothSigns {row : List NamedLiteral} (h : BothSigns row)
    (v : String → Bool) : ∃ n ∈ row, n.holds v = true := by
  obtain ⟨n, hn, hnot⟩ := h
  by_cases hv : n.holds v = true
  · exact ⟨n, hn, hv⟩
  · -- If one sign is wrong, the other one is right.
    refine ⟨_, hnot, ?_⟩
    rw [NamedLiteral.holds, beq_iff_eq] at hv ⊢
    exact Bool.eq_not_of_ne hv

/-- A clause holds a literal and its negation when its row has a name in both signs. -/
theorem bothSigns_iff_of_named {m : VariableMap} {c : Clause} {row : List NamedLiteral}
    (h : List.Forall₂ (fun lit n => m.named lit = .ok n) c.literals row) :
    BothSigns row ↔ ∃ lit ∈ c, -lit ∈ c := by
  refine ⟨?_, ?_⟩
  · intro h
    obtain ⟨n, hn, hnot⟩ := h
    obtain ⟨lit, hlit, hname⟩ := exists_of_mem_right h hn
    obtain ⟨lit', hlit', hname'⟩ := exists_of_mem_right h hnot
    rw [VariableMap.named_eq_ok_iff] at hname hname'
    -- One name belongs to one variable, so the literals differ in their signs only.
    have hvar : lit'.var = (-lit).var := by
      rw [Literal.var_neg]
      exact VariableMap.name?_inj hname'.1 hname.1
    have hsign : lit'.isPositive = (-lit).isPositive := by
      rw [Literal.isPositive_neg, ← hname'.2, ← hname.2]
    refine ⟨lit, hlit, ?_⟩
    rw [← Literal.ext_var hvar hsign]
    exact hlit'
  · intro h
    obtain ⟨lit, hlit, hneg⟩ := h
    -- The negation has the same variable, hence the same name, with the other sign.
    obtain ⟨n, hn, hname⟩ := exists_of_mem_left h hlit
    obtain ⟨n', hn', hname'⟩ := exists_of_mem_left h hneg
    rw [VariableMap.named_eq_ok_iff] at hname hname'
    obtain ⟨name, positive⟩ := n
    obtain ⟨name', positive'⟩ := n'
    rw [Literal.var_neg, hname.1, Option.some.injEq] at hname'
    rw [Literal.isPositive_neg, ← hname.2] at hname'
    obtain ⟨rfl, rfl⟩ := hname'
    exact ⟨_, hn, hn'⟩

/-- Dropping tautologies drops the rows with a name in both signs. -/
theorem named_dropTautologies {l : ClauseList} {rows : List (List NamedLiteral)}
    (h : l.named = .ok rows) : l.dropTautologies.named = .ok (rows.filter (¬BothSigns ·)) := by
  obtain ⟨m, hm, hrows⟩ := named_eq_ok_iff.1 h
  refine named_eq_ok_iff.2 ⟨m, hm, forall₂_filter hrows fun c row hrow => ?_⟩
  rw [Bool.eq_iff_iff, decide_eq_true_eq, bothSigns_iff_of_named hrow,
    ← Assignment.clean?_eq_none_iff, Option.isSome_iff_ne_none]

end ClauseList

end Clausal
