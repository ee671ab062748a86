/-
  Clausal.Proofs.Assignment.Composition

  What renumbering does to a list, said by the two numberings alone. A literal carries over when its
  variable has a name and the new numbering has that name too (`Literal.CarriesOver`); otherwise
  one of the two stands in its way (`Obstacle`). A list of literals is renumbered as a whole or not
  at all: place by place the names and signs stay (`SameReading`), or the first literal that does
  not carry over is reported (`FirstObstacle`). A clause list is renumbered as all its literals in
  order.

  Renumbering a literal is reading it by name and looking the name up. The name is the same in the
  renumbered list, so a second renumbering starts from there and ends as it would have from the
  original list, whether it succeeds or fails (`Literal.reindex_reindex`). No law about failures is
  needed for that: the two runs are step by step the same computation.
-/
import Clausal.Proofs.Assignment.Translation

namespace Clausal

/-! ## One literal -/

/-- The variable of the literal has a name, and the other numbering has that name too. -/
def Literal.CarriesOver (old new : VariableMap) (l : Literal) : Prop :=
  ∃ name, old.name? l.var = some name ∧ name ∈ new.names

/-- Under their numberings the two literals have one name and one sign. -/
def SameReading (old new : VariableMap) (l l' : Literal) : Prop :=
  l'.isPositive = l.isPositive ∧ ∃ name, old.name? l.var = some name ∧ new.name? l'.var = some name

/-- Why a literal does not carry over: its variable has no name, or the other numbering does not
have that name. -/
inductive Obstacle (old new : VariableMap) (l : Literal) : Problem → Prop where
  | index : old.name? l.var = none → Obstacle old new l (.unknownIndex l)
  | name {name : String} : old.name? l.var = some name → name ∉ new.names →
      Obstacle old new l (.unknownName name)

/-- Why the first of the literals that do not carry over does not. -/
inductive FirstObstacle (old new : VariableMap) : List Literal → Problem → Prop where
  | intro {before after : List Literal} {l : Literal} {p : Problem} :
      (∀ l ∈ before, l.CarriesOver old new) → Obstacle old new l p →
      FirstObstacle old new (before ++ l :: after) p

namespace Literal

variable {old new : VariableMap} {l l' : Literal}

theorem reindex_eq_ok_iff_sameReading : l.reindex old new = .ok l' ↔ SameReading old new l l' := by
  rw [reindex_eq_ok_iff]
  simp only [VariableMap.named_eq_ok_iff]
  constructor
  · rintro ⟨n, ⟨hold, hsign⟩, hnew, hsign'⟩
    exact ⟨hsign'.symm.trans hsign, n.name, hold, hnew⟩
  · rintro ⟨hsign, name, hold, hnew⟩
    exact ⟨⟨name, l.isPositive⟩, ⟨hold, rfl⟩, hnew, hsign.symm⟩

theorem exists_reindex_iff : (∃ l', l.reindex old new = .ok l') ↔ l.CarriesOver old new := by
  simp only [reindex_eq_ok_iff_sameReading]
  constructor
  · rintro ⟨l', -, name, hold, hnew⟩
    exact ⟨name, hold, VariableMap.mem_names_iff.2 ⟨l'.var, hnew⟩⟩
  · rintro ⟨name, hold, hnew⟩
    obtain ⟨v, hv⟩ := VariableMap.mem_names_iff.1 hnew
    exact ⟨.ofVar v l.isPositive, isPositive_ofVar .., name, hold, by rwa [var_ofVar]⟩

theorem obstacle_iff {p : Problem} : Obstacle old new l p ↔
    old.name? l.var = none ∧ .unknownIndex l = p ∨
      ∃ name, old.name? l.var = some name ∧ name ∉ new.names ∧ .unknownName name = p := by
  constructor
  · rintro (h | ⟨hold, hnew⟩)
    · exact .inl ⟨h, rfl⟩
    · exact .inr ⟨_, hold, hnew, rfl⟩
  · rintro (⟨h, rfl⟩ | ⟨name, hold, hnew, rfl⟩)
    · exact .index h
    · exact .name hold hnew

theorem reindex_eq_error_iff {p : Problem} :
    l.reindex old new = .error p ↔ Obstacle old new l p := by
  rw [obstacle_iff, reindex, VariableMap.named]
  simp only [← VariableMap.index?_isSome_iff]
  cases old.name? l.var with
  | none => simp [bind, Except.bind]
  | some name =>
    show new.literal ⟨name, l.isPositive⟩ = .error p ↔ _
    rw [VariableMap.literal]
    cases hnew : new.index? name <;> simp [hnew]

/-- What comes of a renumbered literal is what comes of the literal itself. -/
theorem reindex_reindex (h : l.reindex old new = .ok l') (third : VariableMap) :
    l'.reindex new third = l.reindex old third := by
  obtain ⟨n, hold, hnew⟩ := reindex_eq_ok_iff.1 h
  rw [reindex, reindex, hold, hnew]

end Literal

/-! ## Runs through literals -/

section Runs

variable {old new : VariableMap} {ls : List Literal}

theorem exists_mapM_reindex_iff :
    (∃ ls', ls.mapM (·.reindex old new) = .ok ls') ↔ ∀ l ∈ ls, l.CarriesOver old new := by
  simp only [mapM_eq_ok_iff, ← Literal.exists_reindex_iff]
  constructor
  · rintro ⟨ls', h⟩ l hl
    obtain ⟨l', -, hl'⟩ := exists_of_mem_left h hl
    exact ⟨l', hl'⟩
  · exact exists_forall₂

theorem mapM_reindex_eq_error_iff {p : Problem} :
    ls.mapM (·.reindex old new) = .error p ↔ FirstObstacle old new ls p := by
  simp only [mapM_eq_error_iff, Literal.exists_reindex_iff, Literal.reindex_eq_error_iff]
  constructor
  · rintro ⟨before, l, after, rfl, hbefore, hl⟩
    exact .intro hbefore hl
  · rintro ⟨hbefore, hl⟩
    exact ⟨_, _, _, rfl, hbefore, hl⟩

end Runs

/-! ## Lists of literals -/

namespace Assignment

variable {k : Kind} {old new : VariableMap} {a b : Assignment k}

theorem reindex_eq_map_mapM (a : Assignment k) (old new : VariableMap) :
    a.reindex old new = Assignment.mk <$> a.literals.mapM (·.reindex old new) :=
  rfl

theorem reindex_eq_ok_iff_sameReading :
    a.reindex old new = .ok b ↔ List.Forall₂ (SameReading old new) a.literals b.literals := by
  simp only [reindex_eq_ok_iff, Literal.reindex_eq_ok_iff_sameReading]

theorem exists_reindex_iff : (∃ b, a.reindex old new = .ok b) ↔ ∀ l ∈ a, l.CarriesOver old new := by
  simp only [mem_def, ← exists_mapM_reindex_iff, mapM_eq_ok_iff, reindex_eq_ok_iff]
  exact ⟨fun ⟨b, h⟩ => ⟨b.literals, h⟩, fun ⟨ls, h⟩ => ⟨⟨ls⟩, h⟩⟩

theorem reindex_eq_error_iff {p : Problem} :
    a.reindex old new = .error p ↔ FirstObstacle old new a.literals p := by
  rw [reindex_eq_map_mapM, map_eq_error_iff, mapM_reindex_eq_error_iff]

/-- What comes of a renumbered list is what comes of the list itself. -/
theorem reindex_reindex (h : a.reindex old new = .ok b) (third : VariableMap) :
    b.reindex new third = a.reindex old third := by
  have hsteps := (reindex_eq_ok_iff.1 h).imp fun _ _ hl => (Literal.reindex_reindex hl third).symm
  rw [reindex_eq_map_mapM, reindex_eq_map_mapM, mapM_eq_of_forall₂ hsteps]

end Assignment

/-! ## Clause lists -/

namespace ClauseList

variable {old new : VariableMap} {l k : ClauseList}

theorem reindex_of_none (h : l.variableMap = none) (new : VariableMap) :
    l.reindex new = .error .missingMap := by
  rw [reindex, requireMap, h]
  rfl

theorem reindex_eq_map_mapM (h : l.variableMap = some old) (new : VariableMap) :
    l.reindex new = (⟨·, some new⟩) <$> l.clauses.mapM fun c => Assignment.reindex c old new := by
  rw [reindex, requireMap, h]
  show (l.clauses.mapM fun c => Assignment.reindex c old new) >>= _ = _
  rw [map_eq_pure_bind]

theorem reindex_eq_ok_iff_sameReading (h : l.variableMap = some old) :
    l.reindex new = .ok k ↔ k.variableMap = some new ∧
      List.Forall₂ (fun c d : Clause => List.Forall₂ (SameReading old new) c.literals d.literals)
        l.clauses k.clauses := by
  simp only [reindex_eq_ok_iff h, Assignment.reindex_eq_ok_iff_sameReading]

theorem exists_reindex_iff (h : l.variableMap = some old) :
    (∃ k, l.reindex new = .ok k) ↔ ∀ c ∈ l.clauses, ∀ x ∈ c, x.CarriesOver old new := by
  simp only [← Assignment.exists_reindex_iff, reindex_eq_ok_iff h]
  constructor
  · rintro ⟨k, -, hclauses⟩ c hc
    obtain ⟨d, -, hd⟩ := exists_of_mem_left hclauses hc
    exact ⟨d, hd⟩
  · intro hclauses
    obtain ⟨ds, hds⟩ := exists_forall₂ hclauses
    exact ⟨⟨ds, some new⟩, rfl, hds⟩

/-- A clause list fails as the list of all its literals does. -/
theorem reindex_eq_error_iff (h : l.variableMap = some old) {p : Problem} :
    l.reindex new = .error p ↔
      FirstObstacle old new (l.clauses.flatMap (·.literals)) p := by
  have hrows : l.clauses.mapM (fun c => Assignment.reindex c old new) =
      List.map Assignment.mk <$> l.clauses.mapM fun c => c.literals.mapM (·.reindex old new) :=
    mapM_map_result ..
  rw [reindex_eq_map_mapM h, map_eq_error_iff, hrows, map_eq_error_iff,
    ← mapM_reindex_eq_error_iff, List.flatMap_def, mapM_flatten, map_eq_error_iff, List.mapM_map]
  rfl

theorem reindex_symm (h : l.variableMap = some old) (hk : l.reindex new = .ok k) :
    k.reindex old = .ok l := by
  obtain ⟨hnew, hclauses⟩ := (reindex_eq_ok_iff h).1 hk
  exact (reindex_eq_ok_iff hnew).2 ⟨h, (hclauses.imp fun _ _ hc => Assignment.reindex_symm hc).flip⟩

/-- What comes of a renumbered clause list is what comes of the list itself. -/
theorem reindex_reindex (h : l.variableMap = some old) (hk : l.reindex new = .ok k)
    (third : VariableMap) : k.reindex third = l.reindex third := by
  obtain ⟨hnew, hclauses⟩ := (reindex_eq_ok_iff h).1 hk
  have hsteps := hclauses.imp fun _ _ hc => (Assignment.reindex_reindex hc third).symm
  rw [reindex_eq_map_mapM h, reindex_eq_map_mapM hnew, mapM_eq_of_forall₂ hsteps]

end ClauseList

/-! ## Composition -/

/-- A list is renumbered, with every name and sign in its place, when every literal carries over;
otherwise the reason is that of the first literal that does not. A renumbered list is renumbered
back to the list it came from, and on to a third numbering as that list would be, failures included.
The same holds of clause lists with all their literals in order. A clause list without numbering is
not renumbered, even if it has no clauses. -/
theorem reindex_composes (old new : VariableMap) :
    (∀ (k : Kind) (a : Assignment k),
      ((∃ b, a.reindex old new = .ok b) ↔ ∀ l ∈ a, l.CarriesOver old new) ∧
      (∀ b, a.reindex old new = .ok b ↔
        List.Forall₂ (SameReading old new) a.literals b.literals) ∧
      (∀ p, a.reindex old new = .error p ↔ FirstObstacle old new a.literals p) ∧
      ∀ b, a.reindex old new = .ok b → b.reindex new old = .ok a ∧
        ∀ third, b.reindex new third = a.reindex old third) ∧
    ∀ l : ClauseList,
      (l.variableMap = none → l.reindex new = .error .missingMap) ∧
      (l.variableMap = some old →
        ((∃ k, l.reindex new = .ok k) ↔ ∀ c ∈ l.clauses, ∀ x ∈ c, x.CarriesOver old new) ∧
        (∀ k, l.reindex new = .ok k ↔ k.variableMap = some new ∧ List.Forall₂ (fun c d : Clause =>
          List.Forall₂ (SameReading old new) c.literals d.literals) l.clauses k.clauses) ∧
        (∀ p, l.reindex new = .error p ↔
          FirstObstacle old new (l.clauses.flatMap (·.literals)) p) ∧
        ∀ k, l.reindex new = .ok k → k.reindex old = .ok l ∧
          ∀ third, k.reindex third = l.reindex third) := by
  refine ⟨?_, ?_⟩
  · intro k a
    refine ⟨Assignment.exists_reindex_iff, fun b => Assignment.reindex_eq_ok_iff_sameReading,
      fun p => Assignment.reindex_eq_error_iff, ?_⟩
    intro b hb
    exact ⟨Assignment.reindex_symm hb, Assignment.reindex_reindex hb⟩
  · intro l
    refine ⟨fun hnone => ClauseList.reindex_of_none hnone new, ?_⟩
    intro hold
    refine ⟨ClauseList.exists_reindex_iff hold,
      fun k => ClauseList.reindex_eq_ok_iff_sameReading hold,
      fun p => ClauseList.reindex_eq_error_iff hold, ?_⟩
    intro k hk
    exact ⟨ClauseList.reindex_symm hold hk, ClauseList.reindex_reindex hold hk⟩

/-- A list that repeats and contradicts a literal, on to a numbering that lacks one of its names; a
clause list that meets a variable without name before a name the other numbering lacks; and the
empty clause list without numbering. -/
theorem reindex_composes_partly :
    ∃ (old new third : VariableMap) (a b : Assignment .plain) (l k stuck : ClauseList)
      (x : Literal),
      old.names = ["a", "b", "c"] ∧ new.names = ["c", "d", "a", "b"] ∧
      third.names = ["b", "e", "c"] ∧ a.literals.map Literal.toInt = [1, -2, 3, 1, -1] ∧
      b.literals.map Literal.toInt = [3, -4, 1, 3, -3] ∧ a.reindex old new = .ok b ∧
      b.reindex new old = .ok a ∧ b.reindex new third = .error (.unknownName "a") ∧
      l.variableMap = some old ∧ l.clauses.map (·.literals.map Literal.toInt) = [[2, -3], [], [2]] ∧
      k.clauses.map (·.literals.map Literal.toInt) = [[1, -3], [], [1]] ∧
      l.reindex third = .ok k ∧ k.reindex old = .ok l ∧ k.reindex new = l.reindex new ∧
      stuck.variableMap = some old ∧
      stuck.clauses.map (·.literals.map Literal.toInt) = [[], [2, -4, 1]] ∧ x.toInt = -4 ∧
      stuck.reindex third = .error (.unknownIndex x) ∧
      (ClauseList.mk [] none).reindex new = .error .missingMap := by
  let u : Variable := ⟨1, by decide, by decide⟩
  let v : Variable := ⟨2, by decide, by decide⟩
  let w : Variable := ⟨3, by decide, by decide⟩
  let y : Variable := ⟨4, by decide, by decide⟩
  let old : VariableMap := ⟨["a", "b", "c"], by decide, by decide⟩
  let new : VariableMap := ⟨["c", "d", "a", "b"], by decide, by decide⟩
  let third : VariableMap := ⟨["b", "e", "c"], by decide, by decide⟩
  let a : Assignment .plain :=
    ⟨[.ofVar u true, .ofVar v false, .ofVar w true, .ofVar u true, .ofVar u false]⟩
  let b : Assignment .plain :=
    ⟨[.ofVar w true, .ofVar y false, .ofVar u true, .ofVar w true, .ofVar w false]⟩
  let l : ClauseList :=
    { clauses := [⟨[.ofVar v true, .ofVar w false]⟩, ⟨[]⟩, ⟨[.ofVar v true]⟩]
      variableMap := some old }
  let k : ClauseList :=
    { clauses := [⟨[.ofVar u true, .ofVar w false]⟩, ⟨[]⟩, ⟨[.ofVar u true]⟩]
      variableMap := some third }
  let x : Literal := .ofVar y false
  let stuck : ClauseList := ⟨[⟨[]⟩, ⟨[.ofVar v true, x, .ofVar u true]⟩], some old⟩
  have hab : a.reindex old new = .ok b := by rfl
  have hlk : l.reindex third = .ok k := by rfl
  have hmissing : a.reindex old third = .error (.unknownName "a") := by rfl
  obtain ⟨hassignment, hclauses⟩ := reindex_composes old new
  obtain ⟨hback, hon⟩ := (hassignment _ a).2.2.2 b hab
  obtain ⟨-, hnumbered⟩ := (reindex_composes old third).2 l
  obtain ⟨hlback, hlon⟩ := (hnumbered rfl).2.2.2 k hlk
  obtain ⟨-, hstuck⟩ := (reindex_composes old third).2 stuck
  have hfirst : FirstObstacle old third ([.ofVar v true] ++ x :: [.ofVar u true])
      (.unknownIndex x) := by
    refine .intro ?_ (.index (by decide))
    intro l hl
    obtain rfl := List.mem_singleton.1 hl
    exact ⟨"b", by decide, by decide⟩
  exact ⟨old, new, third, a, b, l, k, stuck, x, rfl, rfl, rfl, by decide, by decide, hab, hback,
    (hon third).trans hmissing, rfl, by decide, by decide, hlk, hlback, hlon new, rfl, by decide,
    by decide, ((hstuck rfl).2.2.1 _).2 hfirst, (hclauses ⟨[], none⟩).1 rfl⟩

end Clausal
