/-
  Clausal.Proofs.VariableMap.RoundTrip

  From indices to names and back. A list of literals may say a variable several times, a value
  assignment says a name once: it has the variable at its first place (`forall₂_names_ofList`) with
  the sign of its last literal (`get?_ofList_of_named`). So what comes back is over the variables of
  the list in the order of their first occurrence (`vars_eq_of_toValue`) and has no literal that was
  not in the list (`mem_of_toValue`). That is the list itself if it says each variable once, and its
  clean form if it has one.

  In the other direction nothing is lost, since a value assignment built from its own literals is
  itself.
-/
import Clausal.Proofs.Assignment.Cleaning
import Clausal.Proofs.Assignment.Values
import Clausal.Proofs.FirstOccurrences
import Clausal.Proofs.ValueAssignment
import Clausal.Proofs.VariableMap

namespace Clausal

variable {k : Kind} {m : VariableMap} {a b c : Assignment k} {v : ValueAssignment k}

/-- Two lists with literals of a third one are the same if they are over the same variables in the
same order, and a variable determines its literal. -/
theorem Assignment.eq_of_vars_eq
    (ha : ∀ l ∈ a.literals, ∀ l' ∈ a.literals, l.var = l'.var → l = l')
    (hb : ∀ l ∈ b, l ∈ a) (hc : ∀ l ∈ c, l ∈ a) (h : b.vars = c.vars) : b = c := by
  apply ext_literals
  apply eq_of_map_eq h
  intro l hl l' hl'
  exact ha l (hb l hl) l' (hc l' hl')

namespace VariableMap

/-! ## Success -/

theorem toValue_eq_ok_iff : m.toValue a = .ok v ↔
    ∃ es, List.Forall₂ (fun l e => m.named l = .ok e) a.literals es ∧
      ValueAssignment.ofList es = v := by
  rw [toValue, map_eq_ok_iff]
  simp only [mapM_eq_ok_iff]

/-- A list over indices has the names that are written in the value assignment. -/
theorem toBoolean_eq_ok_iff : m.toBoolean v = .ok b ↔
    List.Forall₂ (fun l e => m.named l = .ok e) b.literals v.entries := by
  rw [toBoolean, Assignment.map_mk_eq_ok_iff, ← forall₂_swap]
  simp only [literal_eq_ok_iff_named]

theorem exists_toBoolean (h : ∀ e ∈ v.entries, e.name ∈ m.names) :
    ∃ b, m.toBoolean v = .ok b := by
  obtain ⟨literals, hliterals⟩ := exists_forall₂ fun e he => exists_named (h e he)
  exact ⟨⟨literals⟩, toBoolean_eq_ok_iff.2 hliterals.flip⟩

/-! ## From indices to names -/

section Named

variable {es : List NamedLiteral}
  (h : List.Forall₂ (fun l e => m.named l = .ok e) a.literals es)
include h

/-- The names are those of the variables in the order of first occurrence. -/
theorem forall₂_names_ofList :
    List.Forall₂ (fun x name => m.name? x = some name) a.vars.eraseDups
      ((ValueAssignment.ofList es : ValueAssignment k).entries.map NamedLiteral.name) := by
  rw [ValueAssignment.names_ofList]
  exact forall₂_eraseDups m.biUnique_name? (forall₂_vars_of_named h)

/-- A name has the value of its variable. -/
theorem get?_ofList_of_named {x : Variable} {name : String} (hx : m.name? x = some name) :
    (ValueAssignment.ofList es : ValueAssignment k).get? name = a.values.lookup x := by
  rw [ValueAssignment.get?_ofList, Assignment.lookup_values]
  symm
  apply lookup_eq_of_forall₂
  rw [List.forall₂_reverse_iff]
  apply h.imp
  intro l e he
  obtain ⟨hname, hsign⟩ := named_eq_ok_iff.1 he
  refine ⟨⟨?_, ?_⟩, hsign.symm⟩
  · rintro rfl
    exact Option.some.inj (hname.symm.trans hx)
  · rintro rfl
    exact name?_inj hname hx

end Named

section ToValue

variable (h : m.toValue a = .ok v)
include h

/-- There is one entry for each variable, in the order of first occurrence, with the value that the
list gives the variable. -/
theorem forall₂_entries_of_toValue :
    List.Forall₂ (fun x e => m.name? x = some e.name ∧ a.values.lookup x = some e.positive)
      a.vars.eraseDups v.entries := by
  obtain ⟨es, hes, rfl⟩ := toValue_eq_ok_iff.1 h
  apply forall₂_imp_of_mem (List.forall₂_map_right_iff.1 (forall₂_names_ofList hes))
  intro x _ e he hname
  refine ⟨hname, ?_⟩
  rw [← get?_ofList_of_named hes hname]
  exact ValueAssignment.get?_eq_some_iff.2 he

/-- What is read by name can be written back. -/
theorem exists_toBoolean_of_toValue : ∃ b, m.toBoolean v = .ok b := by
  apply exists_toBoolean
  intro e he
  obtain ⟨x, -, hname, -⟩ := exists_of_mem_right (forall₂_entries_of_toValue h) he
  exact mem_names_iff.2 ⟨x, hname⟩

/-! ## Back to indices -/

section ToBoolean

variable (hb : m.toBoolean v = .ok b)
include hb

theorem vars_eq_of_toValue : b.vars = a.vars.eraseDups := by
  have hnames : List.Forall₂ (fun x name => m.name? x = some name) a.vars.eraseDups
      (v.entries.map NamedLiteral.name) :=
    List.forall₂_map_right_iff.2 ((forall₂_entries_of_toValue h).imp fun _ _ he => he.1)
  exact m.biUnique_name?.1.forall₂ (forall₂_vars_of_named (toBoolean_eq_ok_iff.1 hb)) hnames

/-- The literals that come back are the last ones over their variables. -/
theorem lastSign_of_toValue {l : Literal} (hl : l ∈ b) : a.LastSign l.var l.isPositive := by
  obtain ⟨e, he, hnamed⟩ := exists_of_mem_left (toBoolean_eq_ok_iff.1 hb) hl
  obtain ⟨x, -, hx, hvalue⟩ := exists_of_mem_right (forall₂_entries_of_toValue h) he
  obtain ⟨hname, hsign⟩ := named_eq_ok_iff.1 hnamed
  obtain rfl := name?_inj hx hname
  rw [hsign] at hvalue
  exact Assignment.lookup_values_eq_some_iff.1 hvalue

theorem mem_of_toValue {l : Literal} (hl : l ∈ b) : l ∈ a := by
  obtain ⟨before, after, hsplit, -⟩ := lastSign_of_toValue h hb hl
  rw [Assignment.mem_def, hsplit, Literal.ofVar_var]
  exact List.mem_append_right _ List.mem_cons_self

/-- The list comes back exactly if it says each variable once. -/
theorem eq_iff_nodup_of_toValue : b = a ↔ a.vars.Nodup := by
  have hvars := vars_eq_of_toValue h hb
  constructor
  · rintro rfl
    rw [hvars]
    exact nodup_eraseDups _
  · intro hnodup
    rw [eraseDups_eq_self hnodup] at hvars
    have hinj := List.inj_on_of_nodup_map hnodup
    exact Assignment.eq_of_vars_eq (fun l hl l' hl' => hinj hl hl')
      (fun l hl => mem_of_toValue h hb hl) (fun l hl => hl) hvars

/-- If the list has a clean form, that is what comes back. -/
theorem eq_clean_of_toValue (hc : a.clean? = some c) : b = c := by
  obtain ⟨hconsistent, -⟩ := Assignment.clean?_eq_some_iff.1 hc
  have hvars := (vars_eq_of_toValue h hb).trans (Assignment.vars_of_clean? hc).symm
  exact Assignment.eq_of_vars_eq (Assignment.eq_of_var_eq hconsistent)
    (fun l hl => mem_of_toValue h hb hl)
    (fun l hl => (Assignment.mem_of_clean?_eq_some hc).1 hl) hvars

end ToBoolean

end ToValue

/-! ## From names to indices and back -/

/-- Written with indices, a value assignment reads as itself. -/
theorem toValue_of_toBoolean (h : m.toBoolean v = .ok b) : m.toValue b = .ok v :=
  toValue_eq_ok_iff.2 ⟨v.entries, toBoolean_eq_ok_iff.1 h, v.ofList_entries⟩

/-! ## Round trips -/

/-- A list with names for all its variables reads as one entry for each variable, in the order of
first occurrence, with the sign of the variable's last literal, which is the value that the list
gives it. With indices again, this is the list itself exactly if no variable occurs twice, and the
clean form of the list if there is one. A value assignment with names of the map comes back as it
was. -/
theorem toValue_toBoolean_roundTrips (m : VariableMap) (k : Kind) :
    (∀ (a : Assignment k) (v : ValueAssignment k), m.toValue a = .ok v →
      (∃ xs, FirstOccurrences a.vars xs ∧
        List.Forall₂ (fun x e => m.name? x = some e.name ∧ a.LastSign x e.positive ∧
          a.values.lookup x = some e.positive) xs v.entries) ∧
      ∃ b, m.toBoolean v = .ok b ∧ (b = a ↔ a.vars.Nodup) ∧ ∀ c, a.clean? = some c → b = c) ∧
    ∀ v : ValueAssignment k, (∀ e ∈ v.entries, e.name ∈ m.names) →
      ∃ b, m.toBoolean v = .ok b ∧ m.toValue b = .ok v := by
  constructor
  · intro a v h
    constructor
    · refine ⟨a.vars.eraseDups, firstOccurrences_eraseDups a.vars, ?_⟩
      apply (forall₂_entries_of_toValue h).imp
      rintro x e ⟨hname, hvalue⟩
      exact ⟨hname, Assignment.lookup_values_eq_some_iff.1 hvalue, hvalue⟩
    · obtain ⟨b, hb⟩ := exists_toBoolean_of_toValue h
      exact ⟨b, hb, eq_iff_nodup_of_toValue h hb, fun c hc => eq_clean_of_toValue h hb hc⟩
  · intro v hv
    obtain ⟨b, hb⟩ := exists_toBoolean hv
    exact ⟨b, hb, toValue_of_toBoolean hb⟩

/-- A list that contradicts itself and comes back shorter, a list that repeats itself and comes back
clean, and a value assignment that is not in the order of the map. -/
theorem toValue_toBoolean_roundTrips_repeated :
    ∃ (m : VariableMap) (a b a' c : Assignment .plain) (v v' w : ValueAssignment .plain),
      m.names = ["a", "b", "c"] ∧ a.literals.map Literal.toInt = [1, -2, 3, 1, -1] ∧
      v.render = "ValueAssignment[-a, -b, c]" ∧ b.literals.map Literal.toInt = [-1, -2, 3] ∧
      a'.literals.map Literal.toInt = [2, 1, 2] ∧ v'.render = "ValueAssignment[b, a]" ∧
      c.literals.map Literal.toInt = [2, 1] ∧ w.render = "ValueAssignment[c, -a]" ∧
      m.toValue a = .ok v ∧
      (∃ xs, FirstOccurrences a.vars xs ∧
        List.Forall₂ (fun x e => m.name? x = some e.name ∧ a.LastSign x e.positive ∧
          a.values.lookup x = some e.positive) xs v.entries) ∧
      m.toBoolean v = .ok b ∧ ¬a.vars.Nodup ∧ b ≠ a ∧
      m.toValue a' = .ok v' ∧ a'.clean? = some c ∧ m.toBoolean v' = .ok c ∧
      ∃ b', m.toBoolean w = .ok b' ∧ m.toValue b' = .ok w := by
  let m : VariableMap := ⟨["a", "b", "c"], by decide, by decide⟩
  let x : Variable := ⟨1, by decide, by decide⟩
  let y : Variable := ⟨2, by decide, by decide⟩
  let z : Variable := ⟨3, by decide, by decide⟩
  let a : Assignment .plain :=
    ⟨[.ofVar x true, .ofVar y false, .ofVar z true, .ofVar x true, .ofVar x false]⟩
  let v : ValueAssignment .plain := ⟨[⟨"a", false⟩, ⟨"b", false⟩, ⟨"c", true⟩], by decide⟩
  let a' : Assignment .plain := ⟨[.ofVar y true, .ofVar x true, .ofVar y true]⟩
  let v' : ValueAssignment .plain := ⟨[⟨"b", true⟩, ⟨"a", true⟩], by decide⟩
  let c : Assignment .plain := ⟨[.ofVar y true, .ofVar x true]⟩
  let w : ValueAssignment .plain := ⟨[⟨"c", true⟩, ⟨"a", false⟩], by decide⟩
  have hv : m.toValue a = .ok v := by rfl
  have hv' : m.toValue a' = .ok v' := by rfl
  have hc : a'.clean? = some c := by decide
  have hrepeats : ¬a.vars.Nodup := by decide
  obtain ⟨hthere, hback⟩ := toValue_toBoolean_roundTrips m .plain
  obtain ⟨hentries, b, hb, heq, -⟩ := hthere a v hv
  obtain ⟨-, b', hb', -, hclean⟩ := hthere a' v' hv'
  rw [hclean c hc] at hb'
  have hvalues : b = ⟨[.ofVar x false, .ofVar y false, .ofVar z true]⟩ :=
    Except.ok.inj (hb.symm.trans rfl)
  refine ⟨m, a, b, a', c, v, v', w, rfl, by decide, by decide, ?_, by decide, by decide, by decide,
    by decide, hv, hentries, hb, hrepeats, fun h => hrepeats (heq.1 h), hv', hc, hb',
    hback w (by decide)⟩
  rw [hvalues]
  decide

end VariableMap

end Clausal
