/-
  Clausal.Proofs.Assignment.ThroughNames

  Renumbering a list of literals against writing it with names and reading the names under the other
  numbering. The first way goes literal by literal and keeps repetitions; on the second one a value
  assignment stands in between, which has each name once. The second way also reports every variable
  without a name before it looks up any name.

  A list and its renumbered form read as the same named literals (`exists_reading_of_reindex`),
  hence as the same value assignment (`toValue_of_reindex`). So what the second way gives is the
  round trip of the renumbered list through its own names, and the laws of round trips apply to it.
-/
import Clausal.Proofs.Assignment.Composition
import Clausal.Proofs.VariableMap.RoundTrip

namespace Clausal

variable {k : Kind} {m n : VariableMap} {a a' b : Assignment k} {v : ValueAssignment k}

/-- A list says each variable once exactly if the literals that it reads as say each name once. -/
theorem VariableMap.nodup_vars_iff_of_named {es : List NamedLiteral}
    (h : List.Forall₂ (fun l e => m.named l = .ok e) a.literals es) :
    a.vars.Nodup ↔ (es.map NamedLiteral.name).Nodup :=
  List.rel_nodup m.biUnique_name? (forall₂_vars_of_named h)

namespace Assignment

/-! ## One reading -/

section Reindex

variable (h : a.reindex m n = .ok a')
include h

/-- A list and its renumbered form read as the same named literals. -/
theorem exists_reading_of_reindex :
    ∃ es, List.Forall₂ (fun l e => m.named l = .ok e) a.literals es ∧
      List.Forall₂ (fun l e => n.named l = .ok e) a'.literals es := by
  apply exists_common_of_forall₂
  exact (reindex_eq_ok_iff.1 h).imp fun _ _ => Literal.reindex_eq_ok_iff.1

/-- With names, a list and its renumbered form are the same value assignment. -/
theorem toValue_of_reindex : ∃ v, m.toValue a = .ok v ∧ n.toValue a' = .ok v := by
  obtain ⟨es, hm, hn⟩ := exists_reading_of_reindex h
  exact ⟨.ofList es, VariableMap.toValue_eq_ok_iff.2 ⟨es, hm, rfl⟩,
    VariableMap.toValue_eq_ok_iff.2 ⟨es, hn, rfl⟩⟩

theorem nodup_vars_iff_of_reindex : a'.vars.Nodup ↔ a.vars.Nodup := by
  obtain ⟨es, hm, hn⟩ := exists_reading_of_reindex h
  rw [VariableMap.nodup_vars_iff_of_named hm, VariableMap.nodup_vars_iff_of_named hn]

end Reindex

/-! ## Success -/

/-- If the names of a list can be read under the other numbering, each of its literals carries
over. -/
theorem carriesOver_of_toValue (hv : m.toValue a = .ok v) (hb : n.toBoolean v = .ok b) :
    ∀ l ∈ a, l.CarriesOver m n := by
  intro l hl
  have hvar : l.var ∈ a.vars.eraseDups := List.mem_eraseDups.2 (mem_vars.2 ⟨l, hl, rfl⟩)
  -- The variable has an entry, whose name is that of some literal under the other numbering.
  obtain ⟨e, he, hname, -⟩ := exists_of_mem_left (VariableMap.forall₂_entries_of_toValue hv) hvar
  obtain ⟨x, -, hx⟩ := exists_of_mem_right (VariableMap.toBoolean_eq_ok_iff.1 hb) he
  obtain ⟨hnew, -⟩ := VariableMap.named_eq_ok_iff.1 hx
  exact ⟨e.name, hname, VariableMap.mem_names_iff.2 ⟨x.var, hnew⟩⟩

/-- A list can be renumbered exactly if it can be written with names and read under the other
numbering. -/
theorem exists_reindex_iff_toValue : (∃ a', a.reindex m n = .ok a') ↔
    ∃ v b, m.toValue a = .ok v ∧ n.toBoolean v = .ok b := by
  refine ⟨?_, ?_⟩
  · rintro ⟨a', h⟩
    obtain ⟨v, hv, hv'⟩ := toValue_of_reindex h
    obtain ⟨b, hb⟩ := VariableMap.exists_toBoolean_of_toValue hv'
    exact ⟨v, b, hv, hb⟩
  · rintro ⟨v, b, hv, hb⟩
    exact exists_reindex_iff.2 (carriesOver_of_toValue hv hb)

/-! ## Results -/

section Results

variable (h : a.reindex m n = .ok a') (hv : m.toValue a = .ok v) (hb : n.toBoolean v = .ok b)
include h hv

/-- The value assignment in between is that of the renumbered list. -/
theorem toValue_eq_of_reindex : n.toValue a' = .ok v := by
  obtain ⟨w, hw, hw'⟩ := toValue_of_reindex h
  rw [hw', ← hw, hv]

include hb

/-- Unless the list contradicts itself, what comes back is the clean form of the renumbered list. -/
theorem clean?_of_reindex_of_toValue (ha : ∀ l ∈ a, -l ∉ a) : a'.clean? = some b := by
  have hconsistent : a'.clean? ≠ none := by
    rw [Ne, clean?_eq_none_iff, ← isContradictory_iff, ← isContradictory_of_reindex h,
      isContradictory_iff]
    rintro ⟨l, hl, hneg⟩
    exact ha l hl hneg
  obtain ⟨c, hc⟩ := Option.ne_none_iff_exists'.1 hconsistent
  rw [VariableMap.eq_clean_of_toValue (toValue_eq_of_reindex h hv) hb hc, hc]

/-- What comes back is the renumbered list itself exactly if the list says each variable once. -/
theorem eq_reindex_iff_nodup : b = a' ↔ a.vars.Nodup := by
  rw [VariableMap.eq_iff_nodup_of_toValue (toValue_eq_of_reindex h hv) hb,
    nodup_vars_iff_of_reindex h]

end Results

/-- Renumbering agrees with going through names. A list can be renumbered exactly if it can be
written with names and these can be read under the other numbering. The list that comes back then
reads as the renumbered one. It is the clean form of the renumbered list unless the list contradicts
itself, and the renumbered list as it is exactly if no variable occurs twice. -/
theorem reindex_agrees_with_names (m n : VariableMap) {k : Kind} (a : Assignment k) :
    ((∃ a', a.reindex m n = .ok a') ↔ ∃ v b, m.toValue a = .ok v ∧ n.toBoolean v = .ok b) ∧
    ∀ a' v b, a.reindex m n = .ok a' → m.toValue a = .ok v → n.toBoolean v = .ok b →
      n.toValue a' = .ok v ∧ n.toValue b = .ok v ∧
      ((∀ l ∈ a, -l ∉ a) → a'.clean? = some b) ∧ (b = a' ↔ a.vars.Nodup) := by
  refine ⟨exists_reindex_iff_toValue, ?_⟩
  intro a' v b h hv hb
  exact ⟨toValue_eq_of_reindex h hv, VariableMap.toValue_of_toBoolean hb,
    clean?_of_reindex_of_toValue h hv hb, eq_reindex_iff_nodup h hv hb⟩

/-- Under numberings that share two of their names: a list that repeats a literal and comes back
clean, a list that says each variable once, and a list that contradicts itself. -/
theorem reindex_agrees_with_names_partly :
    ∃ (m n : VariableMap) (a a' b d d' e e' f : Assignment .plain) (v w : ValueAssignment .plain),
      m.names = ["a", "b", "c"] ∧ n.names = ["c", "d", "a"] ∧
      a.literals.map Literal.toInt = [1, -3, 1] ∧ a'.literals.map Literal.toInt = [3, -1, 3] ∧
      b.literals.map Literal.toInt = [3, -1] ∧ v.render = "ValueAssignment[a, -c]" ∧
      a.reindex m n = .ok a' ∧ m.toValue a = .ok v ∧ n.toBoolean v = .ok b ∧
      (∀ l ∈ a, -l ∉ a) ∧ a'.clean? = some b ∧ b ≠ a' ∧
      d.literals.map Literal.toInt = [1, -3] ∧ m.toValue d = .ok v ∧ d.reindex m n = .ok d' ∧
      b = d' ∧ e.literals.map Literal.toInt = [1, -3, -1] ∧
      e'.literals.map Literal.toInt = [3, -1, -3] ∧ w.render = "ValueAssignment[-a, -c]" ∧
      f.literals.map Literal.toInt = [-3, -1] ∧ e.reindex m n = .ok e' ∧ m.toValue e = .ok w ∧
      n.toBoolean w = .ok f ∧ n.toValue e' = .ok w := by
  let x : Variable := ⟨1, by decide, by decide⟩
  let z : Variable := ⟨3, by decide, by decide⟩
  let m : VariableMap := ⟨["a", "b", "c"], by decide, by decide⟩
  let n : VariableMap := ⟨["c", "d", "a"], by decide, by decide⟩
  let a : Assignment .plain := ⟨[.ofVar x true, .ofVar z false, .ofVar x true]⟩
  let a' : Assignment .plain := ⟨[.ofVar z true, .ofVar x false, .ofVar z true]⟩
  let b : Assignment .plain := ⟨[.ofVar z true, .ofVar x false]⟩
  let d : Assignment .plain := ⟨[.ofVar x true, .ofVar z false]⟩
  let e : Assignment .plain := ⟨[.ofVar x true, .ofVar z false, .ofVar x false]⟩
  let e' : Assignment .plain := ⟨[.ofVar z true, .ofVar x false, .ofVar z false]⟩
  let f : Assignment .plain := ⟨[.ofVar z false, .ofVar x false]⟩
  let v : ValueAssignment .plain := ⟨[⟨"a", true⟩, ⟨"c", false⟩], by decide⟩
  let w : ValueAssignment .plain := ⟨[⟨"a", false⟩, ⟨"c", false⟩], by decide⟩
  have ha' : a.reindex m n = .ok a' := by rfl
  have hv : m.toValue a = .ok v := by rfl
  have hb : n.toBoolean v = .ok b := by rfl
  have ha : ∀ l ∈ a.literals, -l ∉ a.literals := by decide
  have hrepeats : ¬a.vars.Nodup := by decide
  have hdv : m.toValue d = .ok v := by rfl
  have he' : e.reindex m n = .ok e' := by rfl
  have hw : m.toValue e = .ok w := by rfl
  have hf : n.toBoolean w = .ok f := by rfl
  obtain ⟨-, hresults⟩ := reindex_agrees_with_names m n a
  obtain ⟨-, -, hclean, heq⟩ := hresults a' v b ha' hv hb
  obtain ⟨hsuccess, hdresults⟩ := reindex_agrees_with_names m n d
  obtain ⟨d', hd'⟩ := hsuccess.2 ⟨v, b, hdv, hb⟩
  obtain ⟨-, -, -, hdeq⟩ := hdresults d' v b hd' hdv hb
  obtain ⟨heread, -⟩ := (reindex_agrees_with_names m n e).2 e' w f he' hw hf
  exact ⟨m, n, a, a', b, d, d', e, e', f, v, w, rfl, rfl, by decide, by decide, by decide,
    by decide, ha', hv, hb, ha, hclean ha, fun h => hrepeats (heq.1 h), by decide, hdv, hd',
    hdeq.2 (by decide), by decide, by decide, by decide, by decide, he', hw, hf, heread⟩

end Assignment

end Clausal
