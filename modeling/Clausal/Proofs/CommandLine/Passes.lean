/-
  Clausal.Proofs.CommandLine.Passes

  Runs of the program on its own output. A list is determined by its numbering and its rows of named
  literals, and each option works on one of them alone: sorting permutes the numbering, cleaning
  leaves out rows. So converting twice is converting once with the options of both conversions
  (`convert_convert`). What is converted is as well formed as what was read, so its text is read
  back as it is, and the law for lists becomes one for texts (`convertText_convertText`).
-/
import Clausal.Proofs.CommandLine.Run
import Clausal.Proofs.Dimacs.WellFormed

namespace Clausal.CommandLine

/-! ## Lists -/

theorem chosen_chosen (sortNames sortNames' : Bool) (own : VariableMap) :
    chosen sortNames' (chosen sortNames own) = chosen (sortNames || sortNames') own := by
  cases sortNames with
  | false => rfl
  | true =>
    cases sortNames' with
    | false => rfl
    | true => exact own.sorted_sorted

theorem kept_kept (clean clean' : Bool) (extracted : ClauseList) :
    kept clean' (kept clean extracted) = kept (clean || clean') extracted := by
  cases clean with
  | false => rfl
  | true =>
    cases clean' with
    | false => rfl
    | true => simp [kept, ClauseList.dropTautologies, ClauseList.filter]

section Lists

variable {input output : ClauseList} {own : VariableMap} {rows : List (List NamedLiteral)}
  (hown : input.variableMap = some own) (hrows : input.named = .ok rows)
include hown hrows

/-- Two conversions are one with the options of both. -/
theorem convert_convert {sortNames clean : Bool} (sortNames' clean' : Bool)
    (h : convert sortNames clean input = .ok output) :
    convert sortNames' clean' output =
      convert (sortNames || sortNames') (clean || clean') input := by
  obtain ⟨first, hmap₁, hnamed₁, hconvert₁⟩ := exists_convert_of_named sortNames clean hown hrows
  obtain rfl := Except.ok.inj (hconvert₁.symm.trans h)
  obtain ⟨second, hmap₂, hnamed₂, hconvert₂⟩ := exists_convert_of_named sortNames' clean'
    ((variableMap_kept clean first).trans hmap₁) (named_kept clean hnamed₁)
  obtain ⟨both, hmap, hnamed, hconvert⟩ :=
    exists_convert_of_named (sortNames || sortNames') (clean || clean') hown hrows
  -- The second conversion finds what is kept of the list that both options find.
  have hsame : second = kept clean both := by
    refine ClauseList.ext_named ?_ hnamed₂ (named_kept clean hnamed)
    rw [variableMap_kept, hmap, hmap₂, chosen_chosen]
  rw [hconvert₂, hconvert, hsame, kept_kept]

/-- A converted list has no more clauses. -/
theorem size_le_of_convert {sortNames clean : Bool}
    (h : convert sortNames clean input = .ok output) : output.size ≤ input.size := by
  obtain ⟨extracted, -, hnamed, hconvert⟩ := exists_convert_of_named sortNames clean hown hrows
  obtain rfl := Except.ok.inj (hconvert.symm.trans h)
  rw [ClauseList.size_of_named (named_kept clean hnamed), ClauseList.size_of_named hrows]
  split
  · exact List.length_filter_le ..
  · exact Nat.le_refl _

/-- A converted list is as well formed as the one it was converted from. -/
theorem wellFormed_of_convert {sortNames clean : Bool} (hinput : Dimacs.WellFormed input own)
    (h : convert sortNames clean input = .ok output) :
    Dimacs.WellFormed output (chosen sortNames own) := by
  obtain ⟨extracted, hmap, hnamed, hconvert⟩ := exists_convert_of_named sortNames clean hown hrows
  obtain rfl := Except.ok.inj (hconvert.symm.trans h)
  have houtput := (variableMap_kept clean extracted).trans hmap
  have hperm := perm_names_chosen sortNames own
  refine ⟨houtput, ?_, ?_, ?_, ?_, ?_⟩
  · exact hperm.length_eq.trans_le hinput.size_le
  · intro v
    exact VariableMap.name?_isSome_iff
  · intro v w name
    exact VariableMap.name?_inj
  · intro v name hv
    -- Sorting gives a name to another variable at most.
    have hmem := hperm.mem_iff.1 (VariableMap.mem_names_iff.2 ⟨v, hv⟩)
    obtain ⟨w, hw⟩ := VariableMap.mem_names_iff.1 hmem
    exact hinput.plain w name hw
  · exact ClauseList.covered_of_named houtput (named_kept clean hnamed)

end Lists

/-! ## Texts -/

theorem convertText_of_read {text : String} {input : ClauseList} (sortNames clean : Bool)
    (h : Dimacs.read text = .ok input) :
    convertText sortNames clean text = Dimacs.write <$> convert sortNames clean input := by
  rw [convertText, h]
  rfl

/-- Converting a text and then what comes out is converting it once with the options of both. -/
theorem convertText_convertText {text : String} {input : ClauseList}
    (hread : Dimacs.read text = .ok input) (hsize : input.size < 2 ^ 31) (sortNames clean : Bool) :
    ∃ output, convertText sortNames clean text = .ok output ∧ ∀ sortNames' clean',
      convertText sortNames' clean' output =
        convertText (sortNames || sortNames') (clean || clean') text := by
  obtain ⟨own, hwell⟩ := Dimacs.exists_wellFormed_of_read hread
  have hown := hwell.variableMap_eq
  obtain ⟨rows, hrows⟩ :=
    ClauseList.exists_named hown (ClauseList.highestIndex_le_iff.2 hwell.covered)
  obtain ⟨extracted, -, -, hconvert⟩ := exists_convert_of_named sortNames clean hown hrows
  have hle := size_le_of_convert hown hrows hconvert
  -- The text that is written is read as the list that was converted.
  have hback := (wellFormed_of_convert hown hrows hwell hconvert).read_write_self (by omega)
  refine ⟨Dimacs.write (kept clean extracted), ?_, ?_⟩
  · rw [convertText_of_read _ _ hread, hconvert]
    rfl
  · intro sortNames' clean'
    rw [convertText_of_read _ _ hback, convertText_of_read _ _ hread,
      convert_convert hown hrows sortNames' clean' hconvert]

/-! ## Runs -/

/-- Every run of the program with these options on a file that holds the first text ends with 0 and
prints the second text. -/
def Prints (sortNames clean : Bool) (text output : String) : Prop :=
  ∀ (m : Type → Type) [Monad m] [LawfulMonad m]
    (readFile : String → m (Except FileError ByteArray)) (arguments : List String) (path : String),
    parse arguments = .ok ⟨sortNames, clean, path⟩ →
      readFile path = pure (.ok text.toUTF8) → run readFile arguments = pure ⟨0, output, ""⟩

theorem prints_of_convertText {sortNames clean : Bool} {text output : String}
    (h : convertText sortNames clean text = .ok output) : Prints sortNames clean text output := by
  intro m _ _ readFile arguments path hparse hfile
  rw [run, hparse]
  show readFile path >>= _ = _
  rw [hfile, pure_bind, convertFile_toUTF8]
  show pure (Report.ofConversion (convertText sortNames clean text)) = _
  rw [h]
  rfl

/-- The program prints its own output again, and sorting and cleaning can be done in either order or
at once: on a text that is read, whose clauses can be counted in a header, every choice of flags
prints a text that it prints again when run on it, and sorting the cleaned text and cleaning the
sorted one print what both flags print at once. -/
theorem prints_own_output {text : String} {input : ClauseList}
    (hread : Dimacs.read text = .ok input) (hsize : input.size < 2 ^ 31) :
    ∃ output : Bool → Bool → String,
      (∀ sortNames clean, Prints sortNames clean text (output sortNames clean)) ∧
      (∀ sortNames clean,
        Prints sortNames clean (output sortNames clean) (output sortNames clean)) ∧
      Prints false true (output true false) (output true true) ∧
      Prints true false (output false true) (output true true) := by
  have hpasses := convertText_convertText hread hsize
  choose output hfirst hagain using hpasses
  have hcompose : ∀ sortNames clean sortNames' clean', convertText sortNames' clean'
      (output sortNames clean) = .ok (output (sortNames || sortNames') (clean || clean')) := by
    intro sortNames clean sortNames' clean'
    rw [hagain, hfirst]
  refine ⟨output, ?_, ?_, ?_, ?_⟩
  · intro sortNames clean
    exact prints_of_convertText (hfirst sortNames clean)
  · intro sortNames clean
    have hself := hcompose sortNames clean sortNames clean
    rw [Bool.or_self, Bool.or_self] at hself
    exact prints_of_convertText hself
  · exact prints_of_convertText (hcompose true false false true)
  · exact prints_of_convertText (hcompose false true true false)

/-- Numerals as names of other variables, a variable without a name and one that is mentioned only
in a clause that holds a variable in both signs. -/
def renumbered : String :=
  "c 1 9\nc 2 10\np cnf 3 2\n1 -3 0\n3 -3 2 0\n"

theorem prints_own_output_renumbered :
    ∃ output : Bool → Bool → String,
      run (m := Id) (fun _ => .ok renumbered.toUTF8) ["-sc", "in.cnf"] =
        ⟨0, output true true, ""⟩ ∧
      run (m := Id) (fun _ => .ok (output true true).toUTF8) ["-c", "in.cnf", "-s"] =
        ⟨0, output true true, ""⟩ ∧
      run (m := Id) (fun _ => .ok (output true false).toUTF8) ["--clean", "in.cnf"] =
        ⟨0, output true true, ""⟩ ∧
      run (m := Id) (fun _ => .ok (output false true).toUTF8) ["in.cnf", "--sort-names"] =
        ⟨0, output true true, ""⟩ := by
  let x : Variable := ⟨1, by decide, by decide⟩
  let y : Variable := ⟨2, by decide, by decide⟩
  let z : Variable := ⟨3, by decide, by decide⟩
  let input : ClauseList :=
    { clauses := [⟨[.ofVar x true, .ofVar z false]⟩,
        ⟨[.ofVar z true, .ofVar z false, .ofVar y true]⟩]
      variableMap := some ⟨["9", "10", "3"], by decide, by decide⟩ }
  have hread : Dimacs.read renumbered = .ok input := by
    refine Dimacs.readChars_eq_ok_iff.2
      ⟨"p cnf 3 2".toList, ["1 -3 0".toList, "3 -3 2 0".toList], 3, by decide, by decide, ?_, ?_⟩
    · exact .cons (by decide) (.cons (by decide) .nil)
    · refine Dimacs.number_eq_ok_iff.2 ⟨by decide, _, ?_, rfl⟩
      rw [Dimacs.namesUpTo_eq]
      decide
  obtain ⟨output, hfirst, hsame, hclean, hsort⟩ := prints_own_output hread (by decide)
  exact ⟨output, hfirst true true Id _ _ "in.cnf" rfl rfl, hsame true true Id _ _ "in.cnf" rfl rfl,
    hclean Id _ _ "in.cnf" rfl rfl, hsort Id _ _ "in.cnf" rfl rfl⟩

end Clausal.CommandLine
