/-
  Clausal.Proofs.CommandLine.Run

  What a run of the program does to its input. A text that is read gives a clause list whose
  numbering covers all its variables (`Dimacs.exists_variableMap_of_read`). Such a list can be read
  by name, the formula made of its rows has these rows as its clauses, and the numbering that the
  rows are looked up in has all their names. So no step behind the reader fails, and what is written
  reads by name as the input does, apart from the tautologies that are left out (`Converted`).
-/
import Clausal.CommandLine.Run
import Clausal.Proofs.Dimacs.Reading
import Clausal.Proofs.Extraction.Meaning

namespace Clausal.CommandLine

/-! ## Conversion -/

/-- The second list is what the options make of the first one: the same names, in their old or in
ascending order, and the same rows by name, without those that hold a name in both signs if the list
is to be clean. The two lists are true under the same choices of values for names. -/
structure Converted (sortNames clean : Bool) (input output : ClauseList) : Prop where
  perm_names : output.numbering.names.Perm input.numbering.names
  numbering_eq : sortNames = false → output.numbering = input.numbering
  ascending : sortNames = true → output.numbering.names.Pairwise (· < ·)
  named : ∃ rows, input.named = .ok rows ∧
    output.named = .ok (if clean then rows.filter (¬ClauseList.BothSigns ·) else rows)
  holds_eq : ∀ v : String → Bool,
    output.holds (.ofNames output.numbering v) = input.holds (.ofNames input.numbering v)

/-- Leaving out rows with a name in both signs keeps the truth value. -/
theorem forall_filter_bothSigns_iff (v : String → Bool) (clean : Bool)
    (rows : List (List NamedLiteral)) :
    (∀ row ∈ if clean then rows.filter (¬ClauseList.BothSigns ·) else rows,
      ∃ n ∈ row, n.holds v = true) ↔ ∀ row ∈ rows, ∃ n ∈ row, n.holds v = true := by
  cases clean with
  | false => rfl
  | true =>
    simp only [if_true, List.mem_filter, decide_eq_true_eq]
    refine ⟨?_, ?_⟩
    · -- A row that is left out is true anyway.
      intro h row hrow
      by_cases hboth : ClauseList.BothSigns row
      · exact ClauseList.exists_holds_of_bothSigns hboth v
      · exact h row ⟨hrow, hboth⟩
    · intro h row hrow
      exact h row hrow.1

/-- With both sides known, a deferred conversion is the conversion. -/
theorem run_deferredWith {ι : Type} (label : ι) (f : Formula) (m : VariableMap) :
    (Extraction.deferredWith label (.of f) (.of m)).run.result = f.convert (some m) := rfl

/-- The numbering that the options make of a numbering. -/
def chosen (sortNames : Bool) (own : VariableMap) : VariableMap :=
  if sortNames then own.sorted else own

theorem perm_names_chosen (sortNames : Bool) (own : VariableMap) :
    (chosen sortNames own).names.Perm own.names := by
  cases sortNames with
  | false => exact .refl _
  | true => exact own.perm_names_sorted

/-- The clauses that the options keep of an extracted list. -/
def kept (clean : Bool) (extracted : ClauseList) : ClauseList :=
  if clean then extracted.dropTautologies else extracted

theorem variableMap_kept (clean : Bool) (extracted : ClauseList) :
    (kept clean extracted).variableMap = extracted.variableMap := by
  cases clean <;> rfl

theorem named_kept {extracted : ClauseList} {rows : List (List NamedLiteral)} (clean : Bool)
    (h : extracted.named = .ok rows) : (kept clean extracted).named =
      .ok (if clean then rows.filter (¬ClauseList.BothSigns ·) else rows) := by
  cases clean with
  | false => exact h
  | true => exact ClauseList.named_dropTautologies h

/-- Conversion looks the rows of a list up in the chosen numbering. -/
theorem convert_of_named {input extracted : ClauseList} {own : VariableMap}
    {rows : List (List NamedLiteral)} {sortNames : Bool} (clean : Bool)
    (hown : input.variableMap = some own) (hrows : input.named = .ok rows)
    (hextracted : (ClauseList.formulaOfNamed rows).toClauseList (chosen sortNames own) =
      .ok extracted) :
    convert sortNames clean input = .ok (kept clean extracted) := by
  have hformula : input.toFormula = .ok (ClauseList.formulaOfNamed rows) := by
    rw [ClauseList.toFormula, hrows]
    rfl
  have hrun : (ClauseList.formulaOfNamed rows).convert (some (chosen sortNames own)) =
      .ok extracted := hextracted
  simp only [convert, ClauseList.requireMap, hown, hformula, Except.mapError, run_deferredWith]
  show ((ClauseList.formulaOfNamed rows).convert (some (chosen sortNames own))).mapError _ >>= _ = _
  rw [hrun]
  rfl

/-- A list that can be read by name is converted: its rows are looked up in the chosen numbering,
and of the clauses found the options keep some. -/
theorem exists_convert_of_named {input : ClauseList} {own : VariableMap}
    {rows : List (List NamedLiteral)} (sortNames clean : Bool) (hown : input.variableMap = some own)
    (hrows : input.named = .ok rows) :
    ∃ extracted, extracted.variableMap = some (chosen sortNames own) ∧
      extracted.named = .ok rows ∧ convert sortNames clean input = .ok (kept clean extracted) := by
  -- The names that are looked up are those that were read.
  have hclauses := Formula.namedClauses_formulaOfNamed rows
  have hlookup : ∀ row ∈ (ClauseList.formulaOfNamed rows).namedClauses, ∀ n ∈ row,
      n.name ∈ (chosen sortNames own).names := by
    rw [hclauses]
    intro row hrow n hn
    exact (perm_names_chosen sortNames own).mem_iff.2
      (ClauseList.mem_names_of_named hown hrows row hrow n hn)
  obtain ⟨extracted, hextracted⟩ := Formula.exists_toClauseList hlookup
  obtain ⟨hmap, hnamed⟩ := Formula.toClauseList_eq_ok_iff.1 hextracted
  rw [hclauses] at hnamed
  exact ⟨extracted, hmap, hnamed, convert_of_named clean hown hrows hextracted⟩

/-- A list whose numbering covers all its variables is converted. -/
theorem exists_convert (sortNames clean : Bool) {input : ClauseList} {own : VariableMap}
    (hown : input.variableMap = some own) (hcovered : input.highestIndex ≤ own.size) :
    ∃ output, convert sortNames clean input = .ok output ∧
      Converted sortNames clean input output := by
  obtain ⟨rows, hrows⟩ := ClauseList.exists_named hown hcovered
  have hperm := perm_names_chosen sortNames own
  obtain ⟨extracted, hmap, hnamed, hconvert⟩ := exists_convert_of_named sortNames clean hown hrows
  have houtput := (variableMap_kept clean extracted).trans hmap
  -- Both lists read by name as the same rows, up to those left out.
  have hrows' := named_kept clean hnamed
  have hnumbering := ClauseList.numbering_of_eq_some hown
  have hnumbering' := ClauseList.numbering_of_eq_some houtput
  refine ⟨kept clean extracted, hconvert, ?_, ?_, ?_, ⟨rows, hrows, hrows'⟩, ?_⟩
  · rw [hnumbering, hnumbering']
    exact hperm
  · rintro rfl
    rw [hnumbering, hnumbering']
    rfl
  · rintro rfl
    rw [hnumbering']
    exact own.pairwise_lt_names_sorted
  · intro v
    rw [hnumbering, hnumbering', Bool.eq_iff_iff, ClauseList.holds_iff_of_named houtput hrows',
      ClauseList.holds_iff_of_named hown hrows]
    exact forall_filter_bothSigns_iff v clean rows

/-! ## Texts -/

theorem convertText_of_error {text : String} {e : Dimacs.ReadError} (sortNames clean : Bool)
    (h : Dimacs.read text = .error e) : convertText sortNames clean text = .error (.read e) := by
  rw [convertText, h]
  rfl

/-- A text that is read is converted. -/
theorem exists_convertText {text : String} {input : ClauseList} (sortNames clean : Bool)
    (h : Dimacs.read text = .ok input) :
    ∃ output, convertText sortNames clean text = .ok (Dimacs.write output) ∧
      Converted sortNames clean input output := by
  obtain ⟨own, hown, hcovered⟩ := Dimacs.exists_variableMap_of_read h
  obtain ⟨output, houtput, hconverted⟩ := exists_convert sortNames clean hown hcovered
  refine ⟨output, ?_, hconverted⟩
  rw [convertText, h]
  show convert sortNames clean input >>= _ = _
  rw [houtput]
  rfl

theorem convertFile_toUTF8 (sortNames clean : Bool) (text : String) :
    convertFile sortNames clean (.ok text.toUTF8) = convertText sortNames clean text := by
  have hdecode : String.fromUTF8? text.toUTF8 = some text := dif_pos text.isValidUTF8
  simp only [convertFile, Except.mapError, bind, Except.bind, hdecode]

/-! ## Runs -/

/-- Each choice of flags can be asked for, whatever the path looks like. -/
theorem parse_flags (sortNames clean : Bool) (path : String) :
    parse ((if sortNames then ["-s"] else []) ++ (if clean then ["-c"] else []) ++ ["--", path]) =
      .ok ⟨sortNames, clean, path⟩ := by
  cases sortNames <;> cases clean <;> rfl

variable {m : Type → Type} [Monad m] [LawfulMonad m]

/-- A run on a text ends with 0 exactly when the text is read; it prints a list that the options
make of the one read. On any other text it ends with 1, prints nothing and says why. -/
theorem run_of_readFile {readFile : String → m (Except FileError ByteArray)}
    {arguments : List String} {options : Options} {text : String}
    (hparse : parse arguments = .ok options)
    (hfile : readFile options.path = pure (.ok text.toUTF8)) :
    ∃ report, run readFile arguments = pure report ∧
      (report.exitCode = 0 ↔ ∃ input, Dimacs.read text = .ok input) ∧
      (∀ e, Dimacs.read text = .error e →
        report = ⟨1, "", "Error: " ++ e.message ++ "\n"⟩) ∧
      ∀ input, Dimacs.read text = .ok input → ∃ output,
        report = ⟨0, Dimacs.write output, ""⟩ ∧
        Converted options.sortNames options.clean input output := by
  refine ⟨.ofConversion (convertText options.sortNames options.clean text), ?_, ?_⟩
  · rw [run, hparse]
    show readFile options.path >>= _ = _
    rw [hfile, pure_bind, convertFile_toUTF8]
  · cases hread : Dimacs.read text with
    | error e =>
      rw [convertText_of_error _ _ hread]
      refine ⟨?_, ?_, nofun⟩
      · simp [Report.ofConversion]
      · rintro _ ⟨⟩
        rfl
    | ok input =>
      obtain ⟨output, houtput, hconverted⟩ :=
        exists_convertText options.sortNames options.clean hread
      rw [houtput]
      refine ⟨?_, nofun, ?_⟩
      · simp [Report.ofConversion]
      · rintro _ ⟨⟩
        exact ⟨output, rfl, hconverted⟩

/-- A text with names out of order and a clause that holds a variable in both signs. -/
def unsorted : String :=
  "c 1 b\np cnf 2 2\nc 2 a\n1 -2 0\n1 -1 0\n"

theorem run_of_readFile_unsorted :
    (∃ input output, Dimacs.read unsorted = .ok input ∧
      run (m := Id) (fun _ => .ok unsorted.toUTF8) ["-s", "-c", "--", "in.cnf"] =
        ⟨0, Dimacs.write output, ""⟩ ∧ Converted true true input output) ∧
    run (m := Id) (fun _ => .ok "".toUTF8) ["--", "in.cnf"] =
      ⟨1, "", "Error: empty input\n"⟩ := by
  let b : Variable := ⟨1, by decide, by decide⟩
  let a : Variable := ⟨2, by decide, by decide⟩
  let input : ClauseList :=
    { clauses := [⟨[.ofVar b true, .ofVar a false]⟩, ⟨[.ofVar b true, .ofVar b false]⟩]
      variableMap := some ⟨["b", "a"], by decide, by decide⟩ }
  have hread : Dimacs.read unsorted = .ok input := by
    refine Dimacs.readChars_eq_ok_iff.2
      ⟨"p cnf 2 2".toList, ["1 -2 0".toList, "1 -1 0".toList], 2, by decide, by decide, ?_, ?_⟩
    · exact .cons (by decide) (.cons (by decide) .nil)
    · refine Dimacs.number_eq_ok_iff.2 ⟨by decide, _, ?_, rfl⟩
      rw [Dimacs.namesUpTo_eq]
      decide
  have hempty : Dimacs.read "" = .error .emptyInput := by rfl
  let provide (text : String) : String → Id (Except FileError ByteArray) := fun _ => .ok text.toUTF8
  refine ⟨?_, ?_⟩
  · have hfile : provide unsorted "in.cnf" = pure (.ok unsorted.toUTF8) := rfl
    obtain ⟨report, hrun, -, -, hok⟩ := run_of_readFile (parse_flags true true "in.cnf") hfile
    obtain ⟨output, rfl, hconverted⟩ := hok input hread
    exact ⟨input, output, hread, hrun, hconverted⟩
  · have hfile : provide "" "in.cnf" = pure (.ok "".toUTF8) := rfl
    obtain ⟨report, hrun, -, herror, -⟩ := run_of_readFile (parse_flags false false "in.cnf") hfile
    rw [herror .emptyInput hempty] at hrun
    exact hrun

end Clausal.CommandLine
