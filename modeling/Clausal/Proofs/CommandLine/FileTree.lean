/-
  Clausal.Proofs.CommandLine.FileTree

  Which file a path leads to. A place in a tree has names, those of the entries to go down from the
  root (`At`). Following a component does to the place what normalizing does to the names: an empty
  component and `.` change nothing, `..` takes the last name away, and any other is one name more
  (`At.step`). So a path that leads somewhere leads to the place that its normal form names
  (`at_of_follow`), and a run that succeeds has read the file there (`exists_file_of_run`).

  A path may have the normal form of a file and lead nowhere, when it goes through something that is
  not there and back again. The names themselves, behind slashes, always lead to the file
  (`read_absolute`).
-/
import Clausal.Proofs.CommandLine.Run

namespace Clausal.CommandLine.FileTree

variable {root : FileTree} {working p q : Place} {names : List String} {component path : String}
  {bytes : ByteArray} {above : List FileTree}

/-! ## Places by name -/

/-- A component that is looked up as the name of an entry. -/
structure IsName (component : String) : Prop where
  ne_empty : component ≠ ""
  ne_dot : component ≠ "."
  ne_dotdot : component ≠ ".."
  size_le : component.utf8ByteSize ≤ maxNameBytes
  no_slash : '/' ∉ component.toList

/-- The names lead from the root down to the place. -/
inductive At (root : FileTree) : List String → Place → Prop where
  | root : At root [] ⟨root, []⟩
  | entry {names : List String} {entries : List (String × FileTree)} {above : List FileTree}
      {name : String} {entry : FileTree} : At root names ⟨.directory entries, above⟩ →
      IsName name → entries.lookup name = some entry →
      At root (names ++ [name]) ⟨entry, .directory entries :: above⟩

/-- The names behind one more component. -/
def enter (names : List String) (component : String) : List String :=
  if component = "" ∨ component = "." then names
  else if component = ".." then names.dropLast
  else names ++ [component]

/-- The names that a path stands for, if those of the working directory are given. -/
def resolve (working : List String) (path : String) : List String :=
  (components path).foldl enter (if path.toList.head? = some '/' then [] else working)

/-- The path from the root through entries with names. -/
def absolute (names : List String) : String :=
  String.ofList ('/' :: ['/'].intercalate (names.map String.toList))

/-! ## Following -/

/-- A place with no directory above it is the root. -/
theorem At.names_eq_nil {here : FileTree} (h : At root names ⟨here, []⟩) : names = [] := by
  cases h
  rfl

theorem step_entry {entries : List (String × FileTree)} {entry : FileTree}
    (hname : IsName component) (hlookup : entries.lookup component = some entry) :
    Place.step ⟨.directory entries, above⟩ component =
      .ok ⟨entry, .directory entries :: above⟩ := by
  have hstay := not_or.2 ⟨hname.ne_empty, hname.ne_dot⟩
  simp only [Place.step]
  rw [if_neg hstay, if_neg hname.ne_dotdot, if_neg (Nat.not_lt.2 hname.size_le), hlookup]

/-- What a component can do in a directory: it stays there, goes up unless it is at the root, or
goes down to an entry. -/
theorem step_cases {entries : List (String × FileTree)} (hslash : '/' ∉ component.toList)
    (h : Place.step ⟨.directory entries, above⟩ component = .ok q) :
    (component = "" ∨ component = ".") ∧ q = ⟨.directory entries, above⟩ ∨
    component = ".." ∧ above = [] ∧ q = ⟨.directory entries, []⟩ ∨
    component = ".." ∧ (∃ up rest, above = up :: rest ∧ q = ⟨up, rest⟩) ∨
    IsName component ∧ ∃ entry, entries.lookup component = some entry ∧
      q = ⟨entry, .directory entries :: above⟩ := by
  simp only [Place.step] at h
  split at h
  · next hstay => exact .inl ⟨hstay, (Except.ok.inj h).symm⟩
  · next hstay =>
    obtain ⟨hempty, hdot⟩ := not_or.1 hstay
    split at h
    · next hup =>
      cases above with
      | nil => exact .inr (.inl ⟨hup, rfl, (Except.ok.inj h).symm⟩)
      | cons up rest => exact .inr (.inr (.inl ⟨hup, up, rest, rfl, (Except.ok.inj h).symm⟩))
    · next hup =>
      split at h
      · cases h
      · next hsize =>
        have hname : IsName component := ⟨hempty, hdot, hup, Nat.le_of_not_lt hsize, hslash⟩
        split at h
        · next entry hlookup =>
          exact .inr (.inr (.inr ⟨hname, entry, hlookup, (Except.ok.inj h).symm⟩))
        · cases h

/-- Following a component goes to the place whose names it leaves. -/
theorem At.step (h : At root names p) (hslash : '/' ∉ component.toList)
    (hstep : p.step component = .ok q) : At root (enter names component) q := by
  obtain ⟨here, above⟩ := p
  cases here with
  | file bytes => cases hstep
  | directory entries =>
    obtain ⟨hstay, rfl⟩ | ⟨rfl, rfl, rfl⟩ | ⟨rfl, up, rest, rfl, rfl⟩ |
      ⟨hname, entry, hlookup, rfl⟩ := step_cases hslash hstep
    · rwa [enter, if_pos hstay]
    · obtain rfl := h.names_eq_nil
      exact h
    · cases h with
      | entry hup => simpa [enter] using hup
    · have hdown := not_or.2 ⟨hname.ne_empty, hname.ne_dot⟩
      rw [enter, if_neg hdown, if_neg hname.ne_dotdot]
      exact .entry h hname hlookup

theorem At.foldlM (h : At root names p) {components : List String}
    (hslash : ∀ c ∈ components, '/' ∉ c.toList)
    (hfollow : components.foldlM Place.step p = .ok q) :
    At root (components.foldl enter names) q := by
  induction components generalizing p names with
  | nil =>
    cases hfollow
    exact h
  | cons c components ih =>
    rw [List.foldlM_cons, bind_eq_ok_iff] at hfollow
    obtain ⟨next, hstep, hrest⟩ := hfollow
    have hnext := h.step (hslash c List.mem_cons_self) hstep
    exact ih hnext (fun c' hc' => hslash c' (List.mem_cons_of_mem _ hc')) hrest

/-- The names of a place lead to it. -/
theorem At.foldlM_names (h : At root names p) : names.foldlM Place.step ⟨root, []⟩ = .ok p := by
  induction h with
  | root => rfl
  | entry _ hname hlookup ih =>
    rw [List.foldlM_append, ih]
    exact bind_eq_ok_iff.2 ⟨_, rfl, bind_eq_ok_iff.2 ⟨_, step_entry hname hlookup, rfl⟩⟩

/-- What has names below it is a directory, so the slash in front of a path stays there. -/
theorem At.step_root (h : At root names p) (hne : names ≠ []) :
    Place.step ⟨root, []⟩ "" = .ok ⟨root, []⟩ := by
  obtain ⟨name, rest, rfl⟩ := List.exists_cons_of_ne_nil hne
  obtain ⟨next, hnext, -⟩ := bind_eq_ok_iff.1 h.foldlM_names
  cases root with
  | file bytes => cases hnext
  | directory entries => rfl

theorem At.no_slash (h : At root names p) : ∀ name ∈ names, '/' ∉ name.toList := by
  induction h with
  | root => nofun
  | entry _ hname _ ih =>
    intro name hmem
    rcases List.mem_append.1 hmem with hmem | hmem
    · exact ih name hmem
    · rw [List.mem_singleton.1 hmem]
      exact hname.no_slash

/-! ## Paths -/

theorem no_slash_of_mem_components (h : component ∈ components path) :
    '/' ∉ component.toList := by
  obtain ⟨piece, hpiece, rfl⟩ := List.mem_map.1 h
  rw [String.toList_ofList]
  intro hmem
  simpa using Text.eq_false_of_mem_pieces hpiece _ hmem

/-- The names behind slashes are cut back, with an empty component in front. -/
theorem components_absolute (hne : names ≠ []) (hslash : ∀ name ∈ names, '/' ∉ name.toList) :
    components (absolute names) = "" :: names := by
  have hpieces : ∀ piece ∈ names.map String.toList, '/' ∉ piece := by
    intro piece hpiece
    obtain ⟨name, hname, rfl⟩ := List.mem_map.1 hpiece
    exact hslash name hname
  have hcut : Text.pieces (· == '/') (['/'].intercalate (names.map String.toList)) =
      names.map String.toList := by
    rw [Text.pieces_eq_splitOn, List.splitOn_intercalate _ hpieces (by simpa using hne)]
  rw [components, absolute, String.toList_ofList, Text.pieces_cons, if_pos (by rfl), hcut,
    List.map_cons, List.map_map]
  simp [Function.comp_def]

section Resolving

-- The working directory counts for paths that do not start at the root.
variable (h : path.toList.head? ≠ some '/' → At root names working)
include h

/-- A path that leads somewhere leads to the place that its normal form names. -/
theorem at_of_follow (hfollow : root.follow working path = .ok p) :
    At root (resolve names path) p := by
  unfold follow at hfollow
  split at hfollow
  · cases hfollow
  · split at hfollow
    · cases hfollow
    · unfold resolve
      split at hfollow
      · next habsolute =>
        rw [if_pos habsolute]
        exact At.root.foldlM (fun c => no_slash_of_mem_components) hfollow
      · next hrelative =>
        rw [if_neg hrelative]
        exact (h hrelative).foldlM (fun c => no_slash_of_mem_components) hfollow

theorem at_of_read (hread : root.read working path = .ok bytes) :
    ∃ above, At root (resolve names path) ⟨.file bytes, above⟩ := by
  obtain ⟨⟨here, above⟩, hfollow, hhere⟩ := bind_eq_ok_iff.1 hread
  cases here with
  | file bytes' =>
    cases hhere
    exact ⟨above, at_of_follow h hfollow⟩
  | directory entries => cases hhere

end Resolving

/-- A path that goes through an entry that is not there leads nowhere, whatever it stands for. -/
example :
    let root := directory [("data", directory [("in.cnf", file .empty)])]
    resolve [] "/data/.//../data/in.cnf" = ["data", "in.cnf"] ∧
    root.read ⟨root, []⟩ "/data/.//../data/in.cnf" = .ok .empty ∧
    resolve [] "/gone/../data/in.cnf" = ["data", "in.cnf"] ∧
    root.read ⟨root, []⟩ "/gone/../data/in.cnf" = .error .notFound :=
  ⟨by decide, rfl, by decide, rfl⟩

/-- The path through the names of a file reads the file, from every working directory. -/
theorem read_absolute (h : At root names ⟨.file bytes, above⟩) (hne : names ≠ [])
    (hsize : (absolute names).utf8ByteSize ≤ maxPathBytes) (working : Place) :
    root.read working (absolute names) = .ok bytes := by
  have hfirst : (absolute names).toList.head? = some '/' := by
    rw [absolute, String.toList_ofList]
    rfl
  have hpath : ¬(absolute names).isEmpty := by
    rw [String.isEmpty_iff, ← String.toList_eq_nil_iff]
    intro hnil
    rw [hnil] at hfirst
    cases hfirst
  have hfollow : root.follow working (absolute names) = .ok ⟨.file bytes, above⟩ := by
    unfold follow
    rw [if_neg hpath, if_neg (Nat.not_lt.2 hsize), if_pos hfirst,
      components_absolute hne h.no_slash]
    exact bind_eq_ok_iff.2 ⟨_, h.step_root hne, h.foldlM_names⟩
  exact bind_eq_ok_iff.2 ⟨_, hfollow, rfl⟩

/-! ## Runs on a tree -/

/-- A file that is converted holds a text of the format. -/
theorem exists_text_of_convertFile {sortNames clean : Bool} {file : Except FileError ByteArray}
    {output : String} (h : convertFile sortNames clean file = .ok output) :
    ∃ text input, file = .ok text.toUTF8 ∧ Dimacs.read text = .ok input := by
  obtain ⟨bytes, hbytes, hdecoded⟩ := bind_eq_ok_iff.1 h
  have hfile : file = .ok bytes := by
    cases file with
    | error e => cases hbytes
    | ok bytes' =>
      cases hbytes
      rfl
  split at hdecoded
  · next text htext =>
    have htoUTF8 : text.toUTF8 = bytes := by
      unfold String.fromUTF8? at htext
      split at htext
      · cases htext
        rfl
      · cases htext
    cases hread : Dimacs.read text with
    | error e =>
      rw [convertText_of_error sortNames clean hread] at hdecoded
      cases hdecoded
    | ok input => exact ⟨text, input, htoUTF8 ▸ hfile, hread⟩
  · cases hdecoded

/-- A run that succeeds has read a text of the format from the file that the normal form of its path
names. -/
theorem exists_file_of_run {arguments : List String} {options : Options}
    (hparse : parse arguments = .ok options)
    (h : options.path.toList.head? ≠ some '/' → At root names working)
    (hexit : (run (m := Id) (root.read working) arguments).exitCode = 0) :
    ∃ text above input, At root (resolve names options.path) ⟨.file text.toUTF8, above⟩ ∧
      Dimacs.read text = .ok input := by
  rw [run, hparse] at hexit
  cases hconvert : convertFile options.sortNames options.clean (root.read working options.path) with
  | error e =>
    have hfailed : (Report.ofConversion (convertFile options.sortNames options.clean
        (root.read working options.path))).exitCode = 0 := hexit
    rw [hconvert] at hfailed
    cases hfailed
  | ok output =>
    obtain ⟨text, input, hfile, hread⟩ := exists_text_of_convertFile hconvert
    obtain ⟨above, hat⟩ := at_of_read h hfile
    exact ⟨text, above, input, hat, hread⟩

/-- A run on the path through the names of a file converts the text of the file. -/
theorem run_absolute {text : String} (sortNames clean : Bool)
    (h : At root names ⟨.file text.toUTF8, above⟩) (hne : names ≠ [])
    (hsize : (absolute names).utf8ByteSize ≤ maxPathBytes) (working : Place) :
    run (m := Id) (root.read working)
      ((if sortNames then ["-s"] else []) ++ (if clean then ["-c"] else []) ++
        ["--", absolute names]) =
      .ofConversion (convertText sortNames clean text) := by
  rw [run, parse_flags]
  show Report.ofConversion (convertFile _ _ (root.read working (absolute names))) = _
  rw [read_absolute h hne hsize working, convertFile_toUTF8]

end Clausal.CommandLine.FileTree
