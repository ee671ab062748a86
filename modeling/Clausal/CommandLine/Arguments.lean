/-
  Clausal.CommandLine.Arguments

  The arguments of the program. Flags are `-s` or `--sort-names`, `-c` or `--clean`, and `-h` or
  `--help`; short flags may share one dash. The one other argument is the path of the input. Flags
  and path may come in any order; no flag may repeat or take a value, and everything behind `--` is
  a path, as are a lone dash and the empty text. Arguments are taken from left to right, and the
  first one that asks for help or is not allowed decides.
-/

namespace Clausal.CommandLine

/-- What the arguments ask for. -/
structure Options where
  /-- Number the variables in ascending order of their names. -/
  sortNames : Bool
  /-- Leave out clauses that hold a literal and its negation. -/
  clean : Bool
  /-- Where the input is. -/
  path : String
deriving DecidableEq

/-- A switch on the command line. -/
inductive Flag where
  | sortNames
  | clean
  | help
deriving DecidableEq

namespace Flag

/-- The flag with a long name. -/
def ofName? : String → Option Flag
  | "sort-names" => some .sortNames
  | "clean" => some .clean
  | "help" => some .help
  | _ => none

/-- The flag with a one-letter name. -/
def ofLetter? : Char → Option Flag
  | 's' => some .sortNames
  | 'c' => some .clean
  | 'h' => some .help
  | _ => none

end Flag

/-- Why no conversion is asked for. -/
inductive Stop where
  /-- Help is asked for. -/
  | help
  /-- The argument is no flag, or a second path. -/
  | unexpected (argument : String)
  /-- The flag was given before. -/
  | repeated (flag : Flag)
  /-- There is no path. -/
  | missingPath
deriving DecidableEq

/-- The arguments seen so far. -/
structure Arguments where
  sortNames : Bool
  clean : Bool
  path : Option String
deriving DecidableEq

namespace Arguments

/-- No argument. -/
def none : Arguments := ⟨false, false, .none⟩

/-- Take a flag. -/
def takeFlag (a : Arguments) : Flag → Except Stop Arguments
  | .sortNames =>
    if a.sortNames then .error (.repeated .sortNames) else .ok { a with sortNames := true }
  | .clean => if a.clean then .error (.repeated .clean) else .ok { a with clean := true }
  | .help => .error .help

/-- Take a path. -/
def takePath (a : Arguments) (path : String) : Except Stop Arguments :=
  match a.path with
  | .none => .ok { a with path := some path }
  | some _ => .error (.unexpected path)

/-- Take a flag if there is one. -/
def takeFlag? (a : Arguments) (argument : String) : Option Flag → Except Stop Arguments
  | some flag => a.takeFlag flag
  | .none => .error (.unexpected argument)

/-- Take an argument that may be a flag. -/
def take (a : Arguments) (argument : String) : Except Stop Arguments :=
  match argument.toList with
  | '-' :: '-' :: name => a.takeFlag? argument (Flag.ofName? (String.ofList name))
  | '-' :: letter :: letters =>
    (letter :: letters).foldlM (fun a c => a.takeFlag? argument (Flag.ofLetter? c)) a
  | _ => a.takePath argument

/-- Take arguments from left to right; behind `--` there are only paths. -/
def takeAll (a : Arguments) : List String → Except Stop Arguments
  | [] => .ok a
  | argument :: rest =>
    if argument = "--" then rest.foldlM takePath a
    else do (← a.take argument).takeAll rest

/-- The options that the arguments amount to. -/
def finish (a : Arguments) : Except Stop Options :=
  match a.path with
  | some path => .ok ⟨a.sortNames, a.clean, path⟩
  | .none => .error .missingPath

end Arguments

/-- The options that a command line asks for. -/
def parse (arguments : List String) : Except Stop Options := do
  (← Arguments.none.takeAll arguments).finish

end Clausal.CommandLine
