/-
  Clausal.CommandLine.FileTree

  A tree of files in memory, read by path the way a Unix system does, so that the program can be run
  without touching a disk. A path is followed component by component: an empty component and `.`
  stay in a directory, `..` goes up, and everything else is an entry. A path that starts with a
  slash is followed from the root, any other from the working directory.
-/
import Clausal.Text.Split

namespace Clausal.CommandLine

/-- Why a path gives no bytes. -/
inductive FileError where
  /-- There is nothing under the path. -/
  | notFound
  /-- The path goes through a file. -/
  | notDirectory
  /-- The path leads to a directory. -/
  | isDirectory
  /-- The path or one of its components is too long. -/
  | nameTooLong
  /-- Another reason, in the words of the system. -/
  | other (text : String)
deriving DecidableEq

/-- The text of a file error, with the number that the system gives it. -/
def FileError.message : FileError → String
  | .notFound => "No such file or directory (os error 2)"
  | .notDirectory => "Not a directory (os error 20)"
  | .isDirectory => "Is a directory (os error 21)"
  | .nameTooLong => "File name too long (os error 36)"
  | .other text => text

/-- A file with its bytes, or a directory with its named entries. -/
inductive FileTree where
  | file (bytes : ByteArray)
  | directory (entries : List (String × FileTree))

namespace FileTree

/-- The longest name of an entry, in bytes. -/
def maxNameBytes : Nat := 255

/-- The longest path, in bytes. -/
def maxPathBytes : Nat := 4095

/-- A place in a tree: what is there, and the directories above it, the nearest first. -/
structure Place where
  here : FileTree
  above : List FileTree

/-- Follow one component of a path. -/
def Place.step (p : Place) (name : String) : Except FileError Place :=
  match p.here with
  | .file _ => .error .notDirectory
  | .directory entries =>
    if name = "" ∨ name = "." then .ok p
    else if name = ".." then
      match p.above with
      | [] => .ok p
      | up :: rest => .ok ⟨up, rest⟩
    else if name.utf8ByteSize > maxNameBytes then .error .nameTooLong
    else
      match entries.lookup name with
      | some entry => .ok ⟨entry, p.here :: p.above⟩
      | none => .error .notFound

/-- The components of a path: the texts between slashes. -/
def components (path : String) : List String :=
  (Text.pieces (· == '/') path.toList).map String.ofList

/-- The place that a path leads to, from a root and a working directory. -/
def follow (root : FileTree) (working : Place) (path : String) : Except FileError Place :=
  if path.isEmpty then .error .notFound
  else if path.utf8ByteSize > maxPathBytes then .error .nameTooLong
  else
    let start := if path.toList.head? = some '/' then ⟨root, []⟩ else working
    (components path).foldlM Place.step start

/-- The bytes of the file that a path leads to. -/
def read (root : FileTree) (working : Place) (path : String) : Except FileError ByteArray := do
  match (← follow root working path).here with
  | .file bytes => .ok bytes
  | .directory _ => .error .isDirectory

end FileTree

end Clausal.CommandLine
