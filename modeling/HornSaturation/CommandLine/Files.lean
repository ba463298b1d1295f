/-!
# Files

The file of a command line is a path, and what a path leads to is a text or the reason why there is
none. Paths are resolved in a tree of directories and text files, from the root if they begin with a
slash and from the working directory otherwise. Only a directory can be passed through, also by an
empty or a dotted step, and names and paths are limited in length.
-/

namespace HornSaturation.CommandLine

/-- Why the text of a file cannot be had. -/
inductive FileFault where
  | notFound
  | permissionDenied
  | notADirectory
  | isADirectory
  | nameTooLong
  /-- The contents are no UTF-8 text. -/
  | notText
  | other (reason : String)
  deriving DecidableEq

namespace FileFault

/-- The wording of a fault, with the number that the system gives it. -/
def message : FileFault → String
  | notFound => "No such file or directory (os error 2)"
  | permissionDenied => "Permission denied (os error 13)"
  | notADirectory => "Not a directory (os error 20)"
  | isADirectory => "Is a directory (os error 21)"
  | nameTooLong => "File name too long (os error 36)"
  | notText => "stream did not contain valid UTF-8"
  | other reason => reason

/-- The fault to which the system gives a number. -/
def ofNumber? : Nat → Option FileFault
  | 2 => some notFound
  | 13 => some permissionDenied
  | 20 => some notADirectory
  | 21 => some isADirectory
  | 36 => some nameTooLong
  | _ => none

end FileFault

/-- Directories and text files. -/
inductive FileTree where
  | file (contents : String)
  | directory (entries : List (String × FileTree))
  deriving Inhabited

/-- The greatest number of bytes in the name of a file. -/
def maxNameLength : Nat := 255

/-- The greatest number of bytes in a path. -/
def maxPathLength : Nat := 4095

namespace FileTree

/-- What the steps of a path lead to. The directories above the current place are listed from the
inside out; the root is its own parent. -/
def walk : (above : List FileTree) → (here : FileTree) → (steps : List String) →
    Except FileFault FileTree
  | _, here, [] => .ok here
  | _, .file _, _ :: _ => .error .notADirectory
  | above, .directory entries, step :: steps =>
    if step = "" ∨ step = "." then walk above (.directory entries) steps
    else if step = ".." then
      match above with
      | parent :: above => walk above parent steps
      | [] => walk [] (.directory entries) steps
    else if maxNameLength < step.utf8ByteSize then .error .nameTooLong
    else
      match entries.lookup step with
      | some next => walk (.directory entries :: above) next steps
      | none => .error .notFound

/-- The text of a file; a directory has none. -/
def text : FileTree → Except FileFault String
  | file contents => .ok contents
  | directory _ => .error .isADirectory

end FileTree

/-- A directory with the directories above it. -/
structure WorkingDirectory where
  here : FileTree
  /-- The directories above, from the inside out. -/
  above : List FileTree

namespace WorkingDirectory

/-- The root of the tree. -/
def root (w : WorkingDirectory) : FileTree := w.above.getLast?.getD w.here

/-- What a path leads to. -/
def find (w : WorkingDirectory) (path : String) : Except FileFault FileTree :=
  if maxPathLength < path.utf8ByteSize then .error .nameTooLong
  else if path.isEmpty then .error .notFound
  else if path.startsWith "/" then FileTree.walk [] w.root (path.splitOn "/")
  else FileTree.walk w.above w.here (path.splitOn "/")

/-- The text of the file that a path leads to. -/
def read (w : WorkingDirectory) (path : String) : Except FileFault String := do
  (← w.find path).text

end WorkingDirectory

end HornSaturation.CommandLine
