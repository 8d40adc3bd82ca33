/-!
Files in directories: what a path leads to, and why it may lead nowhere.
-/

namespace LoopFusion

/-- Why a file cannot be read or written. -/
inductive FileFault
  | missing
  | notDirectory
  | isDirectory
  | nameTooLong
  | other (reason : String)
deriving DecidableEq

def FileFault.text : FileFault → String
  | missing => "No such file or directory (os error 2)"
  | notDirectory => "Not a directory (os error 20)"
  | isDirectory => "Is a directory (os error 21)"
  | nameTooLong => "File name too long (os error 36)"
  | other reason => reason

/-- The names from the root on. -/
abbrev Location := List String

inductive FileEntry
  | directory
  | file (content : String)

structure FileTree where
  /-- All that is there, except the root. -/
  entries : List (Location × FileEntry)
  /-- The directory where a relative path starts. -/
  start : Location

namespace FileTree

def entry? (t : FileTree) (l : Location) : Option FileEntry :=
  if l.isEmpty then some .directory else t.entries.lookup l

/-- One step along a path. What the last step leads to need not be there. -/
def follow (t : FileTree) (l : Location) (name : String) : Except FileFault Location :=
  match t.entry? l with
  | none => .error .missing
  | some (.file _) => .error .notDirectory
  | some .directory =>
    if name = "." then .ok l
    else if name = ".." then .ok l.dropLast
    else if 255 < name.utf8ByteSize then .error .nameTooLong
    else .ok (l ++ [name])

/-- The place that a path names; a path that starts with a slash starts at the root. -/
def locate (t : FileTree) (path : String) : Except FileFault Location :=
  if path.isEmpty then .error .missing
  else if 4096 ≤ path.utf8ByteSize then .error .nameTooLong
  else
    ((path.splitOn "/").filter (· ≠ "")).foldlM t.follow
      (if path.toList.head? = some '/' then [] else t.start)

/-- A path that ends with a slash names a directory. -/
def namesDirectory (path : String) : Bool := path.toList.getLast? = some '/'

def read (t : FileTree) (path : String) : Except FileFault String := do
  match t.entry? (← t.locate path) with
  | none => throw .missing
  | some .directory => throw .isDirectory
  | some (.file content) => if namesDirectory path then throw .notDirectory else return content

/-- Where a file goes that is written to a path, in place of one that may be there. -/
def target (t : FileTree) (path : String) : Except FileFault Location := do
  let l ← t.locate path
  if namesDirectory path then throw .isDirectory
  match t.entry? l with
  | some .directory => throw .isDirectory
  | _ => return l

end FileTree

end LoopFusion
