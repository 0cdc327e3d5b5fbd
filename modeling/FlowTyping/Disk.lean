import FlowTyping.Program.Error

/-!
# Files

Programs and settings are read from files. `Disk` is what is asked of a place that has files; a
`FileTree` is such a place that is given as a value.

Paths are texts with slashes. `absolute` leads from a directory along a path without looking at the
files; a tree follows a path step by step, so that each step but the last must be a directory.
-/

namespace FlowTyping

/-- A place that has files. -/
class Disk (m : Type → Type) where
  /-- The text of a file. -/
  read : String → m (Except ReadError String)
  /-- Whether there is a file or a directory. -/
  present : String → m Bool
  /-- The working directory. -/
  here : m String

namespace Path

/-- The parts of a path. -/
def parts (path : String) : List String := path.splitOn "/"

/-- Follows parts from a directory, whose own parts are given from the last to the first. The first
part of all is never left. -/
def follow : List String → List String → List String
  | at_, [] => at_
  | at_, p :: ps =>
    if p = "" || p = "." then follow at_ ps
    else if p = ".." then
      match at_ with
      | _ :: top :: above => follow (top :: above) ps
      | _ => follow at_ ps
    else follow (p :: at_) ps

/-- The parts of a path seen from a directory, from the last to the first. -/
def absolute (dir path : String) : List String :=
  if path.startsWith "/" then follow [""] (parts path) else follow (parts dir).reverse (parts path)

/-- The path of parts from the last to the first. -/
def ofReversed (reversed : List String) : String := "/".intercalate reversed.reverse

end Path

/-- A tree of files, with the path at which it stands and a working directory in it. -/
structure FileTree where
  root : String
  /-- Paths and texts. -/
  files : List (String × String) := []
  dirs : List String := []
  /-- The working directory, as a path from the root. -/
  start : String := ""

namespace FileTree

/-- The parts of a path from the root. -/
def names (path : String) : List String := (Path.follow [""] (Path.parts path)).reverse.drop 1

/-- The text of the file at a place. -/
def file? (t : FileTree) (at_ : List String) : Option String :=
  (t.files.find? fun (path, _) => names path = at_).map (·.2)

/-- Whether a place is a directory: the root, a given one, or one on the way to something. -/
def isDir (t : FileTree) (at_ : List String) : Bool :=
  at_.isEmpty || t.dirs.any (fun d => at_.isPrefixOf (names d)) ||
    t.files.any fun (path, _) => at_.isPrefixOf (names path) && at_ ≠ names path

/-- Number of bytes that a part of a path may have. -/
def longestPart : Nat := 255

/-- Number of bytes that a path may have. -/
def longestPath : Nat := 4095

/-- Follows parts step by step. -/
def walk (t : FileTree) : (at_ : List String) → List String → Except ReadError (List String)
  | at_, [] => .ok at_
  | at_, p :: ps =>
    if (t.file? at_).isSome then .error .notDirectory
    else if p = "" || p = "." then walk t at_ ps
    else if p = ".." then walk t at_.dropLast ps
    else if longestPart < p.utf8ByteSize then .error .tooLong
    else
      let next := at_ ++ [p]
      if (t.file? next).isSome || t.isDir next then walk t next ps else .error .missing

/-- The place of a path: one that begins with the root's path is seen from there. -/
def locate (t : FileTree) (path : String) : Except ReadError (List String) :=
  if path.isEmpty then .error .missing
  else if path.toList.contains '\x00' then .error .invalid
  else if longestPath < path.utf8ByteSize then .error .tooLong
  else
    let parts := Path.parts path
    let root := Path.parts t.root
    if root.isPrefixOf parts then t.walk [] (parts.drop root.length)
    else t.walk (names t.start) parts

/-- The text of a file. -/
def read (t : FileTree) (path : String) : Except ReadError String := do
  let at_ ← t.locate path
  match t.file? at_ with
  | some text => return text
  | none => throw .directory

/-- Whether there is something at a path. -/
def present (t : FileTree) (path : String) : Bool := (t.locate path).toOption.isSome

/-- The path of the working directory. -/
def here (t : FileTree) : String := Path.ofReversed (Path.absolute t.root t.start)

end FileTree

/-- Computations that read from a tree of files. -/
abbrev InFiles := ReaderM FileTree

instance : Disk InFiles where
  read path := fun t => pure (t.read path)
  present path := fun t => pure (t.present path)
  here := fun t => pure t.here

end FlowTyping
