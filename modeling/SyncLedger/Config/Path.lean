/-
  SyncLedger/Config/Path.lean
  ===========================
  **Directory paths as texts.**  Joining does not tidy up: dots and doubled separators stay as
  they are written.
-/
import SyncLedger.Config.Basic
import SyncLedger.Text

namespace SyncLedger

namespace Path

def isAbsolute (p : String) : Bool := p.startsWith "/"

/-- A path taken from a base.  An absolute path stands for itself; otherwise a separator comes
    between the two, unless the base is empty or ends in one. -/
def join (base p : String) : String :=
  if isAbsolute p then p
  else if base.isEmpty || base.endsWith "/" then base ++ p
  else base ++ "/" ++ p

/-- What stands between the separators of a path, empty parts included. -/
def split (p : String) : List String := (Text.splitAt '/' p.toList).map String.ofList

/-- The parts of a path between separators, without empty parts and without `.` after the
    first part. -/
def parts (p : String) : List String :=
  let all := (split p).filter (· ≠ "")
  match all with
  | [] => []
  | first :: rest => first :: rest.filter (· ≠ ".")

/-- The name after the last separator, if the path has one. -/
def fileName? (p : String) : Option String :=
  match (parts p).getLast? with
  | some name => if name = ".." ∨ name = "." then none else some name
  | none => none

/-- What follows the last point of the file's name; a point at the front does not count. -/
def extension? (p : String) : Option String := do
  let name ← fileName? p
  let cs := name.toList
  let ending := (cs.reverse.takeWhile (· ≠ '.')).reverse
  if ending.length + 1 < cs.length then return String.ofList ending else none

/-- A part between separators that does not count at either end of a relative path. -/
def isIdle (part : String) : Bool := part == "" || part == "."

/-- A path that begins with `~`, taken from the home directory if there is one. -/
def expandHome (home : Option String) (p : String) : String :=
  match home, split p with
  | some h, "~" :: rest =>
    let kept := ((rest.dropWhile isIdle).reverse.dropWhile isIdle).reverse
    join h ("/".intercalate kept)
  | _, _ => p

end Path

def Config.databasePath (c : Config) : String := Path.join c.dataDir c.storage.path

end SyncLedger
