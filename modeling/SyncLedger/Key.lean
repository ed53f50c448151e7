/-
  SyncLedger/Key.lean
  ===================
  **The key layout of the record table.**  Every family of records has a two-byte mark of its
  own.  File and version keys hold the root first, so that everything of a root, or of one
  path, lies under one prefix.  Names are written as segments, a four-byte length and then the
  bytes, so that no name's prefix covers a longer neighbour (`/docs` and `/docs2`).  The
  timestamp of a version comes last and most significant byte first, so versions of a path
  stand in the order of their timestamps.
-/
import SyncLedger.Bytes
import SyncLedger.Uuid

namespace SyncLedger

inductive Key where
  | client (id : Uuid)
  | root (root : String)
  | file (root path : String)
  | version (root path : String) (timestamp : UInt64)
  /-- The mark of a removal in progress, of a whole root or of one path. -/
  | marker (root : String) (path : Option String)
  deriving DecidableEq

namespace Key

/-- A name as its length and its bytes. -/
def segment (name : String) : Bytes :=
  Bytes.bigEndian 4 name.utf8ByteSize ++ Bytes.ofText name

/-! ### Prefixes -/

/-- The mark of client records, `c/`. -/
def clients : Bytes := [0x63, 0x2F]

/-- The mark of root records, `d/`. -/
def roots : Bytes := [0x64, 0x2F]

/-- The mark of file records, `f/`. -/
def files : Bytes := [0x66, 0x2F]

/-- The mark of version records, `h/`. -/
def versions : Bytes := [0x68, 0x2F]

/-- The mark of removal markers, `s/`. -/
def markers : Bytes := [0x73, 0x2F]

/-- The prefix of every file key of a root. -/
def filesOf (root : String) : Bytes := files ++ segment root

/-- The prefix of every version key of a root. -/
def versionsOf (root : String) : Bytes := versions ++ segment root

/-- The prefix of every version key of one path. -/
def versionsAt (root path : String) : Bytes := versionsOf root ++ segment path

/-! ### Writing -/

def bytes : Key → Bytes
  | .client id => clients ++ id.bytes
  | .root r => roots ++ Bytes.ofText r
  | .file r p => filesOf r ++ segment p
  | .version r p t => versionsAt r p ++ Bytes.bigEndian 8 t.toNat
  | .marker r none => markers ++ segment r
  | .marker r (some p) => markers ++ segment r ++ segment p

/-! ### Reading -/

/-- A segment at the front, and what follows it. -/
def readSegment? (b : Bytes) : Option (String × Bytes) :=
  if b.length < 4 then none
  else
    let n := Bytes.ofBigEndian (b.take 4)
    let rest := b.drop 4
    if rest.length < n then none
    else (Bytes.text? (rest.take n)).map fun name => (name, rest.drop n)

/-- What follows a mark, if the bytes start with it. -/
def after? (mark b : Bytes) : Option Bytes :=
  if mark.isPrefixOf b then some (b.drop mark.length) else none

/-- The root and path that a file key names; nothing may follow the path. -/
def parseFile? (b : Bytes) : Option (String × String) := do
  let (r, rest) ← readSegment? (← after? files b)
  let (p, rest) ← readSegment? rest
  if rest.isEmpty then return (r, p) else none

/-- The root, path and timestamp that a version key names; the timestamp is eight bytes. -/
def parseVersion? (b : Bytes) : Option (String × String × UInt64) := do
  let (r, rest) ← readSegment? (← after? versions b)
  let (p, rest) ← readSegment? rest
  if rest.length = 8 then return (r, p, UInt64.ofNat (Bytes.ofBigEndian rest)) else none

end Key

end SyncLedger
