/-
  SyncLedger/Record.lean
  ======================
  **The records that are kept.**  Clients and roots know each other by membership; a file is
  the latest state of a path, and a version is one entry of that path's history.  A marker says
  that a removal has begun and must be finished.

  Beside each type stands its stored form: its fields in order.
-/
import SyncLedger.Codec

namespace SyncLedger

/-- An endpoint that takes part in synchronisation. -/
structure Client where
  uuid : Uuid
  /-- The number it was given on registration. -/
  ordinal : UInt64
  address : String
  roots : OrderedSet String
  registeredAt : Instant
  deriving DecidableEq

/-- A directory tree that members share. -/
structure Root where
  path : String
  owner : String
  passwordHash : String
  /-- How often the password has been replaced. -/
  epoch : UInt64
  members : OrderedSet Uuid
  createdAt : Instant
  deriving DecidableEq

/-- What a client says of a file besides its content. -/
structure Metadata where
  modified : Option Instant := none
  size : UInt64 := 0
  mode : UInt32 := 0
  deriving DecidableEq

/-- The latest state of one path. -/
structure File where
  root : String
  path : String
  hash : String
  timestamp : UInt64
  /-- False for a tombstone: the newest version removes the path. -/
  present : Bool
  metadata : Metadata
  deriving DecidableEq

/-- What a version did to its path. -/
inductive Change where
  | created
  | modified
  | deleted
  | renamed
  deriving DecidableEq

structure Version where
  root : String
  /-- The path before, for a rename. -/
  before : Option String
  after : String
  /-- When it was committed. -/
  date : Instant
  client : Uuid
  /-- Its place in the history of its paths. -/
  timestamp : UInt64
  hash : String
  change : Change
  deriving DecidableEq

/-- Whether a version ends the life of a path: deletes it, or renames it away. -/
def Version.removes (v : Version) (path : String) : Bool :=
  match v.change with
  | .deleted => v.after == path
  | .renamed => v.before == some path
  | _ => false

/-- A removal in progress, of a whole root or of one path. -/
structure Marker where
  root : String
  path : Option String
  deriving DecidableEq

namespace Change

/-- The number that stands for a change in stored form. -/
def tag : Change → Nat
  | .created => 0
  | .modified => 1
  | .deleted => 2
  | .renamed => 3

def ofTag? : Nat → Option Change
  | 0 => some .created
  | 1 => some .modified
  | 2 => some .deleted
  | 3 => some .renamed
  | _ => none

/-- The name that stands for a change where people read it. -/
def name : Change → String
  | .created => "Created"
  | .modified => "Modified"
  | .deleted => "Deleted"
  | .renamed => "Renamed"

end Change

/-! ### Stored forms -/

namespace Codec

def client : Codec Client :=
  (uuid.pair <| u64.pair <| text.pair <| text.set.pair instant).via
    (fun c => (c.uuid, c.ordinal, c.address, c.roots, c.registeredAt))
    (fun (uuid, ordinal, address, roots, registeredAt) =>
      some { uuid, ordinal, address, roots, registeredAt })

def root : Codec Root :=
  (text.pair <| text.pair <| text.pair <| u64.pair <| uuid.set.pair instant).via
    (fun r => (r.path, r.owner, r.passwordHash, r.epoch, r.members, r.createdAt))
    (fun (path, owner, passwordHash, epoch, members, createdAt) =>
      some { path, owner, passwordHash, epoch, members, createdAt })

def metadata : Codec Metadata :=
  (instant.option.pair <| u64.pair u32).via
    (fun m => (m.modified, m.size, m.mode))
    (fun (modified, size, mode) => some { modified, size, mode })

def file : Codec File :=
  (text.pair <| text.pair <| text.pair <| u64.pair <| bool.pair metadata).via
    (fun f => (f.root, f.path, f.hash, f.timestamp, f.present, f.metadata))
    (fun (root, path, hash, timestamp, present, metadata) =>
      some { root, path, hash, timestamp, present, metadata })

/-- Four bytes, one of the four tags. -/
def change : Codec Change := (word 4).via Change.tag Change.ofTag?

def version : Codec Version :=
  (text.pair <| text.option.pair <| text.pair <| instant.pair <| uuid.pair <| u64.pair <|
    text.pair change).via
    (fun v => (v.root, v.before, v.after, v.date, v.client, v.timestamp, v.hash, v.change))
    (fun (root, before, after, date, client, timestamp, hash, change) =>
      some { root, before, after, date, client, timestamp, hash, change })

def marker : Codec Marker :=
  (text.pair text.option).via (fun m => (m.root, m.path)) (fun (root, path) => some { root, path })

end Codec

end SyncLedger
