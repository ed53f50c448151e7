/-
  SyncLedger/Index/Files.lean
  ===========================
  **The latest state of every path, and how observations change it.**

  `Files.observe` reconciles one report of a client with what is stored, in one transaction.
  The first check that fails decides: a path, not both a rename and a deletion, a root, a
  member, no removal in progress at either path, a rename source that is there.  A report that
  says nothing new is a duplicate and costs no timestamp.  Anything else becomes a version with
  a timestamp above those of both paths, and moves the file records.
-/
import SyncLedger.Index.History

namespace SyncLedger

/-- How the timestamp of a new version is chosen. -/
inductive Stamp where
  /-- This one; it must be above all that are committed for the paths. -/
  | exact (timestamp : UInt64)
  /-- The next one that is free. -/
  | next
  deriving DecidableEq

structure Observation where
  root : String
  path : String
  client : Uuid
  hash : String
  stamp : Stamp
  metadata : Metadata := {}
  /-- False for a deletion. -/
  present : Bool := true
  renamedFrom : Option String := none
  deriving DecidableEq

inductive Decision where
  | recorded (version : Version)
  /-- The stored state says the same; no version was added. -/
  | duplicate (file : File)
  deriving DecidableEq

namespace Observation

/-- The path that the observation moves from; a rename to the same path is none. -/
def source? (o : Observation) : Option String := o.renamedFrom.filter (· ≠ o.path)

/-- Why an observation is refused whatever is stored. -/
def refusal? (o : Observation) : Option Refusal :=
  if o.path.isEmpty then some .emptyPath
  else if o.renamedFrom.isSome && !o.present then some (.renameDeletes o.root o.path)
  else none

/-- The timestamp of the new version, above `floor`. -/
def timestampAbove (o : Observation) (floor : UInt64) : Except Error UInt64 :=
  match o.stamp with
  | .exact ts => if floor < ts then .ok ts else .error (.conflict (place o.root o.path) floor)
  | .next =>
    if floor = 0xFFFFFFFFFFFFFFFF then
      .error (.invalidArgument (.noTimestampLeft o.root o.path floor))
    else .ok (floor + 1)

/-- What the observation does to a path with the given state. -/
def changeOf (o : Observation) (current source : Option File) : Change :=
  if source.isSome then .renamed
  else if !o.present then .deleted
  else if current.any (·.present) then .modified
  else .created

/-- The state of the path after the observation, with the timestamp it was given. -/
def fileAt (o : Observation) (timestamp : UInt64) : File :=
  { root := o.root, path := o.path, hash := o.hash, timestamp, present := o.present,
    metadata := o.metadata }

end Observation

namespace Files

/-- Fails while a path is being removed. -/
def ensureOpen (root path : String) : Txn Unit := do
  if ← Txn.has (.marker root (some path)) then Txn.abort (.conflict (place root path) 0)

/-- The state of the path that an observation moves from, which must be there. -/
def sourceOf (o : Observation) : Txn (Option File) :=
  match o.source? with
  | none => pure none
  | some path => do
    ensureOpen o.root path
    match ← Txn.fetch Codec.file (.file o.root path) with
    | some f =>
      if f.present then return some f
      else Txn.abort (.notFound (.renameSource o.root path))
    | none => Txn.abort (.notFound (.renameSource o.root path))

/-- Whether the stored state already is what an observation reports. -/
def isDuplicate (o : Observation) (current source : Option File) : Bool :=
  source.isNone && current.any fun f => f.present == o.present && f.hash == o.hash

/-- The greatest timestamp among the states that an observation replaces, 0 for none. -/
def floorOf (current source : Option File) : UInt64 :=
  max ((current.map (·.timestamp)).getD 0) ((source.map (·.timestamp)).getD 0)

/-- Keeps the stored state but for its metadata. -/
def refresh (o : Observation) (f : File) : Txn Decision := do
  let refreshed := { f with metadata := o.metadata }
  if f.metadata ≠ o.metadata then Txn.put Codec.file (.file o.root o.path) refreshed
  return .duplicate refreshed

/-- Adds a version and moves the file records. -/
def record (o : Observation) (current source : Option File) (now : Instant) : Txn Decision := do
  let timestamp ← liftM (o.timestampAbove (floorOf current source))
  let v : Version :=
    { root := o.root, before := source.map (·.path), after := o.path, date := now,
      client := o.client, timestamp, hash := o.hash, change := o.changeOf current source }
  History.append v
  match source with
  | some f =>
    Txn.put Codec.file (.file o.root f.path) { f with hash := o.hash, timestamp, present := false }
  | none => pure ()
  Txn.put Codec.file (.file o.root o.path) (o.fileAt timestamp)
  return .recorded v

/-- Reconciles an observation with what is stored, as one transaction. -/
def reconcile (o : Observation) (now : Instant) : Txn Decision := do
  if let some why := o.refusal? then Txn.abort (.invalidArgument why)
  let r ← Txn.require Codec.root (.root o.root) (.root o.root)
  if !r.members.contains o.client then
    Txn.abort (.unauthorized (.notMember o.client o.root))
  ensureOpen o.root o.path
  let current ← Txn.fetch Codec.file (.file o.root o.path)
  let source ← sourceOf o
  match current with
  | some f => if isDuplicate o current source then refresh o f else record o current source now
  | none => record o current source now

def observe (o : Observation) (now : Instant) : Op Decision := Op.commit (reconcile o now)

/-! ### Reading -/

def latest (root path : String) : Op File := Op.read fun t => do
  unless t.has (.root root) do throw (.notFound (.root root))
  match ← t.fetch Codec.file (Key.file root path).bytes with
  | some f => return f
  | none => throw (.notFound (.file root path))

/-- The files under a prefix whose root is registered, in key order. -/
def listUnder (p : Bytes) : Op (List File) := Op.read fun t => do
  let found ← t.scan Codec.file p
  return (found.map (·.2)).filter fun f => t.has (.root f.root)

/-- The files in scope, tombstones included. -/
def list : Scope → Op (List File)
  | .all => listUnder Key.files
  | .root r => listUnder (Key.filesOf r)
  | .path r p => do
    match ← Op.attempt (latest r p) with
    | .ok f => return [f]
    | .error (.notFound _) => return []
    | .error e => Op.fail e

/-! ### Removal -/

/-- Takes a file out of use: its record goes, a marker stays. -/
def detach (root path : String) : Txn Unit := do
  if !(← Txn.has (.root root)) then Txn.abort (.notFound (.root root))
  if !(← Txn.delete (.file root path)) then Txn.abort (.notFound (.file root path))
  Txn.put Codec.marker (.marker root (some path)) ⟨root, some path⟩

/-- Erases a file and its history; answers with the number of versions erased. -/
def remove (root path : String) (batch : Nat) : Op Nat := do
  Op.commit (detach root path)
  let n ← History.purge root path batch
  Op.drop (.marker root (some path))
  return n

/-- Erases the listed files one after another and counts them.  One that is gone already is
    passed over; any other failure stops. -/
def removeEach (batch : Nat) : List File → Nat → Op Nat
  | [], n => pure n
  | f :: rest, n => do
    match ← Op.attempt (remove f.root f.path batch) with
    | .ok _ => removeEach batch rest (n + 1)
    | .error (.notFound _) => removeEach batch rest n
    | .error e => Op.fail e

/-- Erases every file in scope; answers with their number. -/
def removeAll (scope : Scope) (batch : Nat) : Op Nat := do
  let files ← list scope
  removeEach batch files 0

end Files

end SyncLedger
