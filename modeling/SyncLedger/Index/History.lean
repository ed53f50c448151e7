/-
  SyncLedger/Index/History.lean
  =============================
  **Version history.**  Versions are only ever added.  A rename is stored twice, under the path
  it went to and under the path it came from; a listing across paths shows it once.

  Versions of a root that is not registered, or of a path without a file record, are being
  removed: `get` and the listings treat them as absent.  `latest` does not look at either.
-/
import SyncLedger.Store

namespace SyncLedger

inductive Scope where
  | all
  | root (root : String)
  | path (root path : String)
  deriving DecidableEq

namespace History

/-- Stores a version under its path, and under its former path if it has one. -/
def append (v : Version) : Txn Unit := do
  if ← Txn.has (.version v.root v.after v.timestamp) then
    Txn.abort (.conflict (place v.root v.after) v.timestamp)
  Txn.put Codec.version (.version v.root v.after v.timestamp) v
  match v.before with
  | some before => Txn.put Codec.version (.version v.root before v.timestamp) v
  | none => pure ()

/-- Fails unless a root and a file of it are there. -/
def requireFile (t : Records) (root path : String) : Except Error Unit := do
  unless t.has (.root root) do throw (.notFound (.root root))
  unless t.has (.file root path) do throw (.notFound (.file root path))

/-- The version of a path with exactly the given timestamp. -/
def get (root path : String) (timestamp : UInt64) : Op Version := Op.read fun t => do
  requireFile t root path
  match ← t.fetch Codec.version (Key.version root path timestamp).bytes with
  | some v => return v
  | none => throw (.notFound (.version root path timestamp))

/-- The version with the greatest timestamp that is stored for a path. -/
def latest (root path : String) : Op (Option Version) :=
  Op.read fun t => t.fetchLast Codec.version (Key.versionsAt root path)

/-- The prefix of the versions that a listing looks at. -/
def prefixOf : Scope → Bytes
  | .all => Key.versions
  | .root r => Key.versionsOf r
  | .path r p => Key.versionsAt r p

/-- Whether a stored version belongs in a listing: its root and file are there, and if the
    listing is across paths it is not the second copy of a rename whose target is there. -/
def isListed (t : Records) (scope : Scope) (entry : Bytes × Version) : Bool :=
  match Key.parseVersion? entry.1 with
  | none => false
  | some (root, path, _) =>
    let isSecondCopy := match scope with
      | .path _ _ => false
      | _ => path != entry.2.after && t.has (.file root entry.2.after)
    t.has (.root root) && t.has (.file root path) && !isSecondCopy

/-- The versions in scope, oldest first. -/
def list (scope : Scope) : Op (List Version) := Op.read fun t => do
  let found ← t.scan Codec.version (prefixOf scope)
  let versions := (found.filter (isListed t scope)).map (·.2)
  return versions.mergeSort fun v w => v.timestamp ≤ w.timestamp

/-- Purges the versions stored for a path; answers with their number. -/
def purge (root path : String) (batch : Nat) : Op Nat := Op.purge (Key.versionsAt root path) batch

/-- Checks the latest state of a file against its newest version. -/
def check (f : File) (newest : Option Version) : Except Error Unit :=
  match newest with
  | none => .error (.corrupted (.noHistory f.root f.path))
  | some v =>
    if v.hash ≠ f.hash ∨ v.timestamp ≠ f.timestamp then
      .error (.corrupted (.disagrees f.root f.path f.hash f.timestamp v.hash v.timestamp))
    else if !f.present && !v.removes f.path then
      .error (.corrupted (.tombstoneNotDeleted f.root f.path))
    else .ok ()

end History

end SyncLedger
