/-
  SyncLedger/Registry/Roots.lean
  ==============================
  **Roots: registration, passwords, membership, removal.**

  Membership is kept twice, in the root's members and in the client's roots, and `join` writes
  both in one transaction.  A removal first detaches the root: in one transaction the record
  goes, the members forget the root, and a marker is left.  Only then are the root's files and
  versions purged, in batches, and the marker dropped.  Readers treat what belongs to a missing
  root as absent, and no root can be registered under a marker, so nobody sees the purge.
-/
import SyncLedger.Store
import SyncLedger.Registry.Secret

namespace SyncLedger

def Root.hasMember (r : Root) (id : Uuid) : Bool := r.members.contains id

/-- How many records a removal purged. -/
structure Purged where
  files : Nat
  versions : Nat
  deriving DecidableEq

namespace Roots

def get (path : String) : Op Root := Op.read fun t => do
  match ← t.fetch Codec.root (Key.root path).bytes with
  | some r => return r
  | none => throw (.notFound (.root path))

def list : Op (List Root) := Op.read fun t => (t.scan Codec.root Key.roots).map (·.map (·.2))

/-- The members of a root, in order. -/
def members (path : String) : Op (List Uuid) := do
  let r ← get path
  return r.members.toList

/-- The root, for a client that is a member of it. -/
def authorize (path : String) (id : Uuid) : Op Root := do
  let r ← get path
  if r.hasMember id then return r
  else Op.fail (.unauthorized (.notMember id path))

/-- Registers a root under a path that is neither taken nor still being purged. -/
def register (secrets : PasswordScheme) (path owner password : String) (salt : Bytes)
    (now : Instant) : Op Root :=
  if path.isEmpty then Op.fail (.invalidArgument .emptyRoot)
  else match secrets.hash salt password with
    | .error e => Op.fail e
    | .ok passwordHash =>
      let r : Root := { path, owner, passwordHash, epoch := 0, members := .empty, createdAt := now }
      Op.commit do
        if ← Txn.has (.root path) then Txn.abort (.alreadyExists s!"root {path}")
        if ← Txn.has (.marker path none) then Txn.abort (.conflict path 0)
        Txn.put Codec.root (.root path) r
        return r

/-- Makes a client a member, given the password that was checked against `kept`. -/
def enroll (path : String) (id : Uuid) (kept : String) : Txn Root := do
  let r ← Txn.require Codec.root (.root path) (.root path)
  if r.passwordHash ≠ kept then Txn.abort (.unauthorized (.passwordChanged path))
  let c ← Txn.require Codec.client (.client id) (.client id)
  let joined := { r with members := r.members.insert id }
  if !r.hasMember id then Txn.put Codec.root (.root path) joined
  if !c.roots.contains path then
    Txn.put Codec.client (.client id) { c with roots := c.roots.insert path }
  return joined

/-- Makes a client a member after checking the password.  Joining twice changes nothing. -/
def join (secrets : PasswordScheme) (path : String) (id : Uuid) (password : String) :
    Op Root := do
  let r ← get path
  match secrets.verify password r.passwordHash with
  | .error e => Op.fail e
  | .ok false => Op.fail (.unauthorized (.wrongPassword path))
  | .ok true => Op.commit (enroll path id r.passwordHash)

/-- Replaces the password; members stay.  Answers with the new epoch. -/
def setPassword (secrets : PasswordScheme) (path password : String) (salt : Bytes) : Op UInt64 :=
  match secrets.hash salt password with
  | .error e => Op.fail e
  | .ok passwordHash => Op.commit do
    let r ← Txn.require Codec.root (.root path) (.root path)
    let r := { r with passwordHash, epoch := r.epoch + 1 }
    Txn.put Codec.root (.root path) r
    return r.epoch

/-- Replaces the password by the configured one or else by a generated one, and answers with
    it. -/
def resetPassword (secrets : PasswordScheme) (configured : Option String) (generated : String)
    (path : String) (salt : Bytes) : Op String := do
  let secret := configured.getD generated
  let _ ← setPassword secrets path secret salt
  return secret

/-! ### Removal -/

/-- Lets clients forget a root.  A client that is not registered is passed over. -/
def forgetBy (path : String) : List Uuid → Txn Unit
  | [] => pure ()
  | id :: rest => do
    match ← Txn.fetch Codec.client (.client id) with
    | some c =>
      if c.roots.contains path then
        Txn.put Codec.client (.client id) { c with roots := c.roots.erase path }
    | none => pure ()
    forgetBy path rest

/-- Takes a root out of use: its record goes, its members forget it, a marker stays. -/
def detach (path : String) : Txn Unit := do
  let r ← Txn.require Codec.root (.root path) (.root path)
  forgetBy path r.members.toList
  let _ ← Txn.delete (.root path)
  Txn.put Codec.marker (.marker path none) ⟨path, none⟩

/-- Purges the files and versions of a detached root and then drops its marker. -/
def purge (path : String) (batch : Nat) : Op Purged := do
  let files ← Op.purge (Key.filesOf path) batch
  let versions ← Op.purge (Key.versionsOf path) batch
  Op.drop (.marker path none)
  return ⟨files, versions⟩

def remove (path : String) (batch : Nat) : Op Purged := do
  Op.commit (detach path)
  purge path batch

/-- Removes the listed roots one after another and counts them.  One that is gone already is
    passed over; any other failure stops. -/
def removeEach (batch : Nat) : List Root → Nat → Op Nat
  | [], n => pure n
  | r :: rest, n => do
    match ← Op.attempt (remove r.path batch) with
    | .ok _ => removeEach batch rest (n + 1)
    | .error (.notFound _) => removeEach batch rest n
    | .error e => Op.fail e

def removeAll (batch : Nat) : Op Nat := do
  let roots ← list
  removeEach batch roots 0

end Roots

end SyncLedger
