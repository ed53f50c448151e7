/-
  SyncLedger/Engine.lean
  ======================
  **The engine: the settings and schemes that the operations share.**  An engine has no state
  of its own; it turns requests into operations on the records.  It is opened over a database,
  and opening finishes whatever removal was interrupted there.
-/
import SyncLedger.Config.Basic
import SyncLedger.Database
import SyncLedger.Index.Retry
import SyncLedger.Registry.Clients
import SyncLedger.Registry.Password
import SyncLedger.Sweep

namespace SyncLedger

/-- What an engine hashes and packs with: how settings choose a password scheme, and the scheme
    of contents, in which they have no say. -/
structure Schemes where
  passwords : SecurityConfig → Except Error PasswordScheme
  contents : ContentScheme

/-- Passwords are hashed with Argon2id, contents with BLAKE3. -/
def Schemes.standard : Schemes where
  passwords := SecurityConfig.scheme
  contents := .standard

structure Engine where
  config : Config
  schemes : Schemes
  /-- The password scheme that was chosen when the engine was opened. -/
  secrets : PasswordScheme

namespace Engine

/-- The most records removed in one commit of a removal. -/
def batch (e : Engine) : Nat := e.config.storage.cascadeBatch.toNat

/-- The scheme of contents. -/
def scheme (e : Engine) : ContentScheme := e.schemes.contents

/-- The engine that the settings describe, if passwords can be hashed at the costs they name. -/
def ofConfig (c : Config) (k : Schemes := .standard) : Except Error Engine :=
  (k.passwords c.security).map fun secrets => { config := c, schemes := k, secrets }

/-- Finishes what an earlier process left undone. -/
def recover (e : Engine) : Op Sweep.Report := Sweep.pending e.batch

def openOver (c : Config) (db : Database) (k : Schemes := .standard) :
    Except Error (Engine × Database) := do
  let e ← ofConfig c k
  let (answer, db) := db.perform e.recover
  answer.map fun _ => (e, db)

/-! ### Clients and roots -/

/-- Registers a client under the next number. -/
def registerClient (db : Database) (id : Uuid) (address : String) (now : Instant) :
    Except Error Client × Database :=
  let db := { db with issued := db.issued + 1 }
  db.perform (Clients.register id db.issued address now)

def registerRoot (e : Engine) (path owner password : String) (salt : Bytes) (now : Instant) :
    Op Root :=
  Roots.register e.secrets path owner password salt now

def joinRoot (e : Engine) (path : String) (id : Uuid) (password : String) : Op Root :=
  Roots.join e.secrets path id password

def setPassword (e : Engine) (path password : String) (salt : Bytes) : Op UInt64 :=
  Roots.setPassword e.secrets path password salt

/-- Restores the configured password, or makes one up from random bytes. -/
def resetPassword (e : Engine) (path : String) (random salt : Bytes) : Op String :=
  let generated := Secret.generate e.config.security.generatedPasswordLength.toNat random
  Roots.resetPassword e.secrets e.config.security.defaultPassword generated path salt

def removeRoot (e : Engine) (path : String) : Op Purged := Roots.remove path e.batch

def removeAllRoots (e : Engine) : Op Nat := Roots.removeAll e.batch

/-! ### Files and versions -/

/-- Records an observation, trying again after conflicts as the settings allow. -/
def recordEvent (e : Engine) (o : Observation) (now : Instant) : Op Decision :=
  Attempt.run
    { observation := o
      backoff := { base := e.config.retry.baseDelayMs, budget := e.config.retry.maxAttempts } }
    now

def removeFile (e : Engine) (root path : String) : Op Nat := Files.remove root path e.batch

def removeAllFiles (e : Engine) (scope : Scope) : Op Nat := Files.removeAll scope e.batch

/-- Removes what belongs to no registered root or to no file. -/
def sweepOrphans (e : Engine) : Op Sweep.Report := Sweep.orphans e.batch

/-- Checks files against their history, in order, up to the first that fails. -/
def checkEach (root : String) : List File → Op Unit
  | [] => pure ()
  | f :: rest => do
    let newest ← History.latest root f.path
    Op.read fun _ => History.check f newest
    checkEach root rest

/-- Checks every file of a root against its history; answers with their number. -/
def verifyRoot (root : String) : Op Nat := do
  let _ ← Roots.get root
  let files ← Files.list (.root root)
  checkEach root files
  return files.length

/-- The content of a path as of one version.  There is none if that version removed the path,
    and no other version stands in for it. -/
def download (e : Engine) (contents : Contents) (root path : String) (timestamp : UInt64) :
    Op Bytes := do
  let v ← History.get root path timestamp
  if v.removes path then Op.fail (.notFound (.removedVersion root path timestamp))
  else match contents.fetch e.scheme v.hash with
    | .ok (some data) => return data
    | .ok none => Op.fail (.corrupted (.noContent v.hash root path timestamp))
    | .error err => Op.fail err

end Engine

end SyncLedger
