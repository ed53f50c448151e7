/-
  SyncLedger/Error.lean
  =====================
  **What can go wrong, by cause.**  Every operation answers with a value or with one of these
  errors.  A cause keeps what it is about (the root, the path, the timestamps); its wording is
  in one place, `Error.message`.

  Each family also has a cause `stated`, for errors that are handed in with their wording: by
  the body of a transaction that gives up, or by a network listener.
-/
import SyncLedger.Uuid

namespace SyncLedger

/-- What an ordinary lookup missed. -/
inductive Missing where
  | client (id : Uuid)
  | root (root : String)
  | file (root path : String)
  | version (root path : String) (timestamp : UInt64)
  /-- The version is there but says that the path was removed. -/
  | removedVersion (root path : String) (timestamp : UInt64)
  | renameSource (root path : String)
  | stated (text : String)
  deriving DecidableEq

/-- Why an argument is refused before anything is looked at. -/
inductive Refusal where
  | emptyPath
  | emptyRoot
  | renameDeletes (root path : String)
  | noTimestampLeft (root path : String) (latest : UInt64)
  | passwordsDiffer
  | idWithoutRoot (what : String)
  | noSelector (what : String)
  | stated (text : String)
  deriving DecidableEq

/-- Why a caller may not do what it asks for. -/
inductive Denial where
  | notMember (id : Uuid) (root : String)
  | wrongPassword (root : String)
  | passwordChanged (root : String)
  | stated (text : String)
  deriving DecidableEq

/-- Why a password cannot be hashed or checked. -/
inductive PasswordFault where
  | empty
  /-- The algorithm, version, costs or salt named by a hash cannot be used. -/
  | unusable
  | stated (text : String)
  deriving DecidableEq

/-- How stored data contradict themselves. -/
inductive Damage where
  | noHistory (root path : String)
  | disagrees (root path fileHash : String) (fileTimestamp : UInt64) (newestHash : String)
      (newestTimestamp : UInt64)
  | tombstoneNotDeleted (root path : String)
  | noContent (hash root path : String) (timestamp : UInt64)
  | passwordHash
  | undecodableBlob
  | alteredBlob (hash : String)
  | stated (text : String)
  deriving DecidableEq

/-- Why a configuration file cannot be read or written. -/
inductive ConfigFault where
  | unreadable
  | yaml
  | json
  | unwritable (reason : String)
  | stated (text : String)
  deriving DecidableEq

/-- Which setting is not acceptable. -/
inductive SettingFault where
  | cascadeBatchZero
  | argon2CostZero
  | argon2MemoryBelow (kib : Nat)
  | defaultPasswordEmpty
  | generatedLengthShort
  | addressEmpty
  /-- The hasher itself refuses the cost parameters. -/
  | argon2Parameters
  | stated (text : String)
  deriving DecidableEq

/-- An error, by the family of its cause. -/
inductive Error where
  | notFound (what : Missing)
  | alreadyExists (what : String)
  | invalidArgument (why : Refusal)
  | unauthorized (why : Denial)
  | password (why : PasswordFault)
  /-- A commit came too late, or touches what is being removed. -/
  | conflict (key : String) (latest : UInt64)
  | storageUnavailable (text : String)
  | corrupted (how : Damage)
  | invalidState (operation state : String)
  | config (why : ConfigFault)
  | invalidConfig (which : SettingFault)
  | io (detail : Option String)
  | serialization (detail : Option String)
  | internal (text : String)
  deriving DecidableEq

/-! ### Wording -/

/-- A path within its root. -/
def place (root path : String) : String := s!"{root}:{path}"

def Missing.message : Missing → String
  | .client id => s!"client {id.text}"
  | .root r => s!"root {r}"
  | .file r p => s!"file {place r p}"
  | .version r p t => s!"version {t} of {place r p}"
  | .removedVersion r p t => s!"version {t} of {place r p} is a deletion"
  | .renameSource r p => s!"rename source {place r p}"
  | .stated text => text

def Refusal.message : Refusal → String
  | .emptyPath => "path must not be empty"
  | .emptyRoot => "root key must not be empty"
  | .renameDeletes r p => s!"rename to {place r p} cannot be a deletion"
  | .noTimestampLeft r p latest => s!"no timestamp left after {latest} for {place r p}"
  | .passwordsDiffer => "passwords do not match"
  | .idWithoutRoot what => s!"{what} --id requires --root"
  | .noSelector what => s!"{what}: pass --id or --all"
  | .stated text => text

def Denial.message : Denial → String
  | .notMember id r => s!"client {id.text} is not a member of {r}"
  | .wrongPassword r => s!"wrong password for {r}"
  | .passwordChanged r => s!"password for {r} changed"
  | .stated text => text

def Damage.message : Damage → String
  | .noHistory r p => s!"{place r p} has no history record"
  | .disagrees r p hash t newestHash newest =>
    s!"{place r p} latest ({hash}, {t}) disagrees with history ({newestHash}, {newest})"
  | .tombstoneNotDeleted r p =>
    s!"{place r p} is tombstoned but its newest record is not a deletion"
  | .noContent hash r p t => s!"no content for hash {hash} ({place r p} at {t})"
  | .passwordHash => "stored password hash"
  | .undecodableBlob => "blob"
  | .alteredBlob hash => s!"blob {hash} fails its hash check"
  | .stated text => text

def ConfigFault.message : ConfigFault → String
  | .unreadable => "Failed to read config file"
  | .yaml => "Failed to parse YAML config"
  | .json => "Failed to parse JSON config"
  | .unwritable reason => s!"Failed to write config file: {reason}"
  | .stated text => text

def SettingFault.message : SettingFault → String
  | .cascadeBatchZero => "storage.cascade_batch must be greater than 0"
  | .argon2CostZero => "argon2 iterations and parallelism must be greater than 0"
  | .argon2MemoryBelow kib => s!"argon2 memory must be at least {kib} KiB"
  | .defaultPasswordEmpty => "security.default_password must not be empty"
  | .generatedLengthShort => "security.generated_password_len must be at least 8"
  | .addressEmpty => "server.address is required"
  | .argon2Parameters => "argon2 parameters"
  | .stated text => text

/-- A headline, and after a colon the detail where there is one. -/
def withDetail (headline : String) : Option String → String
  | none => headline
  | some detail => s!"{headline}: {detail}"

namespace Error

def message : Error → String
  | .notFound what => s!"Not found: {what.message}"
  | .alreadyExists what => s!"Already exists: {what}"
  | .invalidArgument why => s!"Invalid argument: {why.message}"
  | .unauthorized why => s!"Unauthorized: {why.message}"
  | .password .empty => "Password hashing error: password must not be empty"
  | .password .unusable => "Password hashing error"
  | .password (.stated text) => s!"Password hashing error: {text}"
  | .conflict key latest => s!"Conflict on {key}: latest committed timestamp is {latest}"
  | .storageUnavailable text => s!"Storage unavailable: {text}"
  | .corrupted how => s!"Corrupted data: {how.message}"
  | .invalidState operation state => s!"Invalid state: cannot {operation} while {state}"
  | .config why => s!"Configuration error: {why.message}"
  | .invalidConfig which => s!"Invalid configuration: {which.message}"
  | .io detail => withDetail "IO error" detail
  | .serialization detail => withDetail "Serialization error" detail
  | .internal text => s!"Internal error: {text}"

/-- Only a conflict may go away when the operation is submitted again. -/
def isRetryable : Error → Bool
  | .conflict _ _ => true
  | _ => false

/-- An ordinary miss, as opposed to damage. -/
def isNotFound : Error → Bool
  | .notFound _ => true
  | _ => false

end Error

end SyncLedger
