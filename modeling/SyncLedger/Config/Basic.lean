/-
  SyncLedger/Config/Basic.lean
  ============================
  **Settings: what there is to set, the defaults, and what is acceptable.**
-/
import SyncLedger.Error

namespace SyncLedger

/-- Where and how records are kept. -/
structure StorageConfig where
  /-- The database directory; a relative one is taken from the data directory. -/
  path : String := "db"
  cacheCapacity : UInt64 := 67108864
  /-- Milliseconds between flushes; nothing means a flush with every commit. -/
  flushEveryMs : Option UInt64 := some 500
  /-- Keep nothing after the program ends. -/
  temporary : Bool := false
  /-- The most keys removed in one commit of a removal. -/
  cascadeBatch : UInt64 := 4096
  deriving DecidableEq

structure ServerConfig where
  address : String := "0.0.0.0"
  port : UInt16 := 6120
  /-- The port for HTTP/3. -/
  port3 : UInt16 := 6121
  deriving DecidableEq

/-- The cost of hashing passwords, and how they are reset. -/
structure SecurityConfig where
  argon2MemoryKib : UInt32 := 19456
  argon2Iterations : UInt32 := 2
  argon2Parallelism : UInt32 := 1
  /-- The password that a reset restores; nothing means a generated one. -/
  defaultPassword : Option String := none
  generatedPasswordLength : UInt64 := 16
  deriving DecidableEq

/-- How often a conflicting commit is tried again. -/
structure RetryConfig where
  maxAttempts : UInt32 := 5
  baseDelayMs : UInt64 := 10
  deriving DecidableEq

structure LoggingConfig where
  level : String := "info"
  /-- The file that log lines go to, instead of the standard output. -/
  file : Option String := none
  deriving DecidableEq

structure Config where
  storage : StorageConfig := {}
  server : ServerConfig := {}
  security : SecurityConfig := {}
  retry : RetryConfig := {}
  logging : LoggingConfig := {}
  dataDir : String
  deriving DecidableEq

namespace Config

/-- The first setting that is not acceptable.  The bound on the memory is a word of 32 bits and
    wraps around. -/
def fault? (c : Config) : Option SettingFault :=
  if c.storage.cascadeBatch = 0 then some .cascadeBatchZero
  else if c.security.argon2Iterations = 0 ∨ c.security.argon2Parallelism = 0 then
    some .argon2CostZero
  else if c.security.argon2MemoryKib < 8 * c.security.argon2Parallelism then
    some (.argon2MemoryBelow (8 * c.security.argon2Parallelism).toNat)
  else if c.security.defaultPassword = some "" then some .defaultPasswordEmpty
  else if c.security.generatedPasswordLength < 8 then some .generatedLengthShort
  else if c.server.address.isEmpty then some .addressEmpty
  else none

def validate (c : Config) : Except Error Unit :=
  match c.fault? with
  | some which => .error (.invalidConfig which)
  | none => .ok ()

end Config

end SyncLedger
