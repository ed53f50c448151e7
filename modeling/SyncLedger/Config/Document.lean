/-
  SyncLedger/Config/Document.lean
  ===============================
  **Settings from a document, in whatever format it is written.**

  A format is a type of values with the views of `Document`.  A group of settings is read from
  named fields or, where the format allows it, from a list of values in the order of the
  fields.  Named fields may come in any order and with others among them, but none twice.  What
  is missing has a default, or is nothing, or spoils the document:

    * `required`  must be there;
    * `optional`  may be missing among named fields, and may be null;
    * `withDefault`  may be missing in either form, but not null.
-/
import SyncLedger.Config.Environment
import SyncLedger.Json

namespace SyncLedger

/-- A document format, as far as settings are concerned. -/
class Document (δ : Type) where
  /-- Whether a value is null; nothing for one that says so and is not. -/
  null? : δ → Option Bool
  natural? : δ → Option Nat
  flag? : δ → Option Bool
  text? : δ → Option String
  /-- Fields by name; nothing is the name of a field whose name is no text. -/
  fields? : δ → Option (List (Option String × δ))
  /-- Values that may stand for fields in order. -/
  items? : δ → Option (List δ)

namespace Document

variable {δ : Type} [Document δ] {α : Type}

/-- The parts of a group of settings. -/
inductive Group (δ : Type) where
  | named (fields : List (Option String × δ))
  | ordered (items : List δ)

/-- The group that a value is, if it is one of at most `size` fields. -/
def group? (size : Nat) (d : δ) : Option (Group δ) :=
  match fields? d with
  | some fs => some (.named fs)
  | none => match items? d with
    | some vs => if vs.length ≤ size then some (.ordered vs) else none
    | none => none

/-- The value of a field, if it is there; fails if it is there twice. -/
def Group.lookup (g : Group δ) (index : Nat) (name : String) : Option (Option δ) :=
  match g with
  | .ordered vs => some vs[index]?
  | .named fs => match fs.filter (·.1 == some name) with
    | [] => some none
    | [(_, v)] => some (some v)
    | _ => none

/-- Whether every field has a name that is a text. -/
def Group.isNamed : Group δ → Bool
  | .named fs => fs.all (·.1.isSome)
  | .ordered _ => true

/-- Reads a value that may be null. -/
def orNull (read : δ → Option α) (v : δ) : Option (Option α) := do
  if ← null? v then return none else return some (← read v)

/-- A field that must be there. -/
def Group.required (g : Group δ) (index : Nat) (name : String) (read : δ → Option α) :
    Option α := do
  let v ← (← g.lookup index name)
  read v

/-- A field that may be null, and may be missing among named fields. -/
def Group.optional (g : Group δ) (index : Nat) (name : String) (read : δ → Option α) :
    Option (Option α) := do
  match ← g.lookup index name, g with
  | some v, _ => orNull read v
  | none, .named _ => return none
  | none, .ordered _ => none

/-- A field that has a default. -/
def Group.withDefault (g : Group δ) (index : Nat) (name : String) (default : α)
    (read : δ → Option α) : Option α := do
  match ← g.lookup index name with
  | some v => read v
  | none => return default

/-! ### Values -/

def below (bound : Nat) (d : δ) : Option Nat := (natural? d).filter (· < bound)

def u64 (d : δ) : Option UInt64 := (below UInt64.size d).map UInt64.ofNat

def u32 (d : δ) : Option UInt32 := (below UInt32.size d).map UInt32.ofNat

def u16 (d : δ) : Option UInt16 := (below UInt16.size d).map UInt16.ofNat

/-! ### Groups -/

def storage (d : δ) : Option StorageConfig := do
  let g ← group? 5 d
  guard g.isNamed
  return {
    path := ← g.required 0 "path" text?
    cacheCapacity := ← g.required 1 "cache_capacity" u64
    flushEveryMs := ← g.optional 2 "flush_every_ms" u64
    temporary := ← g.withDefault 3 "temporary" false flag?
    cascadeBatch := ← g.withDefault 4 "cascade_batch" 4096 u64 }

def server (d : δ) : Option ServerConfig := do
  let g ← group? 3 d
  guard g.isNamed
  return {
    address := ← g.required 0 "address" text?
    port := ← g.required 1 "port" u16
    port3 := ← g.required 2 "port3" u16 }

def security (d : δ) : Option SecurityConfig := do
  let g ← group? 5 d
  guard g.isNamed
  return {
    argon2MemoryKib := ← g.required 0 "argon2_memory_kib" u32
    argon2Iterations := ← g.required 1 "argon2_iterations" u32
    argon2Parallelism := ← g.required 2 "argon2_parallelism" u32
    defaultPassword := ← g.withDefault 3 "default_password" none (orNull text?)
    generatedPasswordLength := ← g.withDefault 4 "generated_password_len" 16 u64 }

def retry (d : δ) : Option RetryConfig := do
  let g ← group? 2 d
  guard g.isNamed
  return {
    maxAttempts := ← g.required 0 "max_attempts" u32
    baseDelayMs := ← g.required 1 "base_delay_ms" u64 }

def logging (d : δ) : Option LoggingConfig := do
  let g ← group? 2 d
  guard g.isNamed
  return {
    level := ← g.required 0 "level" text?
    file := ← g.optional 1 "file" text? }

/-- All settings; a missing data directory is empty. -/
def config? (d : δ) : Option Config := do
  let g ← group? 6 d
  guard g.isNamed
  return {
    storage := ← g.required 0 "storage" storage
    server := ← g.required 1 "server" server
    security := ← g.required 2 "security" security
    retry := ← g.required 3 "retry" retry
    logging := ← g.withDefault 4 "logging" {} logging
    dataDir := ← g.withDefault 5 "data_dir" "" text? }

end Document

/-- In JSON a list may stand for fields in order, and only strings are texts. -/
instance : Document Json where
  null?
    | .null => some true
    | _ => some false
  natural?
    | .natural n => some n
    | _ => none
  flag?
    | .bool b => some b
    | _ => none
  text?
    | .string s => s
    | _ => none
  fields?
    | .object fs => some fs
    | _ => none
  items?
    | .array vs => some vs
    | _ => none

def Config.toJson (c : Config) : Json :=
  let n64 (n : UInt64) := Json.natural n.toNat
  let n32 (n : UInt32) := Json.natural n.toNat
  let n16 (n : UInt16) := Json.natural n.toNat
  .record [
    ("storage", .record [
      ("path", .text c.storage.path),
      ("cache_capacity", n64 c.storage.cacheCapacity),
      ("flush_every_ms", .orNull n64 c.storage.flushEveryMs),
      ("temporary", .bool c.storage.temporary),
      ("cascade_batch", n64 c.storage.cascadeBatch)]),
    ("server", .record [
      ("address", .text c.server.address),
      ("port", n16 c.server.port),
      ("port3", n16 c.server.port3)]),
    ("security", .record [
      ("argon2_memory_kib", n32 c.security.argon2MemoryKib),
      ("argon2_iterations", n32 c.security.argon2Iterations),
      ("argon2_parallelism", n32 c.security.argon2Parallelism),
      ("default_password", .orNull .text c.security.defaultPassword),
      ("generated_password_len", n64 c.security.generatedPasswordLength)]),
    ("retry", .record [
      ("max_attempts", n32 c.retry.maxAttempts),
      ("base_delay_ms", n64 c.retry.baseDelayMs)]),
    ("logging", .record [
      ("level", .text c.logging.level),
      ("file", .orNull .text c.logging.file)]),
    ("data_dir", .text c.dataDir)]

end SyncLedger
