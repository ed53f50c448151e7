/-
  SyncLedger/Registry/Password.lean
  =================================
  **Passwords hashed with Argon2.**  New hashes are made by Argon2id in its newer version at
  the configured costs.  A kept hash is checked with the algorithm, version and costs that it
  names itself; the settings have no part in that.
-/
import SyncLedger.Config.Basic
import SyncLedger.Digest.Argon2
import SyncLedger.Registry.PasswordHash
import SyncLedger.Registry.Secret

namespace SyncLedger

namespace Argon2

/-- What a hash costs. -/
structure Costs where
  memory : Nat := 19456
  passes : Nat := 2
  lanes : Nat := 1
  deriving DecidableEq

/-- Whether costs are within what the algorithm is defined for: every lane has room for eight
    blocks at least. -/
def Costs.areUsable (c : Costs) : Bool :=
  8 ≤ c.memory && 8 * c.lanes ≤ c.memory && 1 ≤ c.passes && 1 ≤ c.lanes && c.lanes ≤ 0xFFFFFF

/-- Everything that a hash was made with but the password. -/
structure Terms where
  variant : Variant := .id
  version : Version := .v13
  costs : Costs := {}
  associated : Bytes := []
  salt : Bytes
  length : Nat := 32

/-- The hash of a password on the given terms. -/
def derive (t : Terms) (password : String) : Bytes :=
  hash
    { variant := t.variant, version := t.version, memory := t.costs.memory,
      passes := t.costs.passes, lanes := t.costs.lanes, password := Bytes.ofText password,
      salt := t.salt, associated := t.associated, length := t.length }

def Variant.ofName? (s : String) : Option Variant :=
  if s = "argon2id" then some .id
  else if s = "argon2i" then some .i
  else if s = "argon2d" then some .d
  else none

def Version.ofNumber? (n : Nat) : Option Version :=
  if n = 0x10 then some .v10 else if n = 0x13 then some .v13 else none

/-- Reads one parameter of a written hash into the terms that it was made on.  The key's name
    has no influence on the hash. -/
def Terms.withParameter? (t : Terms) (p : String × String) : Option Terms :=
  let (name, value) := p
  let number := PasswordHash.decimal? value.toList
  let bytes (most : Nat) := (Base64.decode? value).filter fun b => decide (b.length ≤ most)
  if name = "m" then number.map fun n => { t with costs := { t.costs with memory := n } }
  else if name = "t" then number.map fun n => { t with costs := { t.costs with passes := n } }
  else if name = "p" then number.map fun n => { t with costs := { t.costs with lanes := n } }
  else if name = "keyid" then (bytes 8).map fun _ => t
  else if name = "data" then (bytes 32).map fun b => { t with associated := b }
  else none

/-- The terms that a written hash names, if they can be used. -/
def Terms.ofHash? (h : PasswordHash) (salt : String) (length : Nat) : Option Terms := do
  let variant ← Variant.ofName? h.algorithm
  let version ← match h.version with
    | some n => Version.ofNumber? n
    | none => some .v13
  let salt ← Base64.decode? salt
  let start : Terms := { variant, version, salt, length }
  let terms ← h.parameters.foldlM Terms.withParameter? start
  guard (terms.costs.areUsable && 8 ≤ terms.salt.length)
  return terms

end Argon2

namespace Password

/-- The written hash of a password. -/
def write (costs : Argon2.Costs) (salt : Bytes) (password : String) : String :=
  PasswordHash.text
    { algorithm := "argon2id"
      version := some 19
      parameters :=
        [("m", toString costs.memory), ("t", toString costs.passes), ("p", toString costs.lanes)]
      salt := some (Base64.encode salt)
      output := some (Argon2.derive { costs, salt } password) }

/-- Whether a password is the one that a written hash was made of.  A hash without a salt or
    without an output is the hash of no password. -/
def verify (password kept : String) : Except Error Bool :=
  match PasswordHash.parse? kept with
  | none => .error (.corrupted .passwordHash)
  | some h => match h.salt, h.output with
    | some salt, some output => match Argon2.Terms.ofHash? h salt output.length with
      | none => .error (.password .unusable)
      | some terms => .ok (Argon2.derive terms password == output)
    | _, _ => .ok false

/-- The scheme that makes hashes at the given costs. -/
def scheme (costs : Argon2.Costs) : PasswordScheme where
  digest salt password := .ok (write costs salt password)
  verify := verify

end Password

/-- The costs of new password hashes. -/
def SecurityConfig.costs (c : SecurityConfig) : Argon2.Costs :=
  ⟨c.argon2MemoryKib.toNat, c.argon2Iterations.toNat, c.argon2Parallelism.toNat⟩

/-- The password scheme that the settings ask for, if its costs can be used. -/
def SecurityConfig.scheme (c : SecurityConfig) : Except Error PasswordScheme :=
  if c.costs.areUsable then .ok (Password.scheme c.costs)
  else .error (.invalidConfig .argon2Parameters)

end SyncLedger
