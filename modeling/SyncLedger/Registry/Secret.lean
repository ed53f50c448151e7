/-
  SyncLedger/Registry/Secret.lean
  ===============================
  **Access passwords, apart from how they are hashed.**  A root keeps its password only as the
  text that a hashing scheme makes of it with a fresh salt.  The registry needs no more of a
  scheme than the two functions here; everything about cost parameters and written hashes is
  the scheme's own affair.
-/
import SyncLedger.Error

namespace SyncLedger

/-- How passwords are hashed and checked. -/
structure PasswordScheme where
  /-- The text to keep for a password, made with a salt. -/
  digest : (salt : Bytes) → (password : String) → Except Error String
  /-- Whether a password is the one that a kept text was made of. -/
  verify : (password kept : String) → Except Error Bool

namespace PasswordScheme

/-- The text to keep for a password, which must not be empty. -/
def hash (s : PasswordScheme) (salt : Bytes) (password : String) : Except Error String :=
  if password.isEmpty then .error (.password .empty) else s.digest salt password

end PasswordScheme

namespace Secret

/-- The characters of generated passwords. -/
def alphabet : String := "ABCDEFGHIJKLMNOPQRSTUVWXYZabcdefghijklmnopqrstuvwxyz0123456789"

/-- A password drawn from the alphabet, one character for each byte below 248 (the greatest
    multiple of 62 that a byte can stay below), until it has the wanted length. -/
def generate (length : Nat) (random : Bytes) : String :=
  let letters := alphabet.toList
  String.ofList <| ((random.filter (· < 248)).take length).filterMap
    fun b => letters[b.toNat % 62]?

end Secret

end SyncLedger
