/-
  SyncLedger/Uuid.lean
  ====================
  **Client identities.**  A UUID is a number below 2 ^ 128.  Its sixteen bytes are that number
  most significant byte first, so the order of numbers is the order of the bytes, and its text
  is those bytes in hexadecimal with hyphens after the fourth, sixth, eighth and tenth.
-/
import SyncLedger.Bytes

namespace SyncLedger

structure Uuid where
  value : BitVec 128
  deriving DecidableEq

namespace Uuid

instance : LT Uuid := ⟨fun a b => a.value < b.value⟩

instance : DecidableLT Uuid := fun a b => inferInstanceAs (Decidable (a.value < b.value))

instance : Trans (α := Uuid) (· < ·) (· < ·) (· < ·) := ⟨fun h k => Nat.lt_trans h k⟩

instance : Inhabited Uuid := ⟨⟨0⟩⟩

/-- The sixteen bytes, most significant first. -/
def bytes (u : Uuid) : Bytes := Bytes.bigEndian 16 u.value.toNat

/-- The identity with the given sixteen bytes. -/
def ofBytes? (b : Bytes) : Option Uuid :=
  if b.length = 16 then some ⟨BitVec.ofNat 128 (Bytes.ofBigEndian b)⟩ else none

/-- The hyphenated lower-case text. -/
def text (u : Uuid) : String :=
  let b := u.bytes
  String.intercalate "-"
    ([b.take 4, (b.drop 4).take 2, (b.drop 6).take 2, (b.drop 8).take 2, b.drop 10].map
      Bytes.toHex)

/-- Thirty-two hexadecimal digits, all together or hyphenated at the usual places. -/
def ofDigits? (cs : List Char) : Option Uuid :=
  let plain :=
    if cs.length = 36 then
      if cs[8]? = some '-' ∧ cs[13]? = some '-' ∧ cs[18]? = some '-' ∧ cs[23]? = some '-' then
        some (cs.take 8 ++ (cs.drop 9).take 4 ++ (cs.drop 14).take 4 ++ (cs.drop 19).take 4
          ++ cs.drop 24)
      else none
    else if cs.length = 32 then some cs
    else none
  plain.bind fun digits => (Bytes.ofHexChars? digits).bind ofBytes?

/-- Reads an identity in any of its written forms: bare digits, hyphenated, in braces, or after
    `urn:uuid:`.  Braces and the prefix go with the hyphenated form only. -/
def parse? (s : String) : Option Uuid :=
  let cs := s.toList
  let hyphenated (cs : List Char) := if cs.length = 36 then ofDigits? cs else none
  match cs with
  | '{' :: rest => if rest.getLast? = some '}' then hyphenated rest.dropLast else none
  | _ =>
    if s.startsWith "urn:uuid:" then hyphenated (cs.drop 9) else ofDigits? cs

end Uuid

end SyncLedger
