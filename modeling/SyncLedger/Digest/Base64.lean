/-
  SyncLedger/Digest/Base64.lean
  =============================
  **Base 64 text without padding.**  Three bytes are four characters, and what is left over at
  the end is two characters for one byte or three for two.  Reading is strict: the bits of the
  last character that belong to no byte must be zero, so each byte string has one text.
-/
import SyncLedger.Bytes

namespace SyncLedger

namespace Base64

/-- The character for six bits. -/
def digit (n : Nat) : Char :=
  if n < 26 then Char.ofNat (65 + n)
  else if n < 52 then Char.ofNat (97 + (n - 26))
  else if n < 62 then Char.ofNat (48 + (n - 52))
  else if n = 62 then '+'
  else '/'

/-- The six bits that a character stands for. -/
def value? (c : Char) : Option Nat :=
  if 'A' ≤ c ∧ c ≤ 'Z' then some (c.toNat - 65)
  else if 'a' ≤ c ∧ c ≤ 'z' then some (c.toNat - 97 + 26)
  else if '0' ≤ c ∧ c ≤ '9' then some (c.toNat - 48 + 52)
  else if c = '+' then some 62
  else if c = '/' then some 63
  else none

def encodeChars : Bytes → List Char
  | [] => []
  | [a] =>
    let n := a.toNat * 16
    [digit (n / 64), digit (n % 64)]
  | [a, b] =>
    let n := (a.toNat * 256 + b.toNat) * 4
    [digit (n / 4096), digit (n / 64 % 64), digit (n % 64)]
  | a :: b :: c :: rest =>
    let n := (a.toNat * 256 + b.toNat) * 256 + c.toNat
    digit (n / 262144) :: digit (n / 4096 % 64) :: digit (n / 64 % 64) :: digit (n % 64)
      :: encodeChars rest

def decodeChars? : List Char → Option Bytes
  | [] => some []
  | [_] => none
  | [c, d] => do
    let n := (← value? c) * 64 + (← value? d)
    if n % 16 = 0 then return [UInt8.ofNat (n / 16)] else none
  | [c, d, e] => do
    let n := ((← value? c) * 64 + (← value? d)) * 64 + (← value? e)
    if n % 4 = 0 then return [UInt8.ofNat (n / 1024), UInt8.ofNat (n / 4)] else none
  | c :: d :: e :: f :: rest => do
    let n := (((← value? c) * 64 + (← value? d)) * 64 + (← value? e)) * 64 + (← value? f)
    let tail ← decodeChars? rest
    return UInt8.ofNat (n / 65536) :: UInt8.ofNat (n / 256) :: UInt8.ofNat n :: tail

def encode (b : Bytes) : String := String.ofList (encodeChars b)

/-- The byte string that a text is the text of, if there is one. -/
def decode? (s : String) : Option Bytes := decodeChars? s.toList

end Base64

end SyncLedger
