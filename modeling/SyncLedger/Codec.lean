/-
  SyncLedger/Codec.lean
  =====================
  **Stored forms.**  A codec writes a value as bytes and reads it back from the front of a byte
  string, leaving what follows.  Records are built from a handful of them: fixed-width
  little-endian numbers, texts after their length, one-byte flags and options, sets after their
  size.  Nothing is padded or aligned, so a codec of a whole is the codecs of its parts in
  order, and reading can stop only where writing stopped.

  Reading is strict about tags, lengths and UTF-8 and lax about one thing: a set may come in
  any order and with repeats.
-/
import SyncLedger.Bytes
import SyncLedger.OrderedSet
import SyncLedger.Uuid
import SyncLedger.Instant

namespace SyncLedger

/-- A stored form for values of a type. -/
structure Codec (α : Type) where
  encode : α → Bytes
  /-- The value at the front, and what follows it. -/
  decode : Bytes → Option (α × Bytes)

namespace Codec

variable {α β : Type}

/-! ### Parts -/

/-- A number in `n` bytes, least significant first. -/
def word (n : Nat) : Codec Nat where
  encode v := Bytes.littleEndian n v
  decode b :=
    if b.length < n then none else some (Bytes.ofLittleEndian (b.take n), b.drop n)

/-- The stored form of a type that another type's form serves for. -/
def via (c : Codec β) (out : α → β) (into : β → Option α) : Codec α where
  encode v := c.encode (out v)
  decode b := (c.decode b).bind fun (w, rest) => (into w).map fun v => (v, rest)

/-- One form after another. -/
def pair (c : Codec α) (d : Codec β) : Codec (α × β) where
  encode v := c.encode v.1 ++ d.encode v.2
  decode b := (c.decode b).bind fun (v, rest) =>
    (d.decode rest).map fun (w, rest) => ((v, w), rest)

def u64 : Codec UInt64 := (word 8).via (·.toNat) (fun n => some (UInt64.ofNat n))

def u32 : Codec UInt32 := (word 4).via (·.toNat) (fun n => some (UInt32.ofNat n))

/-- So many bytes, taken as they are. -/
def take? (n : Nat) (b : Bytes) : Option (Bytes × Bytes) :=
  if b.length < n then none else some (b.take n, b.drop n)

/-- Bytes after their number. -/
def blob : Codec Bytes where
  encode v := (word 8).encode v.length ++ v
  decode b := ((word 8).decode b).bind fun (n, rest) => take? n rest

/-- UTF-8 text after its number of bytes. -/
def text : Codec String := blob.via Bytes.ofText Bytes.text?

def bool : Codec Bool :=
  (word 1).via (fun v => if v then 1 else 0)
    (fun n => if n = 0 then some false else if n = 1 then some true else none)

/-- A byte that says whether a value follows, 0 or 1. -/
def option (c : Codec α) : Codec (Option α) where
  encode
    | none => [0]
    | some v => 1 :: c.encode v
  decode
    | 0 :: rest => some (none, rest)
    | 1 :: rest => (c.decode rest).map fun (v, rest) => (some v, rest)
    | _ => none

/-- So many values, one after another. -/
def decodeMany (c : Codec α) : Nat → Bytes → Option (List α × Bytes)
  | 0, b => some ([], b)
  | n + 1, b => (c.decode b).bind fun (v, rest) =>
    (decodeMany c n rest).map fun (vs, rest) => (v :: vs, rest)

/-- Values after their number. -/
def list (c : Codec α) : Codec (List α) where
  encode vs := (word 8).encode vs.length ++ vs.flatMap c.encode
  decode b := ((word 8).decode b).bind fun (n, rest) => decodeMany c n rest

/-- The elements of a set after their number: written in order, read in any. -/
def set [LT α] [DecidableLT α] [Trans (α := α) (· < ·) (· < ·) (· < ·)] (c : Codec α) :
    Codec (OrderedSet α) :=
  (list c).via (·.toList) (fun vs => some (OrderedSet.ofList vs))

/-- Sixteen bytes after their number. -/
def uuid : Codec Uuid := blob.via Uuid.bytes Uuid.ofBytes?

/-- A date and time as its text. -/
def instant : Codec Instant := text.via Instant.text Instant.parse?

/-! ### Whole values -/

/-- The value at the front of a stored form; whatever follows is ignored. -/
def read? (c : Codec α) (b : Bytes) : Option α := (c.decode b).map (·.1)

end Codec

end SyncLedger
