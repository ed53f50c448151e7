/-
  SyncLedger/Content/Store.lean
  =============================
  **Contents by their hash.**  A content is kept packed under the text of its hash.  Storing
  trusts a hash that is there already; fetching trusts nothing and hashes what it unpacked, so
  it never gives bytes that belong to another hash.

  The hash and the packing come in as a scheme: the rules here need only that unpacking undoes
  packing.
-/
import SyncLedger.Content.Lz4
import SyncLedger.Digest.Blake3
import SyncLedger.Error
import SyncLedger.Table

namespace SyncLedger

/-- How contents are hashed and packed. -/
structure ContentScheme where
  hash : Bytes → String
  pack : Bytes → Bytes
  unpack? : Bytes → Option Bytes

namespace ContentScheme

/-- BLAKE3 in hexadecimal, and LZ4. -/
def standard : ContentScheme where
  hash data := Bytes.toHex (Blake3.hash data)
  pack := Lz4.pack
  unpack? := Lz4.unpack?

end ContentScheme

/-- Packed contents, by the text of their hash. -/
abbrev Contents := Table Bytes

namespace Contents

/-- Stores a content unless its hash is there; answers with the hash. -/
def put (s : ContentScheme) (c : Contents) (data : Bytes) : String × Contents :=
  let hash := s.hash data
  let key := Bytes.ofText hash
  (hash, if c.contains key then c else c.insert key (s.pack data))

/-- The content of a hash, if there is one. -/
def fetch (s : ContentScheme) (c : Contents) (hash : String) : Except Error (Option Bytes) :=
  match c.get? (Bytes.ofText hash) with
  | none => .ok none
  | some packed => match s.unpack? packed with
    | none => .error (.corrupted .undecodableBlob)
    | some data =>
      if s.hash data = hash then .ok (some data) else .error (.corrupted (.alteredBlob hash))

def has (c : Contents) (hash : String) : Bool := c.contains (Bytes.ofText hash)

def remove (c : Contents) (hash : String) : Contents := c.erase (Bytes.ofText hash)

end Contents

end SyncLedger
