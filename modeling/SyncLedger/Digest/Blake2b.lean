/-
  SyncLedger/Digest/Blake2b.lean
  ==============================
  **The BLAKE2b hash of a byte string**, without a key, in any length up to 64 bytes.  The
  length is part of what is hashed, so a short hash is not a piece of a longer one.
-/
import SyncLedger.Bytes
import SyncLedger.Digest.Square

namespace SyncLedger

namespace Blake2b

/-- The state between blocks. -/
abbrev Chain := Vector UInt64 8

/-- A block of input, or the state of the compression. -/
abbrev Block := Square UInt64

def iv : Chain :=
  #v[0x6A09E667F3BCC908, 0xBB67AE8584CAA73B, 0x3C6EF372FE94F82B, 0xA54FF53A5F1D36F1,
    0x510E527FADE682D1, 0x9B05688C2B3E6C1F, 0x1F83D9ABFB41BD6B, 0x5BE0CD19137E2179]

/-! ### Compression -/

@[inline] def rotateRight (w n : UInt64) : UInt64 := (w >>> n) ||| (w <<< (64 - n))

def turns : Square.Turns UInt64 :=
  ⟨(rotateRight · 32), (rotateRight · 24), (rotateRight · 16), (rotateRight · 63)⟩

/-- A round, which takes the words of the block in the given order. -/
def round (m : Block) (s : Block) (order : Square.Order) : Block :=
  Square.round turns s fun i => m.get (order.get i)

/-- The state after one more block; `total` counts the bytes up to its end.  Of the twelve
    rounds the last two take the orders from the beginning again. -/
def compress (h : Chain) (m : Block) (total : Nat) (last : Bool) : Chain :=
  let s : Block :=
    #v[h[0], h[1], h[2], h[3], h[4], h[5], h[6], h[7], iv[0], iv[1], iv[2], iv[3],
      iv[4] ^^^ UInt64.ofNat total, iv[5] ^^^ UInt64.ofNat (total >>> 64),
      if last then iv[6] ^^^ 0xFFFFFFFFFFFFFFFF else iv[6], iv[7]]
  let s := (Square.orders ++ Square.orders.take 2).foldl (round m) s
  Vector.ofFn fun i : Fin 8 => h[i] ^^^ s[i.val] ^^^ s[i.val + 8]

/-! ### Hashing -/

/-- Sixteen words of eight bytes; what is missing is zero. -/
def blockOf (b : Bytes) : Block :=
  Vector.ofFn fun i : Fin 16 => UInt64.ofNat (Bytes.ofLittleEndian ((b.drop (8 * i)).take 8))

/-- The state after the rest of the input, before which `done` bytes were taken. -/
def absorb (h : Chain) (done : Nat) (input : Bytes) : Chain :=
  if 128 < input.length then
    absorb (compress h (blockOf (input.take 128)) (done + 128) false) (done + 128)
      (input.drop 128)
  else compress h (blockOf input) (done + input.length) true
termination_by input.length
decreasing_by simp only [List.length_drop]; omega

/-- The hash in `length` bytes, which are at most 64. -/
def hash (length : Nat) (input : Bytes) : Bytes :=
  let start := iv.set 0 (iv[0] ^^^ 0x01010000 ^^^ UInt64.ofNat length)
  let h := absorb start 0 input
  (h.toList.flatMap fun w => Bytes.littleEndian 8 w.toNat).take length

theorem length_hash {length : Nat} (h : length ≤ 64) (input : Bytes) :
    (hash length input).length = length := by
  simp only [hash, List.length_take, List.length_flatMap, Bytes.length_littleEndian,
    List.map_const', Vector.length_toList, List.sum_replicate_nat]
  omega

end Blake2b

end SyncLedger
