/-
  SyncLedger/Digest/Blake3.lean
  =============================
  **The BLAKE3 hash of a byte string.**  The input is cut into chunks of 1024 bytes, and the
  chunks are the leaves of a binary tree: of any longer input the left half is the greatest
  power of two of chunks that leaves something for the right.  A chunk is hashed block by
  block, a node from the hashes of its two halves, and the root node is marked so that no inner
  node can be passed off for it.
-/
import SyncLedger.Bytes
import SyncLedger.Digest.Square

namespace SyncLedger

namespace Blake3

/-- The hash of a subtree. -/
abbrev Chain := Vector UInt32 8

/-- A block of input, or the state of the compression. -/
abbrev Block := Square UInt32

def iv : Chain :=
  #v[0x6A09E667, 0xBB67AE85, 0x3C6EF372, 0xA54FF53A, 0x510E527F, 0x9B05688C, 0x1F83D9AB,
    0x5BE0CD19]

/-! ### Compression -/

def rotateRight (w n : UInt32) : UInt32 := (w >>> n) ||| (w <<< (32 - n))

def turns : Square.Turns UInt32 :=
  ⟨(rotateRight · 16), (rotateRight · 12), (rotateRight · 8), (rotateRight · 7)⟩

/-- The words of a block in the order in which the next round takes them. -/
def reorder (m : Block) : Block := Square.reordering.map m.get

/-- So many rounds, the words of the block reordered between them. -/
def rounds : Nat → Block → Block → Block
  | 0, s, _ => s
  | n + 1, s, m => rounds n (Square.round turns s m.get) (reorder m)

/-- What a node is made of, before it is compressed. -/
structure Node where
  chain : Chain
  block : Block
  counter : Nat
  length : Nat
  flags : UInt32

namespace Node

def chunkStart : UInt32 := 1

def chunkEnd : UInt32 := 2

def parent : UInt32 := 4

def root : UInt32 := 8

/-- The state before the rounds. -/
def start (n : Node) : Block :=
  n.chain ++ iv.take 4 ++
    #v[UInt32.ofNat n.counter, UInt32.ofNat (n.counter >>> 32), UInt32.ofNat n.length, n.flags]

/-- The state after the rounds, its first half folded with the second. -/
def compress (n : Node) : Chain :=
  let s := rounds 7 n.start n.block
  let low : Chain := s.take 8
  low.zipWith (· ^^^ ·) (s.drop 8)

end Node

/-! ### Chunks -/

/-- Sixteen words of four bytes; what is missing is zero. -/
def blockOf (b : Bytes) : Block :=
  let bytes := b.toArray
  let byte (i : Nat) : UInt32 := (bytes.getD i 0).toUInt32
  Vector.ofFn fun i : Fin 16 =>
    byte (4 * i) ||| (byte (4 * i + 1) <<< 8) ||| (byte (4 * i + 2) <<< 16)
      ||| (byte (4 * i + 3) <<< 24)

/-- The last block of a chunk, after all the blocks before it. -/
def chunkFrom (counter : Nat) (chain : Chain) (start : UInt32) (input : Bytes) : Node :=
  if 64 < input.length then
    let first : Node := ⟨chain, blockOf (input.take 64), counter, 64, start⟩
    chunkFrom counter first.compress 0 (input.drop 64)
  else ⟨chain, blockOf input, counter, input.length, start ||| Node.chunkEnd⟩
termination_by input.length
decreasing_by simp only [List.length_drop]; omega

def chunk (counter : Nat) (input : Bytes) : Node := chunkFrom counter iv Node.chunkStart input

/-! ### The tree -/

/-- The length of the left half of an input that is longer than a chunk. -/
def leftLength (n : Nat) : Nat := 1024 <<< ((n - 1) / 1024).log2

theorem leftLength_pos (n : Nat) : 0 < leftLength n := by
  rw [leftLength, Nat.shiftLeft_eq]
  exact Nat.mul_pos (by decide) (Nat.two_pow_pos _)

theorem leftLength_lt {n : Nat} (h : 1024 < n) : leftLength n < n := by
  have hk : (n - 1) / 1024 ≠ 0 := by omega
  have := Nat.log2_self_le hk
  rw [leftLength, Nat.shiftLeft_eq]
  omega

/-- The node of an input whose first chunk has the given number. -/
def tree (counter : Nat) (input : Bytes) : Node :=
  if _h : 1024 < input.length then
    let n := leftLength input.length
    let left := (tree counter (input.take n)).compress
    let right := (tree (counter + n / 1024) (input.drop n)).compress
    ⟨iv, left ++ right, 0, 64, Node.parent⟩
  else chunk counter input
termination_by input.length
decreasing_by
  · have := leftLength_lt _h
    simp only [List.length_take]
    omega
  · have := leftLength_pos input.length
    simp only [List.length_drop]
    omega

/-- The 32 bytes of the hash. -/
def hash (input : Bytes) : Bytes :=
  let n := tree 0 input
  let c := Node.compress { n with flags := n.flags ||| Node.root }
  c.toList.flatMap fun w => Bytes.littleEndian 4 w.toNat

@[simp] theorem length_hash (input : Bytes) : (hash input).length = 32 := by
  simp only [hash, List.length_flatMap, Bytes.length_littleEndian, List.map_const',
    Vector.length_toList, List.sum_replicate_nat]

end Blake3

end SyncLedger
