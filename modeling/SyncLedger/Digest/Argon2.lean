/-
  SyncLedger/Digest/Argon2.lean
  =============================
  **The Argon2 password hash**, in its three variants and two versions.

  The password and everything that it is hashed with are digested into a seed.  A memory of
  kibibyte blocks is filled from the seed, each block from the one before it in its lane and
  from another one that was filled earlier; the variants differ in how that other one is
  chosen.  Every pass over the memory fills it once more.  Four slices of a lane are the steps
  between which lanes may look at each other.  The last blocks of all lanes together give the
  hash.
-/
import SyncLedger.Digest.Blake2b

namespace SyncLedger

namespace Argon2

/-- How the other block is chosen: by the data, by the position, or first the one and then the
    other. -/
inductive Variant where
  | d
  | i
  | id
  deriving DecidableEq

def Variant.tag : Variant → Nat
  | .d => 0
  | .i => 1
  | .id => 2

/-- In the older version a later pass overwrites the memory, in the newer it adds to it. -/
inductive Version where
  | v10
  | v13
  deriving DecidableEq

def Version.tag : Version → Nat
  | .v10 => 0x10
  | .v13 => 0x13

/-- What the hash depends on. -/
structure Input where
  variant : Variant
  version : Version
  memory : Nat
  passes : Nat
  lanes : Nat
  password : Bytes
  salt : Bytes
  associated : Bytes
  length : Nat

/-! ### Digests of any length -/

/-- So many digests of digests, half of each of them kept. -/
def digestChain : Nat → Bytes → Bytes
  | 0, _ => []
  | n + 1, v => v.take 32 ++ digestChain n (Blake2b.hash 64 v)

/-- The digest after so many steps. -/
def digestAfter : Nat → Bytes → Bytes
  | 0, v => v
  | n + 1, v => digestAfter n (Blake2b.hash 64 v)

/-- A digest of any length, built from digests of 64 bytes. -/
def longHash (length : Nat) (input : Bytes) : Bytes :=
  let first := Bytes.littleEndian 4 length ++ input
  if length ≤ 64 then Blake2b.hash length first
  else
    let n := (length + 31) / 32 - 2
    let v := Blake2b.hash 64 first
    digestChain n v ++ Blake2b.hash (length - 32 * n) (digestAfter (n - 1) v)

/-! ### Blocks -/

/-- A kibibyte as 128 words. -/
abbrev Block := Array UInt64

def zeroBlock : Block := Array.replicate 128 0

def word (b : Block) (i : Nat) : UInt64 := b.getD i 0

/-- The words of a kibibyte, eight bytes each. -/
def wordsOf : Bytes → List UInt64
  | a :: b :: c :: d :: e :: f :: g :: h :: rest =>
    UInt64.ofNat (Bytes.ofLittleEndian [a, b, c, d, e, f, g, h]) :: wordsOf rest
  | _ => []

def blockOf (b : Bytes) : Block := (wordsOf b).toArray

def bytesOf (b : Block) : Bytes := b.toList.flatMap fun w => Bytes.littleEndian 8 w.toNat

def xor (a b : Block) : Block := Array.zipWith (· ^^^ ·) a b

/-- The sum of two words and of twice the product of their lower halves. -/
@[inline] def addMul (a b : UInt64) : UInt64 :=
  a + b + 2 * (a &&& 0xFFFFFFFF) * (b &&& 0xFFFFFFFF)

/-- Mixes four words. -/
@[inline] def mix (a b c d : UInt64) : UInt64 × UInt64 × UInt64 × UInt64 :=
  let a := addMul a b
  let d := Blake2b.rotateRight (d ^^^ a) 32
  let c := addMul c d
  let b := Blake2b.rotateRight (b ^^^ c) 24
  let a := addMul a b
  let d := Blake2b.rotateRight (d ^^^ a) 16
  let c := addMul c d
  let b := Blake2b.rotateRight (b ^^^ c) 63
  (a, b, c, d)

/-- Mixes the sixteen words of a block that a function places. -/
@[inline] def permute (b : Block) (at' : Nat → Nat) : Block :=
  let w (i : Nat) : UInt64 := word b (at' i)
  let (a0, b0, c0, d0) := mix (w 0) (w 4) (w 8) (w 12)
  let (a1, b1, c1, d1) := mix (w 1) (w 5) (w 9) (w 13)
  let (a2, b2, c2, d2) := mix (w 2) (w 6) (w 10) (w 14)
  let (a3, b3, c3, d3) := mix (w 3) (w 7) (w 11) (w 15)
  let (a0, b1, c2, d3) := mix a0 b1 c2 d3
  let (a1, b2, c3, d0) := mix a1 b2 c3 d0
  let (a2, b3, c0, d1) := mix a2 b3 c0 d1
  let (a3, b0, c1, d2) := mix a3 b0 c1 d2
  let put (i : Nat) (v : UInt64) (b : Block) : Block := b.setIfInBounds (at' i) v
  b |> put 0 a0 |> put 1 a1 |> put 2 a2 |> put 3 a3
    |> put 4 b0 |> put 5 b1 |> put 6 b2 |> put 7 b3
    |> put 8 c0 |> put 9 c1 |> put 10 c2 |> put 11 c3
    |> put 12 d0 |> put 13 d1 |> put 14 d2 |> put 15 d3

/-- Mixes the words of one of eight rows. -/
def permuteRow (b : Block) (row : Nat) : Block := permute b fun i => 16 * row + i

/-- Mixes the words of one of eight columns, each two words wide. -/
def permuteColumn (b : Block) (column : Nat) : Block :=
  permute b fun i => 2 * column + 16 * (i / 2) + i % 2

/-- The block made of two. -/
def compress (x y : Block) : Block :=
  let r := xor x y
  let q := (List.range 8).foldl permuteRow r
  xor ((List.range 8).foldl permuteColumn q) r

/-! ### Filling the memory -/

/-- The memory of a computation, and how it is divided. -/
structure Layout where
  lanes : Nat
  /-- Blocks in a quarter of a lane. -/
  segment : Nat

def Layout.laneLength (l : Layout) : Nat := 4 * l.segment

def Layout.size (l : Layout) : Nat := l.lanes * l.laneLength

/-- Where in the filling a segment is. -/
structure Position where
  pass : Nat
  slice : Nat
  lane : Nat

def Input.layout (x : Input) : Layout := ⟨x.lanes, x.memory / (4 * x.lanes)⟩

/-- The seed of the first blocks. -/
def Input.seed (x : Input) : Bytes :=
  let le (n : Nat) := Bytes.littleEndian 4 n
  Blake2b.hash 64 <|
    le x.lanes ++ le x.length ++ le x.memory ++ le x.passes ++ le x.version.tag
      ++ le x.variant.tag ++ le x.password.length ++ x.password ++ le x.salt.length ++ x.salt
      ++ le 0 ++ le x.associated.length ++ x.associated

/-- Whether blocks of a segment are chosen by position. -/
def Input.byPosition (x : Input) (p : Position) : Bool :=
  match x.variant with
  | .d => false
  | .i => true
  | .id => p.pass == 0 && p.slice < 2

/-- The numbers by which a segment chooses blocks, where it chooses them by position. -/
def Input.addresses (x : Input) (p : Position) : Array Block :=
  if x.byPosition p then
    let l := x.layout
    let ofCounter (n : Nat) : Block :=
      let z : Block := #[UInt64.ofNat p.pass, UInt64.ofNat p.lane, UInt64.ofNat p.slice,
        UInt64.ofNat l.size, UInt64.ofNat x.passes, UInt64.ofNat x.variant.tag,
        UInt64.ofNat (n + 1)] ++ Array.replicate 121 0
      compress zeroBlock (compress zeroBlock z)
    ((List.range ((l.segment + 127) / 128)).map ofCounter).toArray
  else #[]

/-- The place in the memory of the block that a number chooses for the block number `i` of a
    segment. -/
def Layout.reference (l : Layout) (p : Position) (i : Nat) (chosen : UInt64) : Nat :=
  let lane :=
    if p.pass == 0 && p.slice == 0 then p.lane else (chosen >>> 32).toNat % l.lanes
  let same := lane == p.lane
  let finished := if p.pass == 0 then p.slice * l.segment else l.laneLength - l.segment
  let area :=
    if same then finished + i - 1 else finished - (if i == 0 then 1 else 0)
  let x := (chosen &&& 0xFFFFFFFF).toNat
  let back := (area * ((x * x) >>> 32)) >>> 32
  let start := if p.pass == 0 || p.slice == 3 then 0 else (p.slice + 1) * l.segment
  lane * l.laneLength + (start + (area - 1 - back)) % l.laneLength

def Input.fillBlock (x : Input) (p : Position) (addresses : Array Block)
    (memory : Array Block) (i : Nat) : Array Block :=
  let l := x.layout
  let column := p.slice * l.segment + i
  let before := if column == 0 then l.laneLength - 1 else column - 1
  let place := p.lane * l.laneLength + column
  let previous := memory.getD (p.lane * l.laneLength + before) #[]
  let chosen :=
    if x.byPosition p then word (addresses.getD (i / 128) #[]) (i % 128) else word previous 0
  let made := compress previous (memory.getD (l.reference p i chosen) #[])
  let kept := if x.version = .v10 || p.pass == 0 then made else xor made (memory.getD place #[])
  memory.setIfInBounds place kept

/-- Fills a segment; the first two blocks of a lane are there from the start. -/
def Input.fillSegment (x : Input) (memory : Array Block) (p : Position) : Array Block :=
  let first := if p.pass == 0 && p.slice == 0 then 2 else 0
  let addresses := x.addresses p
  Nat.fold (x.layout.segment - first)
    (fun i _ memory => x.fillBlock p addresses memory (first + i)) memory

/-- The first two blocks of every lane. -/
def Input.start (x : Input) : Array Block :=
  let seed := x.seed
  let l := x.layout
  (List.range l.lanes).foldl
    (fun memory lane =>
      let block (n : Nat) : Block :=
        blockOf (longHash 1024 (seed ++ Bytes.littleEndian 4 n ++ Bytes.littleEndian 4 lane))
      (memory.setIfInBounds (lane * l.laneLength) (block 0)).setIfInBounds
        (lane * l.laneLength + 1) (block 1))
    (Array.replicate l.size zeroBlock)

/-- Fills the memory as often as there are passes. -/
def Input.fill (x : Input) : Array Block :=
  Nat.fold x.passes (fun pass _ memory =>
    Nat.fold 4 (fun slice _ memory =>
      Nat.fold x.lanes (fun lane _ memory => x.fillSegment memory ⟨pass, slice, lane⟩) memory)
      memory)
    x.start

def hash (x : Input) : Bytes :=
  let memory := x.fill
  let l := x.layout
  let last (lane : Nat) : Block := memory.getD ((lane + 1) * l.laneLength - 1) #[]
  let total := (List.range (l.lanes - 1)).foldl (fun b lane => xor b (last (lane + 1))) (last 0)
  longHash x.length (bytesOf total)

/-! ### Lengths -/

theorem length_digestChain (n : Nat) {v : Bytes} (h : v.length = 64) :
    (digestChain n v).length = 32 * n := by
  induction n generalizing v with
  | zero => rfl
  | succ n ih =>
    simp only [digestChain, List.length_append, List.length_take, h,
      ih (Blake2b.length_hash (Nat.le_refl 64) v)]
    omega

theorem length_longHash (length : Nat) (input : Bytes) :
    (longHash length input).length = length := by
  unfold longHash
  split
  · rename_i h
    exact Blake2b.length_hash h _
  · rename_i h
    simp only [List.length_append, length_digestChain _ (Blake2b.length_hash (Nat.le_refl 64) _)]
    rw [Blake2b.length_hash (by omega)]
    omega

theorem length_hash (x : Input) : (hash x).length = x.length := length_longHash _ _

end Argon2

end SyncLedger
