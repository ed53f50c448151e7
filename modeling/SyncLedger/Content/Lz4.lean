/-
  SyncLedger/Content/Lz4.lean
  ===========================
  **Packed contents: the LZ4 block format after a size.**  A block is a row of sequences, each
  of them some literal bytes and then a copy of bytes that were unpacked before, given by how
  far back they begin and how many they are.  The last sequence has no copy.  The four bytes in
  front of the block, least significant first, bound the size of what it unpacks to.

  Unpacking takes every block.  Packing writes one sequence of literals, which is a block that
  any reader of the format takes.
-/
import SyncLedger.Bytes

namespace SyncLedger

namespace Lz4

/-! ### Lengths -/

/-- The sum of bytes up to the first that is below 255, and what follows it. -/
def readExtra? : Bytes → Option (Nat × Bytes)
  | [] => none
  | b :: rest =>
    if b = 255 then (readExtra? rest).map fun (n, rest) => (255 + n, rest)
    else some (b.toNat, rest)

/-- A length whose first part is half a byte; bytes follow if that is 15. -/
def readLength? (nibble : Nat) (input : Bytes) : Option (Nat × Bytes) :=
  if nibble = 15 then (readExtra? input).map fun (n, rest) => (15 + n, rest)
  else some (nibble, input)

theorem length_of_readExtra? {input rest : Bytes} {n : Nat}
    (h : readExtra? input = some (n, rest)) : rest.length < input.length := by
  induction input generalizing n with
  | nil => simp [readExtra?] at h
  | cons b input ih =>
    unfold readExtra? at h
    split at h
    · obtain ⟨⟨m, r⟩, hr, heq⟩ := Option.map_eq_some_iff.1 h
      simp only [Prod.mk.injEq] at heq
      have := ih (n := m) (heq.2 ▸ hr)
      simp only [List.length_cons]
      omega
    · simp only [Option.some.injEq, Prod.mk.injEq] at h
      simp [← h.2]

theorem length_of_readLength? {nibble n : Nat} {input rest : Bytes}
    (h : readLength? nibble input = some (n, rest)) : rest.length ≤ input.length := by
  unfold readLength? at h
  split at h
  · obtain ⟨⟨m, r⟩, hr, heq⟩ := Option.map_eq_some_iff.1 h
    simp only [Prod.mk.injEq] at heq
    exact Nat.le_of_lt (length_of_readExtra? (n := m) (heq.2 ▸ hr))
  · simp only [Option.some.injEq, Prod.mk.injEq] at h
    simp [← h.2]

/-- What follows a half byte of 15 to make a length. -/
def writeExtra (n : Nat) : Bytes :=
  if n < 255 then [UInt8.ofNat n] else 255 :: writeExtra (n - 255)

/-! ### Unpacking -/

/-- Copies bytes one by one from a fixed distance back, so that a copy may reach into what it
    has just written. -/
def copyBack (distance : Nat) : Nat → Array UInt8 → Array UInt8
  | 0, out => out
  | n + 1, out => copyBack distance n (out.push (out.getD (out.size - distance) 0))

/-- Unpacks the sequences that are left, at most `capacity` bytes in all. -/
def unpackBlock? (capacity : Nat) (out : Array UInt8) (input : Bytes) : Option (Array UInt8) :=
  match input with
  | [] => none
  | token :: afterToken =>
    match _hl : readLength? (token.toNat / 16) afterToken with
    | none => none
    | some (literals, rest) =>
      if rest.length < literals ∨ capacity < out.size + literals then none
      else
        let out := out ++ rest.take literals
        match _hr : rest.drop literals with
        | [] => some out
        | [_] => none
        | lo :: hi :: afterOffset =>
          let distance := lo.toNat + 256 * hi.toNat
          match _hm : readLength? (token.toNat % 16) afterOffset with
          | none => none
          | some (copied, next) =>
            let copied := 4 + copied
            if distance = 0 ∨ out.size < distance ∨ capacity < out.size + copied then none
            else unpackBlock? capacity (copyBack distance copied out) next
termination_by input.length
decreasing_by
  have hl := length_of_readLength? _hl
  have hm := length_of_readLength? _hm
  have hr := congrArg List.length _hr
  simp only [List.length_drop, List.length_cons] at hr ⊢
  omega

/-- Unpacks a block with its size in front. -/
def unpack? (input : Bytes) : Option Bytes :=
  if input.length < 4 then none
  else (unpackBlock? (Bytes.ofLittleEndian (input.take 4)) #[] (input.drop 4)).map (·.toList)

/-! ### Packing -/

/-- A block of nothing but literals. -/
def packBlock (data : Bytes) : Bytes :=
  if data.length < 15 then UInt8.ofNat (16 * data.length) :: data
  else 0xF0 :: writeExtra (data.length - 15) ++ data

def pack (data : Bytes) : Bytes := Bytes.littleEndian 4 data.length ++ packBlock data

end Lz4

end SyncLedger
