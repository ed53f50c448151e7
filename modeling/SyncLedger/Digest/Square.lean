/-
  SyncLedger/Digest/Square.lean
  =============================
  **The round of the BLAKE hashes.**  The state is a square of four by four words.  A round
  mixes sixteen words of input into it, two with each column and then two with each diagonal.
  BLAKE2b and BLAKE3 share the round; they differ in the width of a word, in how far words are
  turned, and in the order in which a round takes the input.
-/
namespace SyncLedger

/-- Sixteen words, row by row. -/
abbrev Square (α : Type) := Vector α 16

namespace Square

/-- The turns to the right in the four steps of a mixing. -/
structure Turns (α : Type) where
  first : α → α
  second : α → α
  third : α → α
  fourth : α → α

variable {α : Type} [Add α] [XorOp α]

/-- Mixes two words of input into the words at four places. -/
@[inline] def mix (turn : Turns α) (s : Square α) (a b c d : Fin 16) (x y : α) : Square α :=
  let s := s.set a (s.get a + s.get b + x)
  let s := s.set d (turn.first (s.get d ^^^ s.get a))
  let s := s.set c (s.get c + s.get d)
  let s := s.set b (turn.second (s.get b ^^^ s.get c))
  let s := s.set a (s.get a + s.get b + y)
  let s := s.set d (turn.third (s.get d ^^^ s.get a))
  let s := s.set c (s.get c + s.get d)
  s.set b (turn.fourth (s.get b ^^^ s.get c))

/-- Mixes sixteen words of input into the state, first by columns and then by diagonals. -/
@[inline] def round (turn : Turns α) (s : Square α) (word : Fin 16 → α) : Square α :=
  let s := mix turn s 0 4 8 12 (word 0) (word 1)
  let s := mix turn s 1 5 9 13 (word 2) (word 3)
  let s := mix turn s 2 6 10 14 (word 4) (word 5)
  let s := mix turn s 3 7 11 15 (word 6) (word 7)
  let s := mix turn s 0 5 10 15 (word 8) (word 9)
  let s := mix turn s 1 6 11 12 (word 10) (word 11)
  let s := mix turn s 2 7 8 13 (word 12) (word 13)
  mix turn s 3 4 9 14 (word 14) (word 15)

/-! ### Orders of the input -/

/-- An order in which a round takes sixteen words. -/
abbrev Order := Vector (Fin 16) 16

/-- The ten orders of the family. -/
def orders : List Order :=
  [#v[0, 1, 2, 3, 4, 5, 6, 7, 8, 9, 10, 11, 12, 13, 14, 15],
    #v[14, 10, 4, 8, 9, 15, 13, 6, 1, 12, 0, 2, 11, 7, 5, 3],
    #v[11, 8, 12, 0, 5, 2, 15, 13, 10, 14, 3, 6, 7, 1, 9, 4],
    #v[7, 9, 3, 1, 13, 12, 11, 14, 2, 6, 5, 10, 4, 0, 15, 8],
    #v[9, 0, 5, 7, 2, 4, 10, 15, 14, 1, 11, 12, 6, 8, 3, 13],
    #v[2, 12, 6, 10, 0, 11, 8, 3, 4, 13, 7, 5, 15, 14, 1, 9],
    #v[12, 5, 1, 15, 14, 13, 4, 10, 0, 7, 6, 3, 9, 2, 8, 11],
    #v[13, 11, 7, 14, 12, 1, 3, 9, 5, 0, 15, 4, 8, 6, 2, 10],
    #v[6, 15, 14, 9, 11, 3, 0, 8, 12, 2, 13, 7, 1, 4, 10, 5],
    #v[10, 2, 8, 4, 7, 6, 1, 5, 15, 11, 9, 14, 3, 12, 13, 0]]

/-- The order that every round of BLAKE3 applies to what the round before it took. -/
def reordering : Order := #v[2, 6, 3, 10, 7, 0, 4, 13, 1, 11, 12, 5, 9, 14, 15, 8]

end Square

end SyncLedger
