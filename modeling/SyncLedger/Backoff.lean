/-
  SyncLedger/Backoff.lean
  =======================
  **Waiting longer after each conflict.**  Delays double from a base up to a cap, and only so
  many are given out.  All is computed in machine words: the shift is clamped, the product
  saturates, and the cap hides both.
-/
namespace SyncLedger

/-- A budget of delays, and how many of them are used. -/
structure Backoff where
  /-- The first delay in milliseconds. -/
  base : UInt64
  /-- How many delays are given out. -/
  budget : UInt32
  used : UInt32 := 0
  deriving DecidableEq, Repr

namespace Backoff

/-- No delay is longer, in milliseconds. -/
def cap : UInt64 := 2000

/-- The product, or the greatest word where the product does not fit. -/
def saturatingMul (a b : UInt64) : UInt64 :=
  if a.toNat * b.toNat < UInt64.size then a * b else 0xFFFFFFFFFFFFFFFF

/-- The delay number `n`, counted from zero. -/
def delay (base : UInt64) (n : UInt32) : UInt64 :=
  min (saturatingMul base (1 <<< (min n 16).toUInt64)) cap

/-- The next delay while the budget lasts, and what is left after it. -/
def next (b : Backoff) : Option (UInt64 × Backoff) :=
  if b.used < b.budget then some (delay b.base b.used, { b with used := b.used + 1 }) else none

end Backoff

end SyncLedger
