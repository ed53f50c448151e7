/-
  SyncLedger/Proofs/Delays.lean
  =============================
  **Delays are the base doubled, up to the cap and to the budget.**  A delay is computed in machine
  words by three means that are not the exact product: a shift that goes no further than sixteen
  places, a product that stops at the greatest word, and a cap.  The first two make a difference
  only where the exact product is above the cap, so the cap hides them (`toNat_delay`): sixteen
  doublings of any base but zero are above it, and so is the greatest word.

  What is left after so many calls is said by one invariant (`Spent`), which a call moves on by one
  (`Spent.call`).  The counter stops at the budget, which is a word, so it does not overflow.
-/
import SyncLedger.Backoff
import Mathlib.Tactic

namespace SyncLedger.Backoff

variable {b left : Backoff} {base wait : UInt64} {budget : UInt32} {a i j k : Nat}

/-! ### One delay -/

/-- The delay number `i` in milliseconds, counted from zero and computed in whole numbers. -/
def doubled (base i : Nat) : Nat := min 2000 (base * 2 ^ i)

theorem doubled_mono (h : i ≤ j) : doubled a i ≤ doubled a j :=
  min_le_min_left 2000 (Nat.mul_le_mul_left a (Nat.pow_le_pow_right (by norm_num) h))

/-- No doubling after the sixteenth makes a difference: zero stays zero, and of any other base the
    delay has come to the cap. -/
theorem doubled_limit (a i : Nat) : doubled a (min i 16) = doubled a i := by
  rcases Nat.le_total i 16 with hle | hge
  · rw [min_eq_left hle]
  · rw [min_eq_right hge]
    rcases Nat.eq_zero_or_pos a with rfl | hpos
    · rw [doubled, doubled, Nat.zero_mul, Nat.zero_mul]
    · have hcap : 2000 ≤ a * 2 ^ 16 :=
        calc 2000 ≤ 1 * 2 ^ 16 := by norm_num
          _ ≤ a * 2 ^ 16 := Nat.mul_le_mul_right _ hpos
      refine le_antisymm (doubled_mono hge) ?_
      rw [doubled, doubled, min_eq_left hcap]
      exact min_le_left _ _

theorem toNat_factor (n : UInt32) :
    ((1 : UInt64) <<< (min n 16).toUInt64).toNat = 2 ^ min n.toNat 16 := by
  have hlimit : (min n 16).toUInt64.toNat = min n.toNat 16 := by
    rw [UInt32.toNat_toUInt64, UInt32.toNat_min]
    rfl
  have hle : min n.toNat 16 ≤ 16 := min_le_right _ _
  have hfits : 2 ^ min n.toNat 16 < 2 ^ 64 := Nat.pow_lt_pow_right (by norm_num) (by omega)
  have hplaces : min n.toNat 16 % 64 = min n.toNat 16 := Nat.mod_eq_of_lt (by omega)
  rw [UInt64.toNat_shiftLeft, hlimit, hplaces, UInt64.toNat_one, Nat.one_shiftLeft,
    Nat.mod_eq_of_lt hfits]

/-- Where the product does not fit, both what stands for it and the exact one are above the cap. -/
theorem capped_saturatingMul (x y : UInt64) :
    min 2000 (saturatingMul x y).toNat = min 2000 (x.toNat * y.toNat) := by
  unfold saturatingMul
  split
  · rename_i hfits
    rw [UInt64.toNat_mul, Nat.mod_eq_of_lt hfits]
  · rename_i hover
    have hproduct : 2000 ≤ x.toNat * y.toNat := by
      rw [UInt64.size] at hover
      omega
    rw [min_eq_left hproduct]
    rfl

/-- **A delay is the exact one.** -/
theorem toNat_delay (base : UInt64) (n : UInt32) :
    (delay base n).toNat = doubled base.toNat n.toNat := by
  calc (delay base n).toNat
      = min 2000 (saturatingMul base (1 <<< (min n 16).toUInt64)).toNat := by
        rw [delay, UInt64.toNat_min, min_comm]
        rfl
    _ = doubled base.toNat (min n.toNat 16) := by rw [capped_saturatingMul, toNat_factor, doubled]
    _ = doubled base.toNat n.toNat := doubled_limit _ _

/-! ### One call after another -/

/-- A delay is given out while the budget lasts. -/
theorem next_eq_some_iff : b.next = some (wait, left) ↔
    b.used < b.budget ∧ wait = delay b.base b.used ∧ left = { b with used := b.used + 1 } := by
  unfold next
  split <;> simp_all [eq_comm]

theorem next_eq_none_iff : b.next = none ↔ ¬ b.used < b.budget := by
  unfold next
  split <;> simp_all

/-- As long as something is left of the budget, the counter does not overflow. -/
theorem toNat_used_succ (h : b.used < b.budget) : (b.used + 1).toNat = b.used.toNat + 1 := by
  have hlt := UInt32.lt_iff_toNat_lt.1 h
  have hbound := b.budget.toNat_lt
  rw [UInt32.toNat_add, UInt32.toNat_one]
  omega

/-- A delay that is given out is one of the budget, and is used from then on. -/
theorem used_of_next (h : b.next = some (wait, left)) :
    left.budget = b.budget ∧ left.used.toNat = b.used.toNat + 1 ∧
      b.used.toNat < b.budget.toNat := by
  obtain ⟨hlt, -, rfl⟩ := next_eq_some_iff.1 h
  exact ⟨rfl, toNat_used_succ hlt, UInt32.lt_iff_toNat_lt.1 hlt⟩

/-- A call: what it is answered, and what is left after it.  A budget that is spent stays as it
    is. -/
def call (b : Backoff) : Option UInt64 × Backoff :=
  match b.next with
  | some (wait, left) => (some wait, left)
  | none => (none, b)

/-- What is left after so many calls. -/
def after (b : Backoff) : Nat → Backoff
  | 0 => b
  | k + 1 => (b.after k).call.2

/-- What the call number `i` is answered, counted from zero. -/
def answer (b : Backoff) (i : Nat) : Option UInt64 := (b.after i).call.1

/-- What is left of a budget after so many calls: each of them used a delay, up to the budget. -/
structure Spent (base : UInt64) (budget : UInt32) (k : Nat) (b : Backoff) : Prop where
  base_eq : b.base = base
  budget_eq : b.budget = budget
  used_eq_min : b.used.toNat = min k budget.toNat

namespace Spent

theorem lt_iff (h : Spent base budget k b) : b.used < b.budget ↔ k < budget.toNat := by
  rw [UInt32.lt_iff_toNat_lt, h.budget_eq, h.used_eq_min]
  omega

theorem used_eq (h : Spent base budget k b) (hk : k < budget.toNat) : b.used.toNat = k := by
  rw [h.used_eq_min, min_eq_left hk.le]

theorem call_of_lt (h : Spent base budget k b) (hk : k < budget.toNat) :
    b.call = (some (delay base b.used), { b with used := b.used + 1 }) := by
  rw [Backoff.call, next_eq_some_iff.2 ⟨h.lt_iff.2 hk, rfl, rfl⟩, h.base_eq]

theorem call_of_not_lt (h : Spent base budget k b) (hk : ¬ k < budget.toNat) :
    b.call = (none, b) := by
  rw [Backoff.call, next_eq_none_iff.2 (mt h.lt_iff.1 hk)]

/-- A call uses one delay, or none where none is left. -/
theorem call (h : Spent base budget k b) : Spent base budget (k + 1) b.call.2 := by
  by_cases hk : k < budget.toNat
  · rw [h.call_of_lt hk]
    refine ⟨h.base_eq, h.budget_eq, ?_⟩
    show (b.used + 1).toNat = _
    rw [toNat_used_succ (h.lt_iff.2 hk), h.used_eq hk, min_eq_left hk]
  · rw [h.call_of_not_lt hk]
    refine ⟨h.base_eq, h.budget_eq, ?_⟩
    rw [h.used_eq_min]
    omega

theorem answer (h : Spent base budget k b) : b.call.1.map UInt64.toNat =
    if k < budget.toNat then some (doubled base.toNat k) else none := by
  by_cases hk : k < budget.toNat
  · rw [h.call_of_lt hk, if_pos hk, Option.map_some, toNat_delay, h.used_eq hk]
  · rw [h.call_of_not_lt hk, if_neg hk, Option.map_none]

end Spent

/-- The invariant holds after any number of calls. -/
theorem spent_after (base : UInt64) (budget : UInt32) (k : Nat) :
    Spent base budget k (after { base, budget } k) := by
  induction k with
  | zero => exact ⟨rfl, rfl, (Nat.zero_min _).symm⟩
  | succ k ih => exact ih.call

/-- An answer with a delay is the delay of that number. -/
theorem toNat_of_mem_answer (h : wait ∈ answer { base, budget } i) :
    wait.toNat = doubled base.toNat i := by
  have hanswer := (spent_after base budget i).answer
  have hwait : (after { base, budget } i).call.1 = some wait := h
  rw [hwait, Option.map_some] at hanswer
  split at hanswer
  · exact Option.some.inj hanswer
  · contradiction

/-! ### The theorem -/

/-- **Delays double exactly up to the cap, within a hard budget.**  The call number `i` is answered
    the base times two to the power `i`, or the cap of two seconds where that is more, as long as
    the budget lasts, and no delay from then on.  As many delays are used as calls were made, up to
    the budget.

    While the budget lasts, the counter is the number of the call and does not overflow where it is
    raised.  The factor is the power of two that it stands for.  Neither the product that stops at
    the greatest word nor the shift that stops at sixteen places changes a delay.  A delay is never
    shorter than one before it. -/
theorem doubling_exact (base : UInt64) (budget : UInt32) :
    let b : Backoff := { base, budget }
    (∀ i, (b.answer i).map UInt64.toNat =
      if i < budget.toNat then some (min 2000 (base.toNat * 2 ^ i)) else none) ∧
    (∀ k, (b.after k).used.toNat = min k budget.toNat) ∧
    (∀ i, i < budget.toNat →
      let n := (b.after i).used
      let factor : UInt64 := 1 <<< (min n 16).toUInt64
      n.toNat = i ∧ (n + 1).toNat = i + 1 ∧ factor.toNat = 2 ^ min i 16 ∧
      min 2000 (saturatingMul base factor).toNat = min 2000 (base.toNat * factor.toNat) ∧
      min 2000 (base.toNat * factor.toNat) = min 2000 (base.toNat * 2 ^ i)) ∧
    ∀ i j, i ≤ j → ∀ v ∈ b.answer i, ∀ w ∈ b.answer j, v ≤ w := by
  intro b
  refine ⟨fun i => (spent_after base budget i).answer,
    fun k => (spent_after base budget k).used_eq_min, ?_, ?_⟩
  · intro i hi n factor
    have hspent := spent_after base budget i
    have hn : n.toNat = i := hspent.used_eq hi
    have hfactor : factor.toNat = 2 ^ min i 16 := by
      rw [← hn]
      exact toNat_factor n
    refine ⟨hn, ?_, hfactor, capped_saturatingMul base factor, ?_⟩
    · rw [← hn]
      exact toNat_used_succ (hspent.lt_iff.2 hi)
    · rw [hfactor]
      exact doubled_limit base.toNat i
  · intro i j hij v hv w hw
    rw [UInt64.le_iff_toNat_le, toNat_of_mem_answer hv, toNat_of_mem_answer hw]
    exact doubled_mono hij

/-- Twice the first base does not fit a word and would wrap to zero: the cap is the answer.  The
    base zero is answered zero after more doublings than the shift makes. -/
theorem doubling_of_great_base :
    let b : Backoff := { base := 0x8000000000000000, budget := 3 }
    let z : Backoff := { base := 0, budget := 20 }
    (b.answer 1).map UInt64.toNat = some 2000 ∧ b.answer 3 = none ∧ (b.after 9).used.toNat = 3 ∧
    min 2000 (saturatingMul 0x8000000000000000 (1 <<< (min (b.after 1).used 16).toUInt64)).toNat
      = 2000 ∧
    (z.answer 17).map UInt64.toNat = some 0 ∧ ((z.after 17).used + 1).toNat = 18 ∧
    ∀ v ∈ b.answer 0, ∀ w ∈ b.answer 2, v ≤ w := by
  intro b z
  obtain ⟨hanswer, hused, hexact, hmono⟩ := doubling_exact 0x8000000000000000 3
  obtain ⟨hanswer', -, hexact', -⟩ := doubling_exact 0 20
  obtain ⟨-, -, hfactor, hproduct, -⟩ := hexact 1 (by decide)
  refine ⟨(hanswer 1).trans (by decide), Option.map_eq_none_iff.1 (hanswer 3), hused 9, ?_,
    (hanswer' 17).trans (by decide), (hexact' 17 (by decide)).2.1, hmono 0 2 (by decide)⟩
  rw [hproduct, hfactor]
  decide

end SyncLedger.Backoff
