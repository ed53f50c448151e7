/-
  SyncLedger/Proofs/Numerals.lean
  ===============================
  **A natural number has one decimal text.**  What is written of a number has decimal digits only,
  and no zero in front unless it is the whole text (`isNumeral_toDigits`); every such text is the one
  that is written of the number it denotes (`IsNumeral.toDigits_ofDigits`).
-/
import SyncLedger.Proofs.DateReading

namespace SyncLedger.Text

variable {cs : List Char} {c : Char} {n : Nat}

/-- Decimal digits without a needless zero in front. -/
structure IsNumeral (cs : List Char) : Prop where
  nonempty : cs ≠ []
  digits : ∀ c ∈ cs, c.isDigit = true
  front : cs.head? = some '0' → cs.length = 1

theorem ofDigits_toDigits (n : Nat) : ofDigits (Nat.toDigits 10 n) = n := by
  rw [ofDigits_eq, Nat.ofDigitChars_ten_toDigits]

theorem digitChar_digitValue (h : c.isDigit = true) : (digitValue c).digitChar = c := by
  have hc : 48 ≤ c.toNat := by
    simp only [Char.isDigit, Bool.and_eq_true, decide_eq_true_eq] at h
    exact UInt32.le_iff_toNat_le.1 h.1
  have hlt := digitValue_lt h
  refine Char.toNat_inj.1 ?_
  rw [Nat.toNat_digitChar_of_lt_ten hlt, digitValue, Nat.add_sub_cancel' hc]

/-- No zero stands in front of a number but zero. -/
theorem head?_toDigits_ne (h : 0 < n) : (Nat.toDigits 10 n).head? ≠ some '0' := by
  induction n using Nat.strongRecOn with
  | ind n ih =>
    by_cases hlt : n < 10
    · rw [Nat.toDigits_of_lt_base hlt, List.head?_cons]
      intro hzero
      exact h.ne' (Nat.digitChar_eq_zero.1 (Option.some.inj hzero))
    · rw [Nat.toDigits_of_base_le (by norm_num) (by omega),
        List.head?_append_of_ne_nil _ Nat.toDigits_ne_nil]
      exact ih (n / 10) (by omega) (by omega)

theorem isNumeral_toDigits (n : Nat) : IsNumeral (Nat.toDigits 10 n) where
  nonempty := Nat.toDigits_ne_nil
  digits _ hc := Nat.isDigit_of_mem_toDigits (by norm_num) (by norm_num) hc
  front hzero := by
    rcases Nat.eq_zero_or_pos n with rfl | hpos
    · rfl
    · exact absurd hzero (head?_toDigits_ne hpos)

theorem notMem_toDigits (h : c.isDigit = false) : c ∉ Nat.toDigits 10 n :=
  fun hmem => absurd ((isNumeral_toDigits n).digits c hmem) (by simp [h])

/-- The digits of the number that a numeral denotes are those of the numeral. -/
theorem IsNumeral.toDigits_ofDigits (h : IsNumeral cs) : Nat.toDigits 10 (ofDigits cs) = cs := by
  induction cs using List.reverseRecOn with
  | nil => exact absurd rfl h.nonempty
  | append_singleton cs c ih =>
    have hc := h.digits c (by simp)
    have hlast : Nat.toDigits 10 (digitValue c) = [c] := by
      rw [Nat.toDigits_of_lt_base (digitValue_lt hc), digitChar_digitValue hc]
    rw [ofDigits_append_singleton, Nat.mul_comm]
    by_cases hcs : cs = []
    · subst hcs
      simpa [ofDigits] using hlast
    · have hfront : cs.head? ≠ some '0' := by
        intro hzero
        have hlength := h.front (by rw [List.head?_append_of_ne_nil _ hcs, hzero])
        rw [List.length_append, List.length_singleton] at hlength
        exact hcs (List.eq_nil_of_length_eq_zero (by omega))
      have hbefore := ih
        ⟨hcs, fun d hd => h.digits d (by simp [hd]), fun hzero => absurd hzero hfront⟩
      -- zero has the digit zero in front
      have hpos : 0 < ofDigits cs := by
        refine Nat.pos_of_ne_zero fun hzero => hfront ?_
        rw [← hbefore, hzero]
        rfl
      rw [← Nat.toDigits_append_toDigits (by norm_num) hpos (digitValue_lt hc), hbefore, hlast]

end SyncLedger.Text
