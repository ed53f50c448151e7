/-
  SyncLedger/Proofs/DateReading.lean
  ==================================
  **What is read as a date can be written.**  Reading is laxer than writing: it takes other
  offsets, fewer digits and more fraction digits than writing gives.  What it makes of them is
  nevertheless a date that can be represented (`representable_of_parse?`).  An offset is a number
  of whole minutes, so a leap second stays the last of its minute, and the year is looked at again
  after the offset is taken off.  The dates that can be represented are therefore exactly those
  whose text is read back (`representable_iff`).
-/
import SyncLedger.Proofs.Dates
import Mathlib.Data.List.TakeWhile

namespace SyncLedger

namespace Text

theorem ofDigits_append_singleton (cs : List Char) (c : Char) :
    ofDigits (cs ++ [c]) = ofDigits cs * 10 + digitValue c := by
  simp [ofDigits]

theorem digitValue_lt {c : Char} (h : c.isDigit = true) : digitValue c < 10 := by
  have hbound : c.val.toNat ≤ 57 := by
    simp only [Char.isDigit, Bool.and_eq_true, decide_eq_true_eq] at h
    exact UInt32.le_iff_toNat_le.1 h.2
  simp only [digitValue, Char.toNat]
  omega

theorem ofDigits_lt {cs : List Char} (h : ∀ c ∈ cs, c.isDigit = true) :
    ofDigits cs < 10 ^ cs.length := by
  induction cs using List.reverseRecOn with
  | nil => simp [ofDigits]
  | append_singleton cs c ih =>
    have hfront := ih fun d hd => h d (List.mem_append_left _ hd)
    have hlast := digitValue_lt (h c (by simp))
    rw [ofDigits_append_singleton, List.length_append, List.length_singleton, pow_succ]
    omega

end Text

namespace Instant

namespace Reader

variable {α β : Type} {r : Reader α} {f : α → Reader β} {P : α → Prop} {Q : β → Prop}

/-- Whatever is read, the answer has the property. -/
def Gives (r : Reader α) (P : α → Prop) : Prop := ∀ cs v rest, r cs = some (v, rest) → P v

theorem Gives.bind (hr : r.Gives P) (hf : ∀ v, P v → (f v).Gives Q) : (r >>= f).Gives Q := by
  intro cs w left h
  change ((r cs).bind fun p => f p.1 p.2) = some (w, left) at h
  obtain ⟨⟨v, rest⟩, hv, hw⟩ := Option.bind_eq_some_iff.1 h
  exact hf v (hr cs v rest hv) rest w left hw

/-- Nothing need be known of what is read first. -/
theorem Gives.bind_any (hf : ∀ v, (f v).Gives Q) : (r >>= f).Gives Q :=
  Gives.bind (P := fun _ => True) (fun _ _ _ _ => trivial) fun v _ => hf v

theorem gives_pure {v : α} (h : P v) : (pure v : Reader α).Gives P := by
  intro cs w rest hw
  obtain ⟨rfl, -⟩ := Prod.ext_iff.1 (Option.some.inj hw)
  exact h

theorem gives_failure : (failure : Reader α).Gives P := by
  intro cs v rest h
  contradiction

theorem gives_guard (p : Prop) [Decidable p] : (guard p : Reader Unit).Gives fun _ => p := by
  rw [guard]
  split
  · rename_i hp
    exact gives_pure hp
  · exact gives_failure

theorem gives_number (most lo hi : Nat) : (number most lo hi).Gives fun n => lo ≤ n ∧ n ≤ hi := by
  refine Gives.bind_any fun _ => Gives.bind_any fun ds => ?_
  simp only
  split
  · rename_i h
    exact gives_pure h
  · exact gives_failure

theorem gives_digits (most : Nat) : (digits most).Gives fun ds =>
    ds.length ≤ most ∧ ∀ c ∈ ds, c.isDigit = true := by
  intro cs ds rest h
  simp only [digits] at h
  split at h
  · contradiction
  · obtain ⟨rfl, -⟩ := Prod.ext_iff.1 (Option.some.inj h)
    refine ⟨?_, fun c hc => List.mem_takeWhile_imp hc⟩
    exact ((List.takeWhile_prefix _).length_le).trans (List.length_take_le most cs)

/-- A fraction is less than a second. -/
theorem gives_fraction : fraction.Gives fun nano => nano < 1000000000 := by
  intro cs nano rest h
  unfold fraction at h
  split at h
  · rename_i after
    obtain ⟨⟨ds, left⟩, hds, hnano⟩ := Option.bind_eq_some_iff.1 h
    obtain ⟨hlength, hdigits⟩ := gives_digits 9 after ds left hds
    obtain ⟨rfl, -⟩ := Prod.ext_iff.1 (Option.some.inj hnano)
    have hfront := Text.ofDigits_lt hdigits
    have hwhole : 10 ^ ds.length * 10 ^ (9 - ds.length) = 1000000000 := by
      rw [← pow_add, Nat.add_sub_cancel' hlength]
      norm_num
    show Text.ofDigits (ds ++ List.replicate (9 - ds.length) '0') < 1000000000
    rw [Text.ofDigits_append_zeros, ← hwhole]
    exact Nat.mul_lt_mul_of_pos_right hfront (by positivity)
  · obtain ⟨rfl, -⟩ := Prod.ext_iff.1 (Option.some.inj h)
    norm_num

/-- An offset is a number of whole minutes. -/
theorem gives_offset : offset.Gives fun east => east % 60 = 0 := by
  intro cs east rest h
  unfold offset at h
  split at h
  · obtain ⟨rfl, -⟩ := Prod.ext_iff.1 (Option.some.inj h)
    rfl
  · split at h
    · obtain ⟨rfl, -⟩ := Prod.ext_iff.1 (Option.some.inj h)
      rfl
    · obtain ⟨rfl, -⟩ := Prod.ext_iff.1 (Option.some.inj h)
      rfl
    · split at h
      · obtain ⟨⟨hours, _⟩, -, h⟩ := Option.bind_eq_some_iff.1 h
        obtain ⟨⟨minutes, _⟩, -, h⟩ := Option.bind_eq_some_iff.1 h
        simp only at h
        split at h
        · obtain ⟨rfl, -⟩ := Prod.ext_iff.1 (Option.some.inj h)
          simp only
          split <;> omega
        · contradiction
      · contradiction
    · contradiction

theorem gives_instant : instant.Gives Representable := by
  unfold instant
  refine Gives.bind_any fun y => Gives.bind_any fun _ => ?_
  refine (gives_number 2 1 12).bind fun mo _ => Gives.bind_any fun _ => ?_
  refine (gives_number 2 1 31).bind fun d _ => Gives.bind_any fun _ => Gives.bind_any fun _ => ?_
  refine (gives_number 2 0 23).bind fun h _ => Gives.bind_any fun _ => ?_
  refine (gives_number 2 0 59).bind fun mi _ => Gives.bind_any fun _ => ?_
  refine (gives_number 2 0 60).bind fun s hs => gives_fraction.bind fun nano hnano => ?_
  refine Gives.bind_any fun _ => gives_offset.bind fun east heast => Gives.bind_any fun _ => ?_
  refine (gives_guard _).bind fun _ hyear => gives_pure ⟨hyear, ?_⟩
  rcases Nat.lt_or_ge s 60 with hplain | hleap
  · left
    simp only
    omega
  · right
    simp only
    omega

end Reader

theorem representable_of_parse? {s : String} {t : Instant} (h : parse? s = some t) :
    t.Representable := by
  unfold parse? at h
  split at h
  · rename_i t' hread
    obtain rfl := Option.some.inj h
    exact Reader.gives_instant _ _ _ hread
  · contradiction

/-- The dates that can be represented are those whose text is read back. -/
theorem representable_iff {t : Instant} : t.Representable ↔ parse? t.text = some t :=
  ⟨parse?_text, representable_of_parse?⟩

end Instant

end SyncLedger
