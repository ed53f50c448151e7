/-
  SyncLedger/Proofs/Base64.lean
  =============================
  **A byte string has one base 64 text.**  Writing and reading are inverse to each other in both
  directions (`decodeChars?_eq_some_iff`): what was written is read back, and what is read is what
  would be written, since the bits of the last character that belong to no byte have to be zero.
-/
import SyncLedger.Digest.Base64
import Mathlib.Tactic

namespace SyncLedger.Base64

variable {cs : List Char} {b : Bytes} {c : Char} {n : Nat}

/-! ### Six bits -/

theorem value?_digit (h : n < 64) : value? (digit n) = some n := by
  have hall : ∀ i : Fin 64, value? (digit i) = some i.val := by decide +kernel
  exact hall ⟨n, h⟩

theorem value?_eq_some_iff : value? c = some n ↔ n < 64 ∧ digit n = c := by
  constructor
  · intro h
    have hrange {lo hi : Char} (hlo : lo ≤ c) (hhi : c ≤ hi) : lo.toNat ≤ c.toNat ∧
        c.toNat ≤ hi.toNat := ⟨UInt32.le_iff_toNat_le.1 hlo, UInt32.le_iff_toNat_le.1 hhi⟩
    have hlower : 'a'.toNat = 97 ∧ 'z'.toNat = 122 := by decide
    have hupper : 'A'.toNat = 65 ∧ 'Z'.toNat = 90 := by decide
    have hdigit : '0'.toNat = 48 ∧ '9'.toNat = 57 := by decide
    unfold value? at h
    split at h
    · rename_i hc
      obtain ⟨hlo, hhi⟩ := hrange hc.1 hc.2
      obtain rfl := Option.some.inj h
      refine ⟨by omega, ?_⟩
      rw [digit, if_pos (by omega), Nat.add_sub_cancel' (by omega), Char.ofNat_toNat]
    · split at h
      · rename_i hc
        obtain ⟨hlo, hhi⟩ := hrange hc.1 hc.2
        obtain rfl := Option.some.inj h
        refine ⟨by omega, ?_⟩
        rw [digit, if_neg (by omega), if_pos (by omega), Nat.add_sub_cancel,
          Nat.add_sub_cancel' (by omega), Char.ofNat_toNat]
      · split at h
        · rename_i hc
          obtain ⟨hlo, hhi⟩ := hrange hc.1 hc.2
          obtain rfl := Option.some.inj h
          refine ⟨by omega, ?_⟩
          rw [digit, if_neg (by omega), if_neg (by omega), if_pos (by omega), Nat.add_sub_cancel,
            Nat.add_sub_cancel' (by omega), Char.ofNat_toNat]
        · split at h
          · rename_i hc
            obtain rfl := Option.some.inj h
            exact ⟨by omega, hc.symm⟩
          · split at h
            · rename_i hc
              obtain rfl := Option.some.inj h
              exact ⟨by omega, hc.symm⟩
            · contradiction
  · rintro ⟨hn, rfl⟩
    exact value?_digit hn

/-! ### Groups of bytes -/

theorem ofNat_eq_of_mod {a : UInt8} (h : n % 256 = a.toNat) : UInt8.ofNat n = a :=
  UInt8.toNat_inj.1 (UInt8.toNat_ofNat'.trans h)

section Groups

variable {w x y z : Nat} (hw : w < 64) (hx : x < 64)
include hw hx

theorem decodeChars?_two : decodeChars? [digit w, digit x] =
    if (w * 64 + x) % 16 = 0 then some [UInt8.ofNat ((w * 64 + x) / 16)] else none := by
  simp [decodeChars?, value?_digit hw, value?_digit hx]

variable (hy : y < 64)
include hy

theorem decodeChars?_three : decodeChars? [digit w, digit x, digit y] =
    let n := (w * 64 + x) * 64 + y
    if n % 4 = 0 then some [UInt8.ofNat (n / 1024), UInt8.ofNat (n / 4)] else none := by
  simp [decodeChars?, value?_digit hw, value?_digit hx, value?_digit hy]

variable (hz : z < 64)
include hz

theorem decodeChars?_four : decodeChars? (digit w :: digit x :: digit y :: digit z :: cs) =
    let n := ((w * 64 + x) * 64 + y) * 64 + z
    (decodeChars? cs).map fun b =>
      UInt8.ofNat (n / 65536) :: UInt8.ofNat (n / 256) :: UInt8.ofNat n :: b := by
  simp only [decodeChars?, value?_digit hw, value?_digit hx, value?_digit hy, value?_digit hz]
  exact (Option.map_eq_bind (x := decodeChars? cs)).symm

end Groups

/-- What was written is read back. -/
theorem decodeChars?_encodeChars (b : Bytes) : decodeChars? (encodeChars b) = some b := by
  fun_induction encodeChars b with
  | case1 => rfl
  | case2 a n =>
    have ha := a.toNat_lt
    have hn : n / 64 * 64 + n % 64 = n := by omega
    have hbyte : UInt8.ofNat (n / 16) = a := ofNat_eq_of_mod (by omega)
    rw [decodeChars?_two (by omega) (by omega), hn, if_pos (by omega), hbyte]
  | case3 a b n =>
    have ha := a.toNat_lt
    have hb := b.toNat_lt
    have hn : (n / 4096 * 64 + n / 64 % 64) * 64 + n % 64 = n := by omega
    have hfirst : UInt8.ofNat (n / 1024) = a := ofNat_eq_of_mod (by omega)
    have hsecond : UInt8.ofNat (n / 4) = b := ofNat_eq_of_mod (by omega)
    rw [decodeChars?_three (by omega) (by omega) (by omega), hn]
    simp only
    rw [if_pos (by omega), hfirst, hsecond]
  | case4 a b c rest n ih =>
    have ha := a.toNat_lt
    have hb := b.toNat_lt
    have hc := c.toNat_lt
    have hn : ((n / 262144 * 64 + n / 4096 % 64) * 64 + n / 64 % 64) * 64 + n % 64 = n := by omega
    have hfirst : UInt8.ofNat (n / 65536) = a := ofNat_eq_of_mod (by omega)
    have hsecond : UInt8.ofNat (n / 256) = b := ofNat_eq_of_mod (by omega)
    have hthird : UInt8.ofNat n = c := ofNat_eq_of_mod (by omega)
    rw [decodeChars?_four (by omega) (by omega) (by omega) (by omega), hn, ih, Option.map_some,
      hfirst, hsecond, hthird]

/-- What is read is what would be written. -/
theorem eq_encodeChars (h : decodeChars? cs = some b) : cs = encodeChars b := by
  fun_induction decodeChars? cs generalizing b with
  | case1 =>
    obtain rfl := Option.some.inj h
    rfl
  | case2 => contradiction
  | case3 c d =>
    simp only [Option.bind_eq_bind, Option.bind_eq_some_iff, value?_eq_some_iff] at h
    obtain ⟨w, ⟨hw, rfl⟩, x, ⟨hx, rfl⟩, h⟩ := h
    split at h
    · rename_i hzero
      obtain rfl := Option.some.inj h
      have hn : (UInt8.ofNat ((w * 64 + x) / 16)).toNat * 16 = w * 64 + x := by
        rw [UInt8.toNat_ofNat']
        omega
      have hfirst : (w * 64 + x) / 64 = w := by omega
      have hlast : (w * 64 + x) % 64 = x := by omega
      simp only [encodeChars, hn, hfirst, hlast]
    · contradiction
  | case4 c d e =>
    simp only [Option.bind_eq_bind, Option.bind_eq_some_iff, value?_eq_some_iff] at h
    obtain ⟨w, ⟨hw, rfl⟩, x, ⟨hx, rfl⟩, y, ⟨hy, rfl⟩, h⟩ := h
    split at h
    · rename_i hzero
      obtain rfl := Option.some.inj h
      have hn : ((UInt8.ofNat (((w * 64 + x) * 64 + y) / 1024)).toNat * 256
          + (UInt8.ofNat (((w * 64 + x) * 64 + y) / 4)).toNat) * 4 = (w * 64 + x) * 64 + y := by
        rw [UInt8.toNat_ofNat', UInt8.toNat_ofNat']
        omega
      have hfirst : ((w * 64 + x) * 64 + y) / 4096 = w := by omega
      have hsecond : ((w * 64 + x) * 64 + y) / 64 % 64 = x := by omega
      have hlast : ((w * 64 + x) * 64 + y) % 64 = y := by omega
      simp only [encodeChars, hn, hfirst, hsecond, hlast]
    · contradiction
  | case5 c d e f rest ih =>
    simp only [Option.bind_eq_bind, Option.bind_eq_some_iff, value?_eq_some_iff] at h
    obtain ⟨w, ⟨hw, rfl⟩, x, ⟨hx, rfl⟩, y, ⟨hy, rfl⟩, z, ⟨hz, rfl⟩, tail, htail, h⟩ := h
    obtain rfl := Option.some.inj h
    have hn : ((UInt8.ofNat ((((w * 64 + x) * 64 + y) * 64 + z) / 65536)).toNat * 256
        + (UInt8.ofNat ((((w * 64 + x) * 64 + y) * 64 + z) / 256)).toNat) * 256
        + (UInt8.ofNat (((w * 64 + x) * 64 + y) * 64 + z)).toNat
          = ((w * 64 + x) * 64 + y) * 64 + z := by
      rw [UInt8.toNat_ofNat', UInt8.toNat_ofNat', UInt8.toNat_ofNat']
      omega
    have hfirst : (((w * 64 + x) * 64 + y) * 64 + z) / 262144 = w := by omega
    have hsecond : (((w * 64 + x) * 64 + y) * 64 + z) / 4096 % 64 = x := by omega
    have hthird : (((w * 64 + x) * 64 + y) * 64 + z) / 64 % 64 = y := by omega
    have hlast : (((w * 64 + x) * 64 + y) * 64 + z) % 64 = z := by omega
    simp only [encodeChars, hn, hfirst, hsecond, hthird, hlast]
    rw [← ih htail]

theorem decodeChars?_eq_some_iff : decodeChars? cs = some b ↔ cs = encodeChars b :=
  ⟨eq_encodeChars, fun h => h ▸ decodeChars?_encodeChars b⟩

/-! ### Length and characters of a text -/

theorem length_encodeChars (b : Bytes) : (encodeChars b).length = (4 * b.length + 2) / 3 := by
  fun_induction encodeChars b with
  | case1 => rfl
  | case2 => simp
  | case3 => simp
  | case4 a b c rest n ih =>
    simp only [List.length_cons, ih]
    omega

theorem mem_encodeChars (h : c ∈ encodeChars b) : ∃ n < 64, digit n = c := by
  fun_induction encodeChars b with
  | case1 => contradiction
  | case2 a n =>
    have ha := a.toNat_lt
    simp only [List.mem_cons, List.not_mem_nil, or_false] at h
    rcases h with rfl | rfl
    · exact ⟨_, by omega, rfl⟩
    · exact ⟨_, Nat.mod_lt n (by omega), rfl⟩
  | case3 a b n =>
    have ha := a.toNat_lt
    have hb := b.toNat_lt
    simp only [List.mem_cons, List.not_mem_nil, or_false] at h
    rcases h with rfl | rfl | rfl
    · exact ⟨_, by omega, rfl⟩
    · exact ⟨_, Nat.mod_lt _ (by omega), rfl⟩
    · exact ⟨_, Nat.mod_lt n (by omega), rfl⟩
  | case4 a b c rest n ih =>
    have ha := a.toNat_lt
    have hb := b.toNat_lt
    have hc := c.toNat_lt
    simp only [List.mem_cons] at h
    rcases h with rfl | rfl | rfl | rfl | h
    · exact ⟨_, by omega, rfl⟩
    · exact ⟨_, Nat.mod_lt _ (by omega), rfl⟩
    · exact ⟨_, Nat.mod_lt _ (by omega), rfl⟩
    · exact ⟨_, Nat.mod_lt n (by omega), rfl⟩
    · exact ih h

end SyncLedger.Base64
