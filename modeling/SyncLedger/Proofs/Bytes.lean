/-
  SyncLedger/Proofs/Bytes.lean
  ============================
  **Texts and numbers as bytes.**  A text is read back from its UTF-8 form, and from no other
  byte string.  A number of fixed width is read back from either byte order, and the big-endian
  form has the order of the numbers: of two byte strings of one length, the smaller one denotes
  the smaller number (`lt_iff_ofBigEndian_lt`).
-/
import SyncLedger.Bytes
import Mathlib.Tactic

namespace SyncLedger.Bytes

/-! ### Text -/

@[simp] theorem text?_ofText (s : String) : text? (ofText s) = some s := by
  unfold text? ofText String.fromUTF8?
  simp [s.isValidUTF8, String.fromUTF8]

theorem ofText_of_text? {b : Bytes} {s : String} (h : text? b = some s) : ofText s = b := by
  unfold text? String.fromUTF8? at h
  split at h
  · obtain rfl := Option.some.inj h
    rfl
  · contradiction

theorem ofText_injective : Function.Injective ofText := by
  intro s t h
  have hread : text? (ofText s) = text? (ofText t) := congrArg text? h
  simpa using hread

@[simp] theorem ofText_inj {s t : String} : ofText s = ofText t ↔ s = t :=
  ofText_injective.eq_iff

@[simp] theorem length_ofText (s : String) : (ofText s).length = s.utf8ByteSize := by
  simp only [ofText, String.toUTF8_eq_toByteArray, Array.length_toList]
  exact String.size_toByteArray

/-! ### Most significant byte first -/

theorem foldl_bigEndian (b : Bytes) (n : Nat) :
    b.foldl (fun n x => n * 256 + x.toNat) n = n * 256 ^ b.length + ofBigEndian b := by
  induction b generalizing n with
  | nil => simp [ofBigEndian]
  | cons x b ih =>
    have hhead := ih (n * 256 + x.toNat)
    have hzero := ih (0 * 256 + x.toNat)
    simp only [ofBigEndian, List.foldl_cons, List.length_cons, pow_succ] at hhead hzero ⊢
    rw [hhead, hzero]
    ring

theorem ofBigEndian_cons (x : UInt8) (b : Bytes) :
    ofBigEndian (x :: b) = x.toNat * 256 ^ b.length + ofBigEndian b := by
  simpa [ofBigEndian] using foldl_bigEndian b x.toNat

theorem ofBigEndian_lt (b : Bytes) : ofBigEndian b < 256 ^ b.length := by
  induction b with
  | nil => simp [ofBigEndian]
  | cons x b ih =>
    have hx : x.toNat + 1 ≤ 256 := x.toNat_lt
    have hstep := Nat.mul_le_mul_right (256 ^ b.length) hx
    rw [ofBigEndian_cons, List.length_cons, pow_succ]
    linarith

/-- The number that the lowest `n` bytes denote. -/
theorem ofBigEndian_bigEndian (n v : Nat) : ofBigEndian (bigEndian n v) = v % 256 ^ n := by
  induction n with
  | zero => simp [bigEndian, ofBigEndian, Nat.mod_one]
  | succ n ih =>
    have hshift : (2 : Nat) ^ (8 * n) = 256 ^ n := by rw [pow_mul]; norm_num
    rw [bigEndian, ofBigEndian_cons, ih, length_bigEndian, Nat.mod_pow_succ,
      Nat.shiftRight_eq_div_pow, hshift, UInt8.toNat_ofNat']
    ring

/-- Byte strings of one length have the order of the numbers that they denote. -/
theorem lt_iff_ofBigEndian_lt {a b : Bytes} (h : a.length = b.length) :
    a < b ↔ ofBigEndian a < ofBigEndian b := by
  induction a generalizing b with
  | nil =>
    obtain rfl := List.length_eq_zero_iff.1 h.symm
    simp
  | cons x a ih =>
    cases b with
    | nil => simp at h
    | cons y b =>
      have hlen : a.length = b.length := by simpa using h
      have ha := ofBigEndian_lt a
      have hb := ofBigEndian_lt b
      rw [hlen] at ha
      rw [List.cons_lt_cons_iff, ih hlen, ofBigEndian_cons, ofBigEndian_cons, hlen,
        UInt8.lt_iff_toNat_lt]
      constructor
      · rintro (hxy | ⟨rfl, hlt⟩)
        · have hstep := Nat.mul_le_mul_right (256 ^ b.length) (Nat.succ_le_of_lt hxy)
          simp only [Nat.succ_eq_add_one, add_mul, one_mul] at hstep
          omega
        · omega
      · intro hlt
        rcases Nat.lt_trichotomy x.toNat y.toNat with hxy | hxy | hyx
        · exact Or.inl hxy
        · rw [hxy] at hlt
          exact Or.inr ⟨UInt8.toNat_inj.1 hxy, by omega⟩
        · have hstep := Nat.mul_le_mul_right (256 ^ b.length) (Nat.succ_le_of_lt hyx)
          simp only [Nat.succ_eq_add_one, add_mul, one_mul] at hstep
          omega

theorem bigEndian_inj {n v w : Nat} (hv : v < 256 ^ n) (hw : w < 256 ^ n) :
    bigEndian n v = bigEndian n w ↔ v = w := by
  constructor
  · intro h
    have hread := congrArg ofBigEndian h
    rwa [ofBigEndian_bigEndian, ofBigEndian_bigEndian, Nat.mod_eq_of_lt hv,
      Nat.mod_eq_of_lt hw] at hread
  · rintro rfl
    rfl

theorem bigEndian_lt_iff {n v w : Nat} (hv : v < 256 ^ n) (hw : w < 256 ^ n) :
    bigEndian n v < bigEndian n w ↔ v < w := by
  rw [lt_iff_ofBigEndian_lt (by simp), ofBigEndian_bigEndian, ofBigEndian_bigEndian,
    Nat.mod_eq_of_lt hv, Nat.mod_eq_of_lt hw]

/-! ### Least significant byte first -/

/-- The number that the lowest `n` bytes denote. -/
theorem ofLittleEndian_littleEndian (n v : Nat) :
    ofLittleEndian (littleEndian n v) = v % 256 ^ n := by
  induction n generalizing v with
  | zero => simp [littleEndian, ofLittleEndian, Nat.mod_one]
  | succ n ih =>
    have htail : (littleEndian n (v / 256)).foldr (fun x n => x.toNat + 256 * n) 0
        = v / 256 % 256 ^ n := ih (v / 256)
    have hsplit : v % 256 ^ (n + 1) = v % 256 + 256 * (v / 256 % 256 ^ n) := by
      rw [pow_succ', Nat.mod_mul]
    rw [littleEndian, ofLittleEndian, List.foldr_cons, htail, UInt8.toNat_ofNat', hsplit]

theorem ofLittleEndian_lt (b : Bytes) : ofLittleEndian b < 256 ^ b.length := by
  induction b with
  | nil => simp [ofLittleEndian]
  | cons x b ih =>
    have hx : x.toNat + 1 ≤ 256 := x.toNat_lt
    rw [ofLittleEndian] at ih
    rw [ofLittleEndian, List.foldr_cons, List.length_cons, pow_succ']
    omega

end SyncLedger.Bytes
