/-
  SyncLedger/Proofs/Dates.lean
  ============================
  **A date is read back from its text.**  Reading is laxer than writing, so each lemma is about
  one reader in front of what the writer puts there: the reader takes exactly that part and
  leaves the rest (`Reads`).  A whole date is the parts in a row.
-/
import SyncLedger.Proofs.Calendar
import Mathlib.Data.String.Basic

namespace SyncLedger

/-! ### Decimal digits -/

namespace Text

theorem toList_padded (width n : Nat) : (padded width n).toList =
    List.replicate (width - (Nat.toDigits 10 n).length) '0' ++ Nat.toDigits 10 n := by
  simp [padded, ← String.length_toList]

theorem isDigit_of_mem_padded {width n : Nat} {c : Char} (h : c ∈ (padded width n).toList) :
    c.isDigit = true := by
  rw [toList_padded, List.mem_append] at h
  rcases h with h | h
  · rw [List.eq_of_mem_replicate h]
    rfl
  · exact Nat.isDigit_of_mem_toDigits (by norm_num) (by norm_num) h

theorem length_padded_le {width n k : Nat} (hk : 0 < k) (hwidth : width ≤ k) (h : n < 10 ^ k) :
    (padded width n).toList.length ≤ k := by
  have hdigits := (Nat.length_toDigits_le_iff (by norm_num) hk).2 h
  rw [toList_padded, List.length_append, List.length_replicate]
  omega

theorem le_length_padded (width n : Nat) : width ≤ (padded width n).toList.length := by
  rw [toList_padded, List.length_append, List.length_replicate]
  omega

theorem length_padded {width n : Nat} (hwidth : 0 < width) (h : n < 10 ^ width) :
    (padded width n).toList.length = width :=
  le_antisymm (length_padded_le hwidth le_rfl h) (le_length_padded width n)

theorem ofDigits_eq (cs : List Char) : ofDigits cs = Nat.ofDigitChars 10 cs 0 := by
  have hstep : (fun n c => n * 10 + digitValue c) = fun n c => 10 * n + (c.toNat - '0'.toNat) := by
    funext n c
    rw [Nat.mul_comm]
    rfl
  rw [ofDigits, hstep, Nat.ofDigitChars]

theorem ofDigits_padded (width n : Nat) : ofDigits (padded width n).toList = n := by
  rw [ofDigits_eq, toList_padded, Nat.ofDigitChars_append, Nat.ofDigitChars_replicate_zero,
    Nat.mul_zero, Nat.ofDigitChars_ten_toDigits]

/-- Digits that a number is padded with on the right multiply it. -/
theorem ofDigits_append_zeros (cs : List Char) (k : Nat) :
    ofDigits (cs ++ List.replicate k '0') = ofDigits cs * 10 ^ k := by
  rw [ofDigits_eq, ofDigits_eq, Nat.ofDigitChars_append, Nat.ofDigitChars_replicate_zero,
    Nat.mul_comm]

theorem utf8ByteSize_le (cs : List Char) : (String.ofList cs).utf8ByteSize ≤ 4 * cs.length := by
  rw [String.utf8ByteSize_ofList]
  induction cs with
  | nil => simp
  | cons c cs ih =>
    have hc := c.utf8Size_le_four
    rw [String.utf8Len_cons, List.length_cons]
    omega

theorem isBlank_of_isDigit {c : Char} (h : c.isDigit = true) : isBlank c = false := by
  simp only [Char.isDigit, Bool.and_eq_true, decide_eq_true_eq, ge_iff_le, UInt32.le_iff_toNat_le]
    at h
  simp only [isBlank, Char.toNat]
  simp at h ⊢
  omega

end Text

namespace Instant

/-! ### Readers in front of what they read -/

/-- In front of `cs` the reader answers with `v` and leaves `rest`. -/
def Reader.Reads {α : Type} (r : Reader α) (cs : List Char) (v : α) (rest : List Char) : Prop :=
  r cs = some (v, rest)

namespace Reader

variable {α β : Type} {r : Reader α} {f : α → Reader β} {v : α} {w : β} {cs rest left : List Char}

theorem Reads.bind (h : r.Reads cs v rest) (hf : (f v).Reads rest w left) :
    (r >>= f).Reads cs w left := by
  change (r cs >>= fun p => f p.1 p.2) = _
  rw [h]
  exact hf

theorem reads_pure (v : α) (cs : List Char) : (pure v : Reader α).Reads cs v cs := rfl

theorem reads_guard {p : Prop} [Decidable p] (h : p) (cs : List Char) :
    (guard p : Reader Unit).Reads cs () cs := by
  rw [guard, if_pos h]
  exact reads_pure () cs

/-- Blanks are skipped only where some stand. -/
theorem reads_skipBlanks {c : Char} (h : Text.isBlank c = false) (cs : List Char) :
    skipBlanks.Reads (c :: cs) () (c :: cs) := by
  change some ((), Text.trimLeft (c :: cs)) = some ((), c :: cs)
  rw [Text.trimLeft, List.dropWhile_cons, h]
  rfl

theorem reads_spacedChar {c : Char} (h : Text.isBlank c = false) (rest : List Char) :
    (spacedChar c).Reads (c :: rest) () rest := by
  refine (reads_skipBlanks h rest).bind ?_
  simp [Reads, char]

/-- A row of digits is taken whole if it is as long as may be or something else follows. -/
theorem reads_digits {most : Nat} {ds : List Char} (hds : ∀ c ∈ ds, c.isDigit = true)
    (hne : ds ≠ []) (hlength : ds.length ≤ most)
    (hend : ds.length = most ∨ ∃ c cs, rest = c :: cs ∧ c.isDigit = false) :
    (digits most).Reads (ds ++ rest) ds rest := by
  have htake : ((ds ++ rest).take most).takeWhile (·.isDigit) = ds := by
    rw [List.take_append, List.take_of_length_le hlength,
      List.takeWhile_append_of_pos (by simpa using hds)]
    rcases hend with hfull | ⟨c, cs, rfl, hc⟩
    · simp [hfull]
    · cases most - ds.length with
      | zero => simp
      | succ k => simp [hc]
  simp only [Reads, digits, htake, if_neg hne, List.drop_left]

/-- A padded number starts with a digit. -/
theorem padded_cons (n : Nat) {width : Nat} (hwidth : 0 < width) :
    ∃ c ds, (Text.padded width n).toList = c :: ds ∧ c.isDigit = true := by
  cases hds : (Text.padded width n).toList with
  | nil =>
    have hlength := Text.le_length_padded width n
    rw [hds, List.length_nil] at hlength
    omega
  | cons c ds =>
    have hmem : c ∈ (Text.padded width n).toList := by
      rw [hds]
      exact List.mem_cons_self
    exact ⟨c, ds, rfl, Text.isDigit_of_mem_padded hmem⟩

theorem reads_digits_padded {most width n : Nat} (hwidth : 0 < width)
    (hlength : (Text.padded width n).toList.length ≤ most)
    (hend : (Text.padded width n).toList.length = most ∨
      ∃ c cs, rest = c :: cs ∧ c.isDigit = false) :
    (digits most).Reads ((Text.padded width n).toList ++ rest) (Text.padded width n).toList
      rest := by
  obtain ⟨c, ds, hds, -⟩ := padded_cons n hwidth
  exact reads_digits (fun c hc => Text.isDigit_of_mem_padded hc) (by simp [hds]) hlength hend

theorem reads_number {most lo hi n : Nat} (hmost : 0 < most) (hn : n < 10 ^ most) (hlo : lo ≤ n)
    (hhi : n ≤ hi) (rest : List Char) :
    (number most lo hi).Reads ((Text.padded most n).toList ++ rest) n rest := by
  obtain ⟨c, ds, hds, hc⟩ := padded_cons n hmost
  have hskip : skipBlanks.Reads ((Text.padded most n).toList ++ rest) ()
      ((Text.padded most n).toList ++ rest) := by
    rw [hds]
    exact reads_skipBlanks (Text.isBlank_of_isDigit hc) _
  have hlength := Text.length_padded hmost hn
  refine hskip.bind ((reads_digits_padded hmost hlength.le (Or.inl hlength)).bind ?_)
  simp only [Text.ofDigits_padded]
  rw [if_pos ⟨hlo, hhi⟩]
  exact reads_pure n rest

/-- A year is written with a sign exactly where it is read with one. -/
theorem reads_year {y : Int} (h : isYearInRange y = true) (cs : List Char) :
    year.Reads ((yearText y).toList ++ '-' :: cs) y ('-' :: cs) := by
  have hrange : -262143 ≤ y ∧ y ≤ 262142 := by simpa [isYearInRange] using h
  have hminus : ∃ c ds, '-' :: cs = c :: ds ∧ c.isDigit = false := ⟨'-', cs, rfl, rfl⟩
  have hcheck : (if isYearInRange y then pure y else failure : Reader Int).Reads ('-' :: cs) y
      ('-' :: cs) := by
    rw [if_pos h]
    exact reads_pure y _
  by_cases hplain : 0 ≤ y ∧ y ≤ 9999
  · obtain ⟨c, ds, hds, hc⟩ := padded_cons y.toNat (show 0 < 4 by norm_num)
    have hread := reads_digits_padded (n := y.toNat) (by norm_num)
      (Text.length_padded_le (k := 4) (by norm_num) le_rfl (by omega)) (Or.inr hminus)
    have hvalue := Text.ofDigits_padded 4 y.toNat
    rw [yearText, if_pos hplain]
    rw [hds, List.cons_append] at *
    refine (reads_skipBlanks (Text.isBlank_of_isDigit hc) _).bind (Reads.bind ?_ hcheck)
    -- a digit is neither of the signs
    simp only [Reads] at hread ⊢
    split
    · simp_all [Char.isDigit]
    · simp_all [Char.isDigit]
    · rw [hread, Option.map_some, hvalue, Int.toNat_of_nonneg hplain.1]
  · have hread : (digits ((Text.padded 4 y.natAbs).toList ++ '-' :: cs).length).Reads
        ((Text.padded 4 y.natAbs).toList ++ '-' :: cs) (Text.padded 4 y.natAbs).toList
        ('-' :: cs) :=
      reads_digits_padded (by norm_num) (by simp) (Or.inr hminus)
    simp only [Reads] at hread
    rw [yearText, if_neg hplain]
    by_cases hneg : y < 0
    · rw [if_pos hneg, String.toList_append, show "-".toList = ['-'] by simp,
        List.singleton_append]
      refine (reads_skipBlanks (c := '-') (by decide) _).bind (Reads.bind ?_ hcheck)
      have hvalue : -(y.natAbs : Int) = y := by omega
      simp only [Reads, List.append_eq, hread, Option.map_some, Text.ofDigits_padded, hvalue]
    · rw [if_neg hneg, String.toList_append, show "+".toList = ['+'] by simp,
        List.singleton_append]
      refine (reads_skipBlanks (c := '+') (by decide) _).bind (Reads.bind ?_ hcheck)
      have hvalue : (y.natAbs : Int) = y := by omega
      simp only [Reads, List.append_eq, hread, Option.map_some, Text.ofDigits_padded, hvalue]

/-- A point and `k` digits denote so many units of the `k`-th place after it. -/
theorem reads_fraction_padded {k n : Nat} (hpos : 0 < k) (hk : k ≤ 9) (hn : n < 10 ^ k)
    (rest : List Char) : fraction.Reads ('.' :: ((Text.padded k n).toList ++ 'Z' :: rest))
      (n * 10 ^ (9 - k)) ('Z' :: rest) := by
  have hlength := Text.length_padded hpos hn
  have hread : (digits 9).Reads ((Text.padded k n).toList ++ 'Z' :: rest) (Text.padded k n).toList
      ('Z' :: rest) :=
    reads_digits_padded hpos (hlength.le.trans hk) (Or.inr ⟨'Z', rest, rfl, rfl⟩)
  simp only [Reads] at hread
  simp only [Reads, fraction, hread, Option.bind_eq_bind, Option.bind_some, hlength,
    Text.ofDigits_append_zeros, Text.ofDigits_padded]
  rfl

theorem reads_fraction {nano : Nat} (h : nano < 1000000000) (rest : List Char) :
    fraction.Reads ((fractionText nano).toList ++ 'Z' :: rest) nano ('Z' :: rest) := by
  have hpoint (s : String) : ("." ++ s).toList = '.' :: s.toList := by simp
  rw [fractionText]
  split_ifs with hzero hmilli hmicro
  · rw [hzero]
    rfl
  · have hread := reads_fraction_padded (k := 3) (n := nano / 1000000) (by norm_num) (by norm_num)
      (by omega) rest
    rw [hpoint, List.cons_append]
    rwa [show nano / 1000000 * 10 ^ (9 - 3) = nano by omega] at hread
  · have hread := reads_fraction_padded (k := 6) (n := nano / 1000) (by norm_num) (by norm_num)
      (by omega) rest
    rw [hpoint, List.cons_append]
    rwa [show nano / 1000 * 10 ^ (9 - 6) = nano by omega] at hread
  · have hread := reads_fraction_padded (k := 9) (n := nano) (by norm_num) (by norm_num)
      (by omega) rest
    rw [hpoint, List.cons_append]
    rwa [show nano * 10 ^ (9 - 9) = nano by omega] at hread

theorem reads_dateEnd (rest : List Char) : dateEnd.Reads ('T' :: rest) () rest := by
  rfl

theorem reads_offset : offset.Reads ['Z'] 0 [] := by
  rfl

end Reader

/-! ### A whole date -/

/-- The dates that are kept: the year is in range, and only the last second of a minute may be
    a leap second. -/
def Representable (t : Instant) : Prop :=
  isYearInRange (dateOfDay (t.second.fdiv 86400)).1 = true ∧
    (t.nano < 1000000000 ∨ t.nano < 2000000000 ∧ t.second % 60 = 59)

/-- The characters of a date, part by part. -/
theorem toList_text (t : Instant) : t.text.toList =
    (yearText (dateOfDay (t.second.fdiv 86400)).1).toList ++ '-' ::
      ((Text.padded 2 (dateOfDay (t.second.fdiv 86400)).2.1).toList ++ '-' ::
      ((Text.padded 2 (dateOfDay (t.second.fdiv 86400)).2.2).toList ++ 'T' ::
      ((Text.padded 2 ((t.second.fmod 86400).toNat / 3600)).toList ++ ':' ::
      ((Text.padded 2 ((t.second.fmod 86400).toNat / 60 % 60)).toList ++ ':' ::
      ((Text.padded 2 ((t.second.fmod 86400).toNat % 60 + t.nano / 1000000000)).toList ++
      ((fractionText (t.nano % 1000000000)).toList ++ ['Z'])))))) := by
  simp [text, String.toList_append]

theorem reads_instant {t : Instant} (h : t.Representable) :
    Reader.instant.Reads t.text.toList t [] := by
  obtain ⟨hyear, hnano⟩ := h
  obtain ⟨hmonth, hmonth'⟩ := month_dateOfDay (t.second.fdiv 86400)
  obtain ⟨hday, hday'⟩ := day_dateOfDay (t.second.fdiv 86400)
  have hnumber := dayNumber_dateOfDay (t.second.fdiv 86400)
  have hmost := daysInMonth_le (dateOfDay (t.second.fdiv 86400)).1
    (dateOfDay (t.second.fdiv 86400)).2.1
  have hfdiv : t.second.fdiv 86400 = t.second / 86400 :=
    Int.fdiv_eq_ediv_of_nonneg _ (by norm_num)
  have hfmod : t.second.fmod 86400 = t.second % 86400 :=
    Int.fmod_eq_emod_of_nonneg _ (by norm_num)
  obtain ⟨k, hk⟩ : ∃ k : Nat, t.second.fmod 86400 = k := ⟨(t.second % 86400).toNat, by omega⟩
  have hleap : (k % 60 + t.nano / 1000000000) / 60 = t.nano / 1000000000 := by omega
  rw [toList_text, hk, Int.toNat_natCast]
  -- the parts in the order of the text, each read off in front of the rest
  refine (Reader.reads_year hyear _).bind ?_
  refine (Reader.reads_spacedChar (by decide) _).bind ?_
  refine (Reader.reads_number (by norm_num) (by omega) hmonth hmonth' _).bind ?_
  refine (Reader.reads_spacedChar (by decide) _).bind ?_
  refine (Reader.reads_number (by norm_num) (by omega) hday (by omega) _).bind ?_
  refine (Reader.reads_guard hday' _).bind ?_
  refine (Reader.reads_dateEnd _).bind ?_
  refine (Reader.reads_number (by norm_num) (by omega) (by omega) (by omega) _).bind ?_
  refine (Reader.reads_spacedChar (by decide) _).bind ?_
  refine (Reader.reads_number (by norm_num) (by omega) (by omega) (by omega) _).bind ?_
  refine (Reader.reads_spacedChar (by decide) _).bind ?_
  refine (Reader.reads_number (by norm_num) (by omega) (by omega) (by omega) _).bind ?_
  refine (Reader.reads_fraction (Nat.mod_lt _ (by norm_num)) _).bind ?_
  refine (Reader.reads_skipBlanks (by decide) _).bind ?_
  refine Reader.reads_offset.bind ?_
  refine Reader.Reads.bind (show Reader.skipBlanks.Reads [] () [] from rfl) ?_
  simp only [hleap, hnumber]
  have hsecond : t.second.fdiv 86400 * 86400 + (k / 3600 : Nat) * 3600 + (k / 60 % 60 : Nat) * 60
      + ((k % 60 + t.nano / 1000000000 : Nat) - (t.nano / 1000000000 : Nat)) - 0 = t.second := by
    omega
  rw [hsecond]
  refine (Reader.reads_guard hyear _).bind ?_
  have hnanos : t.nano / 1000000000 * 1000000000 + t.nano % 1000000000 = t.nano := by omega
  rw [hnanos]
  exact Reader.reads_pure t []

theorem parse?_text {t : Instant} (h : t.Representable) : parse? t.text = some t := by
  have hread := reads_instant h
  simp only [Reader.Reads] at hread
  simp only [parse?, StateT.run, hread]

theorem length_yearText_le {y : Int} (h : isYearInRange y = true) :
    (yearText y).toList.length ≤ 7 := by
  have hrange : -262143 ≤ y ∧ y ≤ 262142 := by simpa [isYearInRange] using h
  have hdigits : (Text.padded 4 y.natAbs).toList.length ≤ 6 :=
    Text.length_padded_le (by norm_num) (by norm_num) (by omega)
  rw [yearText]
  split_ifs with hplain hneg
  · exact Text.length_padded_le (by norm_num) (by norm_num) (by omega)
  · simp at hdigits ⊢
    omega
  · simp at hdigits ⊢
    omega

theorem length_fractionText_le {nano : Nat} (h : nano < 1000000000) :
    (fractionText nano).toList.length ≤ 10 := by
  have hplaces {k n : Nat} (hk : k ≤ 9) (hn : n < 10 ^ 9) :
      ("." ++ Text.padded k n).toList.length ≤ 10 := by
    have hdigits := Text.length_padded_le (by norm_num) hk hn
    simp at hdigits ⊢
    omega
  rw [fractionText]
  split_ifs
  · simp
  · exact hplaces (by norm_num) (by omega)
  · exact hplaces (by norm_num) (by omega)
  · exact hplaces (by norm_num) (by omega)

theorem utf8ByteSize_text_lt {t : Instant} (h : t.Representable) :
    t.text.utf8ByteSize < 2 ^ 32 := by
  have hpart {n : Nat} (hn : n < 10 ^ 2) : (Text.padded 2 n).toList.length ≤ 2 :=
    Text.length_padded_le (by norm_num) le_rfl hn
  have hmost := daysInMonth_le (dateOfDay (t.second.fdiv 86400)).1
    (dateOfDay (t.second.fdiv 86400)).2.1
  have hfmod : t.second.fmod 86400 = t.second % 86400 :=
    Int.fmod_eq_emod_of_nonneg _ (by norm_num)
  have hyear := length_yearText_le h.1
  have hmonth := month_dateOfDay (t.second.fdiv 86400)
  have hday := day_dateOfDay (t.second.fdiv 86400)
  have hnano := h.2
  have hfraction := length_fractionText_le (Nat.mod_lt t.nano (by norm_num : 0 < 1000000000))
  have hlength : t.text.toList.length ≤ 33 := by
    have hmonths := hpart (n := (dateOfDay (t.second.fdiv 86400)).2.1) (by omega)
    have hdays := hpart (n := (dateOfDay (t.second.fdiv 86400)).2.2) (by omega)
    have hhours := hpart (n := (t.second.fmod 86400).toNat / 3600) (by omega)
    have hminutes := hpart (n := (t.second.fmod 86400).toNat / 60 % 60) (by omega)
    have hseconds := hpart
      (n := (t.second.fmod 86400).toNat % 60 + t.nano / 1000000000) (by omega)
    simp only [toList_text, List.length_append, List.length_cons, List.length_nil]
    omega
  have hsize := Text.utf8ByteSize_le t.text.toList
  rw [String.ofList_toList] at hsize
  omega

end Instant

end SyncLedger
