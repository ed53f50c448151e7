/-
  SyncLedger/Proofs/Calendar.lean
  ===============================
  **Every day has one date and the date names the day.**  `dateOfDay` divides a cycle of 400
  years by the average length of a year and corrects for the leap days; `dayNumber` adds the
  lengths up again.  The correction is a nondecreasing function of the day (`evened`), so where
  it puts a year's first and last day decides it for all the days between.
-/
import SyncLedger.Instant
import Mathlib.Tactic

namespace SyncLedger.Instant

/-! ### A cycle of 400 years -/

/-- The days of a cycle of 400 years before its year `y`, which runs from March to February. -/
def yearStart (y : Nat) : Nat := 365 * y + y / 4 - y / 100

/-- The day `n` of a cycle with the leap days before it taken out. -/
def evened (n : Nat) : Nat := n - n / 1460 + n / 36524 - n / 146096

theorem evened_mono {m n : Nat} (h : m ≤ n) : evened m ≤ evened n := by
  have hfour : m - m / 1460 ≤ n - n / 1460 := by omega
  have hcentury : m / 36524 - m / 146096 ≤ n / 36524 - n / 146096 := by omega
  simp only [evened]
  omega

theorem le_evened_yearStart : ∀ y < 400, 365 * y ≤ evened (yearStart y) := by
  decide +kernel

theorem evened_yearEnd_lt :
    ∀ y < 400, evened (yearStart (y + 1) + (y + 1) / 400 - 1) < 365 * (y + 1) := by
  decide +kernel

/-- The year of a day is the one whose first and last day are around it. -/
theorem year_bounds {n y : Nat} (hn : n < 146097) (hy : evened n / 365 = y) :
    y < 400 ∧ yearStart y ≤ n ∧ n < yearStart (y + 1) + (y + 1) / 400 := by
  have hlast : evened n ≤ evened 146096 := evened_mono (by omega)
  have hcycle : evened 146096 = 145999 := by decide
  have hlt : y < 400 := by omega
  refine ⟨hlt, ?_, ?_⟩
  -- a day before its year would be evened below the end of the year before
  · by_contra hbefore
    obtain ⟨k, rfl⟩ : ∃ k, y = k + 1 := by
      refine ⟨y - 1, ?_⟩
      have hzero : yearStart 0 = 0 := rfl
      rcases Nat.eq_zero_or_pos y with h | h
      · rw [h, hzero] at hbefore
        omega
      · omega
    have hmono : evened n ≤ evened (yearStart (k + 1) + (k + 1) / 400 - 1) :=
      evened_mono (by omega)
    have hend := evened_yearEnd_lt k (by omega)
    omega
  · by_contra hafter
    have hcycleEnd : yearStart (399 + 1) = 146096 := by decide
    have hnext : y + 1 < 400 := by
      rcases Nat.lt_or_ge (y + 1) 400 with h | h
      · exact h
      · obtain rfl : y = 399 := by omega
        omega
    have hmono : evened (yearStart (y + 1)) ≤ evened n := evened_mono (by omega)
    have hstart := le_evened_yearStart (y + 1) hnext
    omega

theorem leap_of_last : ∀ y < 400, yearStart y + 365 < yearStart (y + 1) + (y + 1) / 400 →
    (y + 1) % 4 = 0 ∧ ((y + 1) % 100 ≠ 0 ∨ (y + 1) % 400 = 0) := by
  decide +kernel

/-! ### A year from March to February -/

/-- The place of a month in a year, for a day of that year. -/
def monthOfYear (doy : Nat) : Nat := (5 * doy + 2) / 153

/-- The days of a year before its month `k`. -/
def monthStart (k : Nat) : Nat := (153 * k + 2) / 5

/-- The number of the month at place `k` of a year. -/
def monthNumber (k : Nat) : Nat := if k < 10 then k + 3 else k - 9

/-- The date of a day of a year. -/
def dateInYear (year : Int) (doy : Nat) : Int × Nat × Nat :=
  (if monthNumber (monthOfYear doy) ≤ 2 then year + 1 else year, monthNumber (monthOfYear doy),
    doy - monthStart (monthOfYear doy) + 1)

theorem month_bounds : ∀ doy < 366, monthOfYear doy < 12 ∧ monthStart (monthOfYear doy) ≤ doy ∧
    doy < monthStart (monthOfYear doy) + 31 := by
  decide +kernel

theorem short_month : ∀ doy < 366, monthOfYear doy ∈ [1, 3, 6, 8] →
    doy < monthStart (monthOfYear doy) + 30 := by
  decide +kernel

theorem february : ∀ doy < 366, monthOfYear doy = 11 →
    doy < monthStart (monthOfYear doy) + 28 ∨ doy = 365 := by
  decide +kernel

theorem month_dateInYear (year : Int) {doy : Nat} (h : doy < 366) :
    1 ≤ (dateInYear year doy).2.1 ∧ (dateInYear year doy).2.1 ≤ 12 := by
  have hmonth := (month_bounds doy h).1
  simp only [dateInYear, monthNumber]
  split <;> omega

theorem daysInMonth_le (year : Int) (month : Nat) : daysInMonth year month ≤ 31 := by
  simp only [daysInMonth]
  split_ifs <;> norm_num

theorem day_dateInYear {year : Int} {doy : Nat} (h : doy < 366)
    (hleap : doy = 365 → isLeapYear (year + 1) = true) :
    1 ≤ (dateInYear year doy).2.2 ∧
      (dateInYear year doy).2.2
        ≤ daysInMonth (dateInYear year doy).1 (dateInYear year doy).2.1 := by
  obtain ⟨hmonth, hstart, hend⟩ := month_bounds doy h
  have hshort := short_month doy h
  have hfebruary := february doy h
  refine ⟨by simp [dateInYear], ?_⟩
  have hfirst : monthStart 11 = 337 := by decide
  simp only [dateInYear, monthNumber]
  generalize hk : monthOfYear doy = k at *
  interval_cases k <;> simp [daysInMonth] at hshort hfebruary ⊢ <;> try omega
  split
  · omega
  · rcases hfebruary with hday | hday
    · omega
    · exact absurd (hleap hday) (by assumption)

theorem dayNumber_dateInYear (era : Int) {y doy : Nat} (hy : y < 400) (h : doy < 366) :
    dayNumber (dateInYear (y + era * 400) doy).1 (dateInYear (y + era * 400) doy).2.1
      (dateInYear (y + era * 400) doy).2.2 = era * 146097 + (yearStart y + doy : Nat) - 719468 := by
  obtain ⟨hmonth, hstart, hend⟩ := month_bounds doy h
  have hyear : (if (dateInYear (y + era * 400) doy).2.1 ≤ 2 then
      (dateInYear (y + era * 400) doy).1 - 1 else (dateInYear (y + era * 400) doy).1)
      = y + era * 400 := by
    simp only [dateInYear]
    split_ifs <;> omega
  have hplace : ((dateInYear (y + era * 400) doy).2.1 + 9) % 12 = monthOfYear doy := by
    simp only [dateInYear, monthNumber]
    split <;> omega
  have hera : (y + era * 400 : Int).fdiv 400 = era := by
    rw [Int.fdiv_eq_ediv_of_nonneg _ (by norm_num)]
    omega
  have hday : (153 * monthOfYear doy + 2) / 5 + (dateInYear (y + era * 400) doy).2.2 = doy + 1 := by
    simp only [dateInYear, monthStart] at hstart ⊢
    omega
  simp only [dayNumber, hyear, hplace, hera, hday, yearStart]
  omega

/-! ### Any day -/

theorem dateOfDay_eq (day : Int) : ∃ (era : Int) (y doy : Nat), y < 400 ∧ doy < 366 ∧
    (doy = 365 → isLeapYear (y + era * 400 + 1) = true) ∧
    day = era * 146097 + (yearStart y + doy : Nat) - 719468 ∧
    dateOfDay day = dateInYear (y + era * 400) doy := by
  have hera : (day + 719468).fdiv 146097 = (day + 719468) / 146097 :=
    Int.fdiv_eq_ediv_of_nonneg _ (by norm_num)
  obtain ⟨n, hn⟩ : ∃ n : Nat, day + 719468 - (day + 719468).fdiv 146097 * 146097 = n :=
    ⟨(day + 719468 - (day + 719468).fdiv 146097 * 146097).toNat, by omega⟩
  obtain ⟨hy, hstart, hend⟩ := year_bounds (n := n) (by omega) rfl
  have hlast := leap_of_last (evened n / 365) hy
  have hlength : yearStart (evened n / 365 + 1) + (evened n / 365 + 1) / 400
      ≤ yearStart (evened n / 365) + 366 := by
    simp only [yearStart]
    omega
  refine ⟨(day + 719468).fdiv 146097, evened n / 365, n - yearStart (evened n / 365), hy,
    by omega, ?_, by omega, ?_⟩
  · intro hdoy
    have hleap := hlast (by omega)
    simp only [isLeapYear, Bool.and_eq_true, Bool.or_eq_true, beq_iff_eq, bne_iff_ne]
    omega
  · simp only [dateOfDay, hn, Int.toNat_natCast]
    rfl

theorem dayNumber_dateOfDay (day : Int) :
    dayNumber (dateOfDay day).1 (dateOfDay day).2.1 (dateOfDay day).2.2 = day := by
  obtain ⟨era, y, doy, hy, hdoy, -, hday, hdate⟩ := dateOfDay_eq day
  rw [hdate, dayNumber_dateInYear era hy hdoy, ← hday]

theorem month_dateOfDay (day : Int) : 1 ≤ (dateOfDay day).2.1 ∧ (dateOfDay day).2.1 ≤ 12 := by
  obtain ⟨era, y, doy, -, hdoy, -, -, hdate⟩ := dateOfDay_eq day
  rw [hdate]
  exact month_dateInYear _ hdoy

theorem day_dateOfDay (day : Int) : 1 ≤ (dateOfDay day).2.2 ∧
    (dateOfDay day).2.2 ≤ daysInMonth (dateOfDay day).1 (dateOfDay day).2.1 := by
  obtain ⟨era, y, doy, -, hdoy, hleap, -, hdate⟩ := dateOfDay_eq day
  rw [hdate]
  exact day_dateInYear hdoy hleap

end SyncLedger.Instant
