import Mathlib.Tactic.Common
import Mathlib.Tactic.IntervalCases

/-!
# The Gregorian calendar

Days are counted from 1970-01-01. The year of the arithmetic starts on 1 March, so that the leap
day is the last of a year; 400 years are 146097 days, and within them a century, four years and a
year are 36524, 1461 and 365 days, with one day more at the end where a leap day falls.

* **`civilFromDays`**, **`daysFromCivil`** — the two conversions.
* **`daysFromCivil_civilFromDays`**, **`civilFromDays_daysFromCivil`** — they are inverse to each
  other on valid dates.
* **`civilFromDays_valid`** — every day has a valid date.
* **`daysFromCivil_lt_iff`** — days count valid dates in order.
-/

namespace Calendar

/-- A date. -/
structure Civil where
  year : Int
  month : Int
  day : Int
  deriving DecidableEq

def isLeap (year : Int) : Bool := year % 4 == 0 && (year % 100 != 0 || year % 400 == 0)

def daysInMonth (year month : Int) : Int :=
  if month = 2 then if isLeap year then 29 else 28
  else if month = 4 ∨ month = 6 ∨ month = 9 ∨ month = 11 then 30
  else 31

def Civil.Valid (c : Civil) : Prop :=
  1 ≤ c.month ∧ c.month ≤ 12 ∧ 1 ≤ c.day ∧ c.day ≤ daysInMonth c.year c.month

instance (c : Civil) : Decidable c.Valid := by unfold Civil.Valid; infer_instance

/-- The days from 1 March of the year 0 to 1 March of the year `y`. -/
def yearStart (y : Int) : Int := 365 * y + y / 4 - y / 100 + y / 400

/-- The days from 1 March to the first day of the month `mp`, March being 0. -/
def monthStart (mp : Int) : Int := (153 * mp + 2) / 5

/-- The days from 1970-01-01 to a date. -/
def daysFromCivil (c : Civil) : Int :=
  if c.month ≤ 2 then yearStart (c.year - 1) + monthStart (c.month + 9) + c.day - 1 - 719468
  else yearStart c.year + monthStart (c.month - 3) + c.day - 1 - 719468

/-- The year that starts in March and the day in it, for the days since 1 March of the year 0. -/
def yearDay (z : Int) : Int × Int :=
  let doe := z % 146097
  let c := min (doe / 36524) 3
  let q := (doe - 36524 * c) / 1461
  let y := min ((doe - 36524 * c - 1461 * q) / 365) 3
  (400 * (z / 146097) + 100 * c + 4 * q + y, doe - 36524 * c - 1461 * q - 365 * y)

/-- The month, March being 0, of a day of the year that starts in March. -/
def monthOf (doy : Int) : Int := (5 * doy + 2) / 153

/-- The date `days` days after 1970-01-01. -/
def civilFromDays (days : Int) : Civil :=
  let (y, doy) := yearDay (days + 719468)
  let mp := monthOf doy
  if mp < 10 then ⟨y, mp + 3, doy - monthStart mp + 1⟩
  else ⟨y + 1, mp - 9, doy - monthStart mp + 1⟩

/-! ## Years -/

theorem yearStart_split {e c q y : Int} (hc : 0 ≤ c ∧ c ≤ 3) (hq : 0 ≤ q ∧ q ≤ 24)
    (hy : 0 ≤ y ∧ y ≤ 3) :
    yearStart (400 * e + 100 * c + 4 * q + y) = 146097 * e + 36524 * c + 1461 * q + 365 * y := by
  have h₁ : (400 * e + 100 * c + 4 * q + y) / 4 = 100 * e + 25 * c + q := by omega
  have h₂ : (400 * e + 100 * c + 4 * q + y) / 100 = 4 * e + c := by omega
  have h₃ : (400 * e + 100 * c + 4 * q + y) / 400 = e := by omega
  rw [yearStart, h₁, h₂, h₃]
  omega

/-- The day 366 of a year that starts in March is a leap day of the next one. -/
theorem isLeap_split {e c q y : Int} (hc : 0 ≤ c ∧ c ≤ 3) (hq : 0 ≤ q ∧ q ≤ 24)
    (hy : 0 ≤ y ∧ y ≤ 3) :
    isLeap (400 * e + 100 * c + 4 * q + y + 1) = decide (y = 3 ∧ (q < 24 ∨ c = 3)) := by
  have h₁ : (400 * e + 100 * c + 4 * q + y + 1) % 4 = 0 ↔ y = 3 := by omega
  have h₂ : (400 * e + 100 * c + 4 * q + y + 1) % 100 = 0 ↔ q = 24 ∧ y = 3 := by omega
  have h₃ : (400 * e + 100 * c + 4 * q + y + 1) % 400 = 0 ↔ c = 3 ∧ q = 24 ∧ y = 3 := by omega
  rw [isLeap, Bool.eq_iff_iff]
  simp only [Bool.and_eq_true, Bool.or_eq_true, beq_iff_eq, bne_iff_ne, ne_eq, h₁, h₂, h₃,
    decide_eq_true_eq]
  omega

/-- The days of a year that starts in March are 0 to 364, or to 365 before a leap year. -/
structure InYear (y doy : Int) : Prop where
  nonneg : 0 ≤ doy
  le : doy ≤ 365
  leap : doy = 365 → isLeap (y + 1) = true

theorem yearDay_spec (z : Int) :
    yearStart (yearDay z).1 + (yearDay z).2 = z ∧ InYear (yearDay z).1 (yearDay z).2 := by
  obtain ⟨e, he⟩ : ∃ e, e = z / 146097 := ⟨_, rfl⟩
  obtain ⟨doe, hdoe⟩ : ∃ doe, doe = z % 146097 := ⟨_, rfl⟩
  obtain ⟨c, hc⟩ : ∃ c, c = min (doe / 36524) 3 := ⟨_, rfl⟩
  obtain ⟨q, hq⟩ : ∃ q, q = (doe - 36524 * c) / 1461 := ⟨_, rfl⟩
  obtain ⟨y, hy⟩ : ∃ y, y = min ((doe - 36524 * c - 1461 * q) / 365) 3 := ⟨_, rfl⟩
  have hyd : yearDay z =
      (400 * e + 100 * c + 4 * q + y, doe - 36524 * c - 1461 * q - 365 * y) := by
    simp only [yearDay, ← he, ← hdoe, ← hc, ← hq, ← hy]
  have hz : z = 146097 * e + doe ∧ 0 ≤ doe ∧ doe < 146097 := by omega
  have hcb : 0 ≤ c ∧ c ≤ 3 ∧ 36524 * c ≤ doe ∧ (doe < 36524 * c + 36524 ∨ c = 3) := by omega
  have hqb : 0 ≤ q ∧ q ≤ 24 ∧ 1461 * q ≤ doe - 36524 * c ∧ doe - 36524 * c < 1461 * q + 1461 := by
    omega
  have hyb : 0 ≤ y ∧ y ≤ 3 ∧ 365 * y ≤ doe - 36524 * c - 1461 * q ∧
      (doe - 36524 * c - 1461 * q < 365 * y + 365 ∨ y = 3) := by omega
  rw [hyd, yearStart_split ⟨hcb.1, hcb.2.1⟩ ⟨hqb.1, hqb.2.1⟩ ⟨hyb.1, hyb.2.1⟩]
  refine ⟨by omega, by omega, by omega, fun h => ?_⟩
  have hl := isLeap_split (e := e) ⟨hcb.1, hcb.2.1⟩ ⟨hqb.1, hqb.2.1⟩ ⟨hyb.1, hyb.2.1⟩
  simp only at h
  rw [hl, decide_eq_true_eq]
  omega

/-- The year and the day in it are determined by the day count. -/
theorem yearDay_of_inYear {y doy : Int} (h : InYear y doy) :
    yearDay (yearStart y + doy) = (y, doy) := by
  obtain ⟨e, he⟩ : ∃ e, e = y / 400 := ⟨_, rfl⟩
  obtain ⟨c, hc⟩ : ∃ c, c = y % 400 / 100 := ⟨_, rfl⟩
  obtain ⟨q, hq⟩ : ∃ q, q = y % 100 / 4 := ⟨_, rfl⟩
  obtain ⟨r, hr⟩ : ∃ r, r = y % 4 := ⟨_, rfl⟩
  have hcb : 0 ≤ c ∧ c ≤ 3 := by omega
  have hqb : 0 ≤ q ∧ q ≤ 24 := by omega
  have hrb : 0 ≤ r ∧ r ≤ 3 := by omega
  have hy : y = 400 * e + 100 * c + 4 * q + r := by omega
  have hleap : doy = 365 → r = 3 ∧ (q < 24 ∨ c = 3) := by
    intro hd
    have := h.leap hd
    rw [hy, isLeap_split hcb hqb hrb, decide_eq_true_eq] at this
    exact this
  have h₀ := h.nonneg
  have h₁ := h.le
  rw [hy, yearStart_split hcb hqb hrb]
  have hz₁ : (146097 * e + 36524 * c + 1461 * q + 365 * r + doy) / 146097 = e := by omega
  have hz₂ : (146097 * e + 36524 * c + 1461 * q + 365 * r + doy) % 146097 =
      36524 * c + 1461 * q + 365 * r + doy := by omega
  have hc' : min ((36524 * c + 1461 * q + 365 * r + doy) / 36524) 3 = c := by omega
  have hq' : (36524 * c + 1461 * q + 365 * r + doy - 36524 * c) / 1461 = q := by omega
  have hr' : min ((36524 * c + 1461 * q + 365 * r + doy - 36524 * c - 1461 * q) / 365) 3 = r := by
    omega
  simp only [yearDay, hz₁, hz₂, hc', hq', hr', Prod.mk.injEq, true_and]
  omega

/-! ## Months -/

theorem monthOf_bounds {doy : Int} (h₀ : 0 ≤ doy) (h₁ : doy ≤ 365) :
    0 ≤ monthOf doy ∧ monthOf doy ≤ 11 := by
  unfold monthOf; omega

/-- The first day of a month and that of the next enclose the days of the month. -/
theorem monthStart_monthOf {doy : Int} (h₀ : 0 ≤ doy) (h₁ : doy ≤ 365) :
    monthStart (monthOf doy) ≤ doy ∧ doy < monthStart (monthOf doy + 1) := by
  obtain ⟨mp, hmp⟩ : ∃ mp, mp = monthOf doy := ⟨_, rfl⟩
  have hb := monthOf_bounds h₀ h₁
  rw [← hmp] at hb ⊢
  unfold monthOf at hmp
  unfold monthStart
  omega

theorem monthOf_eq {mp doy : Int} (h₀ : monthStart mp ≤ doy)
    (h₁ : doy < monthStart (mp + 1)) : monthOf doy = mp := by
  unfold monthStart at h₀ h₁
  unfold monthOf
  omega

/-! ## The conversions -/

/-- **Every day has a valid date.** -/
theorem civilFromDays_valid (days : Int) : (civilFromDays days).Valid := by
  obtain ⟨-, hin⟩ := yearDay_spec (days + 719468)
  obtain ⟨y, doy, hyd⟩ : ∃ y doy, yearDay (days + 719468) = (y, doy) := ⟨_, _, rfl⟩
  rw [hyd] at hin
  have hb := monthOf_bounds hin.nonneg hin.le
  obtain ⟨mp, hmp⟩ : ∃ mp, mp = monthOf doy := ⟨_, rfl⟩
  have hm := monthStart_monthOf hin.nonneg hin.le
  have hle := hin.le
  have hleap := hin.leap
  simp only [civilFromDays, hyd, ← hmp] at hb hm hleap ⊢
  obtain ⟨h₀, h₁⟩ := hb
  unfold monthStart at hm ⊢
  unfold Civil.Valid daysInMonth
  interval_cases mp <;> simp at hm ⊢ <;> (try split) <;> simp_all <;> omega

theorem daysFromCivil_civilFromDays (days : Int) : daysFromCivil (civilFromDays days) = days := by
  obtain ⟨hz, hin⟩ := yearDay_spec (days + 719468)
  obtain ⟨y, doy, hyd⟩ : ∃ y doy, yearDay (days + 719468) = (y, doy) := ⟨_, _, rfl⟩
  rw [hyd] at hin hz
  have hz : yearStart y + doy = days + 719468 := hz
  have hb : 0 ≤ monthOf doy ∧ monthOf doy ≤ 11 := monthOf_bounds hin.nonneg hin.le
  simp only [civilFromDays, hyd, daysFromCivil]
  split
  · rw [if_neg (by simp; omega)]
    simp only [Int.add_sub_cancel]
    omega
  · rw [if_pos (by simp; omega)]
    simp only [Int.add_sub_cancel, Int.sub_add_cancel]
    omega

/-- A valid date in the arithmetic of years that start in March. -/
theorem civilFromDays_of_inYear {y mp day : Int}
    (hin : InYear y (monthStart mp + day - 1)) (h₁ : 1 ≤ day)
    (h₂ : monthStart mp + day - 1 < monthStart (mp + 1)) :
    civilFromDays (yearStart y + monthStart mp + day - 1 - 719468) =
      if mp < 10 then ⟨y, mp + 3, day⟩ else ⟨y + 1, mp - 9, day⟩ := by
  have hz : yearStart y + monthStart mp + day - 1 - 719468 + 719468 =
      yearStart y + (monthStart mp + day - 1) := by omega
  rw [civilFromDays, hz, yearDay_of_inYear hin]
  simp only [monthOf_eq (by omega) h₂]
  have : monthStart mp + day - 1 - monthStart mp + 1 = day := by omega
  rw [this]

theorem civilFromDays_daysFromCivil {c : Civil} (h : c.Valid) :
    civilFromDays (daysFromCivil c) = c := by
  obtain ⟨year, month, day⟩ := c
  obtain ⟨hm₁, hm₂, hd₁, hd₂⟩ := h
  simp only [daysInMonth] at hm₁ hm₂ hd₁ hd₂
  simp only [daysFromCivil]
  split
  · rename_i hle
    have hin : InYear (year - 1) (monthStart (month + 9) + day - 1) ∧
        monthStart (month + 9) + day - 1 < monthStart (month + 9 + 1) := by
      rw [monthStart, monthStart]
      obtain rfl | rfl : month = 1 ∨ month = 2 := by omega
      · simp at hd₂
        exact ⟨⟨by omega, by omega, by omega⟩, by omega⟩
      · simp at hd₂
        refine ⟨⟨by omega, by split at hd₂ <;> omega, fun hd => ?_⟩, by split at hd₂ <;> omega⟩
        rw [Int.sub_add_cancel]
        by_contra hl
        simp [hl] at hd₂
        omega
    rw [civilFromDays_of_inYear hin.1 hd₁ hin.2, if_neg (by omega)]
    simp
  · rename_i hgt
    have hin : monthStart (month - 3) + day - 1 < 365 ∧ 0 ≤ monthStart (month - 3) ∧
        monthStart (month - 3) + day - 1 < monthStart (month - 3 + 1) := by
      rw [monthStart, monthStart]
      interval_cases month <;> simp at hgt hd₂ ⊢ <;> omega
    rw [civilFromDays_of_inYear ⟨by omega, by omega, by omega⟩ hd₁ hin.2.2,
      if_pos (by omega)]
    simp

/-! ## The order of dates -/

/-- An earlier year, or an earlier day of the same year. -/
def Civil.Before (c c' : Civil) : Prop :=
  c.year < c'.year ∨ c.year = c'.year ∧ (c.month < c'.month ∨ c.month = c'.month ∧ c.day < c'.day)

/-- A year has a day more if its February has. -/
theorem yearStart_pred (y : Int) :
    yearStart y = yearStart (y - 1) + if isLeap y then 366 else 365 := by
  unfold yearStart isLeap
  have h4 : (y - 1) / 4 = y / 4 - if y % 4 = 0 then 1 else 0 := by split <;> omega
  have h100 : (y - 1) / 100 = y / 100 - if y % 100 = 0 then 1 else 0 := by split <;> omega
  have h400 : (y - 1) / 400 = y / 400 - if y % 400 = 0 then 1 else 0 := by split <;> omega
  rw [h4, h100, h400]
  by_cases h : y % 4 = 0 <;> by_cases h' : y % 100 = 0 <;> by_cases h'' : y % 400 = 0 <;>
    simp [h, h', h''] <;> omega

theorem yearStart_mono {y y' : Int} (h : y ≤ y') : yearStart y ≤ yearStart y' := by
  unfold yearStart
  omega

/-- The days of a month, from the first one of January on. -/
theorem daysFromCivil_bounds {c : Civil} (h : c.Valid) :
    yearStart (c.year - 1) + 306 - 719468 ≤ daysFromCivil c ∧
      daysFromCivil c < yearStart c.year + 306 - 719468 := by
  obtain ⟨year, month, day⟩ := c
  obtain ⟨hm₁, hm₂, hd₁, hd₂⟩ := h
  have hyear := yearStart_pred year
  simp only [daysInMonth] at hm₁ hm₂ hd₁ hd₂ ⊢
  simp only [daysFromCivil, monthStart]
  cases hl : isLeap year <;> interval_cases month <;> simp [hl] at hd₂ hyear ⊢ <;> omega

/-- A month ends before a later one begins. -/
theorem daysFromCivil_lt_month {c : Civil} (h : c.Valid) {month : Int} (hmonth : c.month < month)
    (hle : month ≤ 12) : daysFromCivil c < daysFromCivil ⟨c.year, month, 1⟩ := by
  obtain ⟨year, m, day⟩ := c
  obtain ⟨hm₁, hm₂, hd₁, hd₂⟩ := h
  have hyear := yearStart_pred year
  simp only [daysInMonth] at hm₁ hm₂ hd₁ hd₂ hmonth ⊢
  -- the month that follows
  have hnext : daysFromCivil ⟨year, m, day⟩ < daysFromCivil ⟨year, m + 1, 1⟩ := by
    simp only [daysFromCivil, monthStart]
    cases hl : isLeap year <;> interval_cases m <;> simp [hl] at hd₂ hyear ⊢ <;> omega
  have hlater : daysFromCivil ⟨year, m + 1, 1⟩ ≤ daysFromCivil ⟨year, month, 1⟩ := by
    simp only [daysFromCivil, monthStart]
    have hpos : yearStart (year - 1) + 365 ≤ yearStart year := by
      rw [hyear]
      split <;> omega
    split <;> split <;> omega
  omega

/-- **Days count dates in order.** -/
theorem daysFromCivil_lt {c c' : Civil} (h : c.Valid) (h' : c'.Valid) (hlt : c.Before c') :
    daysFromCivil c < daysFromCivil c' := by
  rcases hlt with hyear | ⟨hyear, hmonth | ⟨hmonth, hday⟩⟩
  · have hmono := yearStart_mono (show c.year ≤ c'.year - 1 by omega)
    have hb := (daysFromCivil_bounds h).2
    have hb' := (daysFromCivil_bounds h').1
    omega
  · have hfirst := daysFromCivil_lt_month h hmonth h'.2.1
    have hday' := h'.2.2.1
    rw [hyear] at hfirst
    refine lt_of_lt_of_le hfirst ?_
    unfold daysFromCivil
    split <;> simp_all <;> omega
  · unfold daysFromCivil
    rw [hyear, hmonth]
    split <;> omega

theorem daysFromCivil_lt_iff {c c' : Civil} (h : c.Valid) (h' : c'.Valid) :
    daysFromCivil c < daysFromCivil c' ↔ c.Before c' := by
  refine ⟨fun hlt => ?_, daysFromCivil_lt h h'⟩
  by_contra hnot
  have hcases : c = c' ∨ c'.Before c := by
    obtain ⟨year, month, day⟩ := c
    obtain ⟨year', month', day'⟩ := c'
    simp only [Civil.Before, Civil.mk.injEq] at hnot ⊢
    omega
  rcases hcases with rfl | hback
  · exact absurd hlt (lt_irrefl _)
  · exact absurd (daysFromCivil_lt h' h hback) (lt_asymm hlt)

theorem daysFromCivil_injective {c c' : Civil} (h : c.Valid) (h' : c'.Valid)
    (heq : daysFromCivil c = daysFromCivil c') : c = c' := by
  rw [← civilFromDays_daysFromCivil h, heq, civilFromDays_daysFromCivil h']

/-- The years before the year 0 end on the day before its first. -/
theorem year_civilFromDays_nonneg {days : Int} :
    0 ≤ (civilFromDays days).year ↔ -719528 ≤ days := by
  have hb := daysFromCivil_bounds (civilFromDays_valid days)
  rw [daysFromCivil_civilFromDays] at hb
  have hzero : yearStart (-1) = -366 := by decide
  constructor
  · intro hy
    have hmono := yearStart_mono (show -1 ≤ (civilFromDays days).year - 1 by omega)
    omega
  · intro hdays
    by_contra hy
    have hmono := yearStart_mono (show (civilFromDays days).year ≤ -1 by omega)
    omega

/-- The days from 0000-01-01 to 9999-12-31 have a year of at most four digits. -/
theorem year_civilFromDays {days : Int} (h₀ : -719528 ≤ days) (h₁ : days < 2932897) :
    0 ≤ (civilFromDays days).year ∧ (civilFromDays days).year ≤ 9999 := by
  refine ⟨year_civilFromDays_nonneg.2 h₀, ?_⟩
  by_contra hgt
  have hb := (daysFromCivil_bounds (civilFromDays_valid days)).1
  rw [daysFromCivil_civilFromDays] at hb
  have hlast : yearStart 9999 = 3652059 := by decide
  have hmono := yearStart_mono (show 9999 ≤ (civilFromDays days).year - 1 by omega)
  omega

example : civilFromDays 0 = ⟨1970, 1, 1⟩ := by decide

example : civilFromDays 19998 = ⟨2024, 10, 2⟩ := by decide

end Calendar
