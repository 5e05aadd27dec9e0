import Mathlib

namespace Calendar

/-- A position in a strictly increasing sequence of starts is found by its neighbours. -/
theorem start_le_iff {start : ℤ → ℤ} (hmono : StrictMono start) {i k n : ℤ} (hle : start i ≤ n)
    (hlt : n < start (i + 1)) : start k ≤ n ↔ k ≤ i := by
  constructor
  · intro h
    by_contra hik
    have hstart : start (i + 1) ≤ start k := hmono.monotone (by omega)
    omega
  · intro h
    exact (hmono.monotone h).trans hle

section Years

/-- The proleptic Gregorian calendar: the day number of 1 January of year `y`, where day `0` is
1970-01-01. -/
def yearStart (y : ℤ) : ℤ :=
  365 * (y - 1970) + ((y - 1) / 4 - (y - 1) / 100 + (y - 1) / 400) - 477

def isLeap (y : ℤ) : Bool := (y % 4 = 0 && y % 100 ≠ 0) || y % 400 = 0

def leapDays (y : ℤ) : ℤ := if isLeap y then 1 else 0

theorem isLeap_iff (y : ℤ) : isLeap y = true ↔ (y % 4 = 0 ∧ y % 100 ≠ 0) ∨ y % 400 = 0 := by
  simp only [isLeap, Bool.or_eq_true, Bool.and_eq_true, decide_eq_true_eq]

theorem leapDays_bounds (y : ℤ) : 0 ≤ leapDays y ∧ leapDays y ≤ 1 := by
  unfold leapDays
  split_ifs <;> omega

theorem yearStart_succ (y : ℤ) : yearStart (y + 1) = yearStart y + 365 + leapDays y := by
  unfold leapDays
  by_cases h : isLeap y = true
  · rw [if_pos h]
    rw [isLeap_iff] at h
    unfold yearStart
    omega
  · rw [if_neg h]
    rw [isLeap_iff] at h
    unfold yearStart
    omega

/-- A year has 365.2425 days on average. -/
theorem yearStart_bounds (y : ℤ) :
    146097 * (y - 1970) - 800 ≤ 400 * yearStart y ∧
      400 * yearStart y ≤ 146097 * (y - 1970) + 800 := by
  unfold yearStart
  omega

/-- The year of day `n`: the average gives it up to one. -/
def yearOf (n : ℤ) : ℤ :=
  let guess := 400 * n / 146097 + 1970
  if n < yearStart guess then guess - 1 else if n < yearStart (guess + 1) then guess else guess + 1

theorem yearOf_spec (n : ℤ) : yearStart (yearOf n) ≤ n ∧ n < yearStart (yearOf n + 1) := by
  have hg : 146097 * (400 * n / 146097 + 1970 - 1970) ≤ 400 * n ∧
      400 * n < 146097 * (400 * n / 146097 + 1970 - 1970) + 146097 := by
    omega
  unfold yearOf
  generalize 400 * n / 146097 + 1970 = g at hg
  have h₀ := yearStart_bounds (g - 1)
  have h₃ := yearStart_bounds (g + 2)
  dsimp only
  split_ifs with hlow hhigh
  · rw [sub_add_cancel]
    exact ⟨by omega, hlow⟩
  · exact ⟨not_lt.mp hlow, hhigh⟩
  · refine ⟨not_lt.mp hhigh, ?_⟩
    rw [add_assoc, one_add_one_eq_two]
    omega

theorem yearStart_strictMono : StrictMono yearStart := by
  apply strictMono_int_of_lt_succ
  intro y
  have hleap := leapDays_bounds y
  rw [yearStart_succ]
  omega

theorem yearStart_le_iff {y n : ℤ} : yearStart y ≤ n ↔ y ≤ yearOf n :=
  start_le_iff yearStart_strictMono (yearOf_spec n).1 (yearOf_spec n).2

theorem yearOf_mono {m n : ℤ} (h : m ≤ n) : yearOf m ≤ yearOf n :=
  yearStart_le_iff.mp ((yearOf_spec m).1.trans h)

end Years

section Months

/-- Days from 1 January to the first of month `m`, counted from zero, in a year with `leap` leap
days. -/
def monthOffset (leap m : ℤ) : ℤ := if m < 2 then 31 * m else (153 * (m - 2) + 2) / 5 + 59 + leap

def monthOfYear (leap doy : ℤ) : ℤ :=
  if doy < 31 then 0 else if doy < 59 + leap then 1 else (5 * (doy - 59 - leap) + 2) / 153 + 2

theorem monthOfYear_spec {leap : ℤ} (doy : ℤ) (hleap : 0 ≤ leap ∧ leap ≤ 1) (hdoy : 0 ≤ doy)
    (hlt : doy < 365 + leap) :
    (0 ≤ monthOfYear leap doy ∧ monthOfYear leap doy ≤ 11) ∧
      monthOffset leap (monthOfYear leap doy) ≤ doy ∧
      (monthOfYear leap doy < 11 → doy < monthOffset leap (monthOfYear leap doy + 1)) := by
  obtain ⟨h₀, h₁⟩ := hleap
  unfold monthOfYear monthOffset
  split_ifs <;> omega

/-- The day number of the first of a month. Months are counted from January of year `0`. -/
def monthStart (k : ℤ) : ℤ := yearStart (k / 12) + monthOffset (leapDays (k / 12)) (k % 12)

def monthIndex (n : ℤ) : ℤ :=
  12 * yearOf n + monthOfYear (leapDays (yearOf n)) (n - yearStart (yearOf n))

theorem monthStart_eq (y m : ℤ) (hm : 0 ≤ m) (hm' : m ≤ 11) :
    monthStart (12 * y + m) = yearStart y + monthOffset (leapDays y) m := by
  have hdiv : (12 * y + m) / 12 = y := by omega
  have hmod : (12 * y + m) % 12 = m := by omega
  rw [monthStart, hdiv, hmod]

theorem monthStart_january (y : ℤ) : monthStart (12 * y) = yearStart y := by
  have h := monthStart_eq y 0 le_rfl (by omega)
  rw [add_zero] at h
  rw [h]
  simp [monthOffset]

theorem monthStart_strictMono : StrictMono monthStart := by
  apply strictMono_int_of_lt_succ
  intro k
  obtain ⟨y, m, hm, hm', rfl⟩ : ∃ y m, 0 ≤ m ∧ m ≤ 11 ∧ k = 12 * y + m :=
    ⟨k / 12, k % 12, by omega, by omega, by omega⟩
  have hleap := leapDays_bounds y
  rw [monthStart_eq y m hm hm']
  by_cases hlast : m = 11
  · have hnext : 12 * y + m + 1 = 12 * (y + 1) := by omega
    rw [hnext, monthStart_january, yearStart_succ, hlast]
    unfold monthOffset
    omega
  · rw [add_assoc, monthStart_eq y (m + 1) (by omega) (by omega)]
    unfold monthOffset
    split_ifs <;> omega

theorem monthOfYear_yearOf (n : ℤ) :
    0 ≤ monthOfYear (leapDays (yearOf n)) (n - yearStart (yearOf n)) ∧
      monthOfYear (leapDays (yearOf n)) (n - yearStart (yearOf n)) ≤ 11 := by
  obtain ⟨hle, hlt⟩ := yearOf_spec n
  rw [yearStart_succ] at hlt
  exact (monthOfYear_spec _ (leapDays_bounds _) (by omega) (by omega)).1

theorem monthIndex_spec (n : ℤ) :
    monthStart (monthIndex n) ≤ n ∧ n < monthStart (monthIndex n + 1) := by
  obtain ⟨hle, hlt⟩ := yearOf_spec n
  have hjan := monthStart_january (yearOf n + 1)
  rw [yearStart_succ] at hlt hjan
  obtain ⟨⟨hm, hm'⟩, hbegin, hend⟩ := monthOfYear_spec (n - yearStart (yearOf n))
    (leapDays_bounds (yearOf n)) (by omega) (by omega)
  rw [monthIndex]
  generalize monthOfYear (leapDays (yearOf n)) (n - yearStart (yearOf n)) = m at hm hm' hbegin hend
  rw [monthStart_eq _ m hm hm']
  refine ⟨by omega, ?_⟩
  by_cases hlast : m = 11
  · have hnext : 12 * yearOf n + m + 1 = 12 * (yearOf n + 1) := by omega
    rw [hnext, hjan]
    exact hlt
  · rw [add_assoc, monthStart_eq _ (m + 1) (by omega) (by omega)]
    have hlt' := hend (by omega)
    omega

theorem monthStart_le_iff {k n : ℤ} : monthStart k ≤ n ↔ k ≤ monthIndex n :=
  start_le_iff monthStart_strictMono (monthIndex_spec n).1 (monthIndex_spec n).2

theorem monthIndex_mono {m n : ℤ} (h : m ≤ n) : monthIndex m ≤ monthIndex n :=
  monthStart_le_iff.mp ((monthIndex_spec m).1.trans h)

theorem monthIndex_div (n : ℤ) : monthIndex n / 12 = yearOf n := by
  have h := monthOfYear_yearOf n
  rw [monthIndex]
  omega

end Months

section Days

/-- The month of day `n`, from 1 to 12. -/
def monthOf (n : ℤ) : ℤ := monthIndex n % 12 + 1

/-- The day of the month of day `n`, from 1. -/
def dayOf (n : ℤ) : ℤ := n - monthStart (monthIndex n) + 1

/-- The day of the week of day `n`, from Sunday, which is `0`. -/
def weekdayOf (n : ℤ) : ℤ := (n + 4) % 7

/-- The day number of a date, if the calendar has it. -/
def ofYmd (y m d : ℤ) : Option ℤ :=
  if 1 ≤ m ∧ m ≤ 12 ∧ 1 ≤ d ∧ monthStart (12 * y + m - 1) + d ≤ monthStart (12 * y + m) then
    some (monthStart (12 * y + m - 1) + (d - 1))
  else none

theorem monthIndex_eq (n : ℤ) : 12 * yearOf n + monthOf n = monthIndex n + 1 := by
  have h := monthIndex_div n
  rw [monthOf]
  omega

theorem ofYmd_of (n : ℤ) : ofYmd (yearOf n) (monthOf n) (dayOf n) = some n := by
  obtain ⟨hle, hlt⟩ := monthIndex_spec n
  rw [ofYmd, monthIndex_eq, add_sub_cancel_right, dayOf]
  have hmonth : 1 ≤ monthOf n ∧ monthOf n ≤ 12 := by
    unfold monthOf
    omega
  rw [if_pos ⟨hmonth.1, hmonth.2, by omega, by omega⟩]
  congr 1
  ring

theorem ofYmd_first {y m : ℤ} (hm : 1 ≤ m) (hm' : m ≤ 12) :
    ofYmd y m 1 = some (monthStart (12 * y + m - 1)) := by
  have hlt : monthStart (12 * y + m - 1) < monthStart (12 * y + m) :=
    monthStart_strictMono (by omega)
  rw [ofYmd, if_pos ⟨hm, hm', le_rfl, by omega⟩]
  simp

end Days

end Calendar
