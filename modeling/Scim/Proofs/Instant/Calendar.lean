import Mathlib.Algebra.BigOperators.Intervals
import Scim.Instant

/-!
# The civil calendar

Years and months have their lengths (`yearLength`, `monthLength`), and a day is numbered by counting
them: `dayNumber_eq_count` sums the years and months before it. `civilDate` goes the other way
(`civilDate_spec`): every day number has a date of the calendar, and the date has that number.

Both functions count from the first of March, so that the leap day ends its year. An era is 400
years; within one, the year is found by a division that is right on the first and the last day of
every year and never falls in between (`yearOfEra_mono`, `yearOfEra_startOfYear`).
-/

namespace Scim.Instant

/-- The leap years of the Gregorian rule, carried back beyond its introduction. -/
def IsLeap (year : Int) : Prop := year % 4 = 0 ∧ (year % 100 = 0 → year % 400 = 0)

instance (year : Int) : Decidable (IsLeap year) := inferInstanceAs (Decidable (_ ∧ _))

def yearLength (year : Int) : Int := if IsLeap year then 366 else 365

def monthLength (year month : Int) : Int :=
  if month = 2 then (if IsLeap year then 29 else 28)
  else if month = 4 ∨ month = 6 ∨ month = 9 ∨ month = 11 then 30
  else 31

/-- A date of the calendar. -/
structure IsDate (year month day : Int) : Prop where
  one_le_month : 1 ≤ month
  month_le : month ≤ 12
  one_le_day : 1 ≤ day
  day_le : day ≤ monthLength year month

variable {year month day number : Int}

/-! ### Years that start in March -/

/-- The days from the first of March of year 0 to the first of March of `year`. -/
def marchDay (year : Int) : Int := 365 * year + year / 4 - year / 100 + year / 400

/-- The days from the first of March to the first of a month. -/
def monthOffset (month : Int) : Int := (153 * ((month + 9) % 12) + 2) / 5

theorem dayNumber_eq (year month day : Int) :
    dayNumber year month day = marchDay (if month ≤ 2 then year - 1 else year) +
      monthOffset month + day - 1 - 719468 := by
  unfold dayNumber marchDay monthOffset
  split_ifs <;> simp only <;> omega

theorem marchDay_pred (year : Int) : marchDay year =
    marchDay (year - 1) + 337 + if IsLeap year then 29 else 28 := by
  unfold marchDay IsLeap
  split_ifs <;> omega

theorem monthOffset_nextMonth (year : Int) (h : 1 ≤ month ∧ month < 12) (h2 : month ≠ 2) :
    monthOffset (month + 1) = monthOffset month + monthLength year month := by
  rw [monthLength, if_neg h2]
  split_ifs with h30
  · rcases h30 with rfl | rfl | rfl | rfl <;> rfl
  · have h31 : month = 1 ∨ month = 3 ∨ month = 5 ∨ month = 7 ∨ month = 8 ∨ month = 10 := by omega
    rcases h31 with rfl | rfl | rfl | rfl | rfl | rfl <;> rfl

/-! ### From dates to day numbers -/

theorem dayNumber_nextMonth (h : 1 ≤ month ∧ month < 12) :
    dayNumber year (month + 1) day = dayNumber year month day + monthLength year month := by
  rw [dayNumber_eq, dayNumber_eq]
  rcases eq_or_ne month 2 with rfl | h2
  · have hmarch : monthOffset (2 + 1) = 0 ∧ monthOffset 2 = 337 := by decide
    rw [if_neg (by decide), if_pos (by decide), marchDay_pred year, hmarch.1, hmarch.2, monthLength,
      if_pos rfl]
    omega
  · have hyear : month + 1 ≤ 2 ↔ month ≤ 2 := by omega
    simp only [hyear, monthOffset_nextMonth year h h2]
    omega

theorem dayNumber_nextYear :
    dayNumber (year + 1) 1 day = dayNumber year 1 day + yearLength year := by
  rw [dayNumber_eq, dayNumber_eq, if_pos (by decide), if_pos (by decide), Int.add_sub_cancel,
    marchDay_pred year, yearLength]
  split_ifs <;> omega

theorem dayNumber_nextDay (n : Int) :
    dayNumber year month (day + n) = dayNumber year month day + n := by
  rw [dayNumber_eq, dayNumber_eq]
  omega

/-- The number of the first day of a year. -/
def firstDay (year : Nat) : Int :=
  ∑ y ∈ Finset.range year, yearLength y - ∑ y ∈ Finset.range 1970, yearLength y

theorem firstDay_eq (year : Nat) : firstDay year = dayNumber year 1 1 := by
  have hsum : ∀ n : Nat, ∑ y ∈ Finset.range n, yearLength y = dayNumber n 1 1 + 719528 := by
    intro n
    induction n with
    | zero => rfl
    | succ n ih =>
      rw [Finset.sum_range_succ, ih, Int.natCast_succ, dayNumber_nextYear]
      omega
  have h1970 : dayNumber (1970 : Nat) 1 1 = 0 := by decide
  rw [firstDay, hsum, hsum, h1970]
  omega

/-- The day of a date is found by counting the years and months before it; a day beyond the end of
its month runs into the next one. -/
theorem dayNumber_eq_count (year : Nat) {month : Nat} (day : Int) (h : 1 ≤ month ∧ month ≤ 12) :
    dayNumber year month day =
      firstDay year + ∑ m ∈ Finset.range (month - 1), monthLength year (m + 1 : Nat) + (day - 1) := by
  obtain ⟨k, rfl⟩ := Nat.exists_eq_add_of_le' h.1
  have hmonth : ∀ k < 12, dayNumber year (k + 1 : Nat) 1 =
      firstDay year + ∑ m ∈ Finset.range k, monthLength year (m + 1 : Nat) := by
    intro k hk
    induction k with
    | zero => rw [firstDay_eq]; simp
    | succ k ih =>
      rw [Finset.sum_range_succ, ← add_assoc, ← ih (by omega), Int.natCast_succ (k + 1),
        dayNumber_nextMonth (by push_cast; omega)]
  rw [Nat.add_sub_cancel, ← hmonth k (by omega), ← dayNumber_nextDay, add_sub_cancel]

/-! ### Dates of a year that starts in March -/

/-- The date of the day `ofYear` of a year that starts in March. -/
def marchDate (year ofYear : Int) : Int × Int × Int :=
  let fromMarch := (5 * ofYear + 2) / 153
  let month := if fromMarch < 10 then fromMarch + 3 else fromMarch - 9
  (year + (if month ≤ 2 then 1 else 0), month, ofYear - (153 * fromMarch + 2) / 5 + 1)

theorem marchDate_spec {start ofYear : Int} (h0 : 0 ≤ ofYear) (h1 : ofYear < yearLength (start + 1))
    (h : marchDate start ofYear = (year, month, day)) :
    IsDate year month day ∧ dayNumber year month day = marchDay start + ofYear - 719468 := by
  simp only [marchDate, Prod.mk.injEq] at h
  obtain ⟨hy, hm, hd⟩ := h
  generalize hk : (5 * ofYear + 2) / 153 = k at hy hm hd
  have hlt : ofYear < 366 := by
    unfold yearLength at h1
    split_ifs at h1 <;> omega
  have hmonth : 1 ≤ month ∧ month ≤ 12 ∧ (month + 9) % 12 = k := by split_ifs at hm <;> omega
  have hyear : year = if month ≤ 2 then start + 1 else start := by rw [← hy, hm]; split_ifs <;> omega
  have hday : day ≤ monthLength year month := by
    unfold monthLength
    split_ifs with h2 hleap h30
    · omega
    · rw [hyear, if_pos (by omega)] at hleap
      rw [yearLength, if_neg hleap] at h1
      omega
    · rcases h30 with rfl | rfl | rfl | rfl <;> omega
    · omega
  have hstart : (if month ≤ 2 then year - 1 else year) = start := by rw [hyear]; split_ifs <;> omega
  refine ⟨⟨hmonth.1, hmonth.2.1, by omega, hday⟩, ?_⟩
  rw [dayNumber_eq, hstart, monthOffset, hmonth.2.2]
  omega

/-! ### From day numbers to dates -/

/-- The year, counted from the start of its era, of a day of the era. -/
def yearOfEra (ofEra : Int) : Int := (ofEra - ofEra / 1460 + ofEra / 36524 - ofEra / 146096) / 365

/-- The first day of a year of an era. -/
def startOfYear (y : Int) : Int := 365 * y + y / 4 - y / 100

theorem civilDate_eq (number : Int) :
    let ofEra := (number + 719468) % 146097
    civilDate number = marchDate ((number + 719468) / 146097 * 400 + yearOfEra ofEra)
      (ofEra - startOfYear (yearOfEra ofEra)) := rfl

theorem yearOfEra_mono {a b : Int} (h : a ≤ b) : yearOfEra a ≤ yearOfEra b := by
  unfold yearOfEra
  refine Int.ediv_le_ediv (by decide) ?_
  omega

theorem yearOfEra_startOfYear : ∀ y : Nat, y < 400 →
    yearOfEra (startOfYear y) = y ∧ yearOfEra (startOfYear (y + 1) - 1) = y := by decide +kernel

/-- The last year of an era has one day more than the years of the era take: its leap day. -/
theorem yearOfEra_spec {n : Int} (h : 0 ≤ n ∧ n ≤ 146096) :
    0 ≤ yearOfEra n ∧ yearOfEra n ≤ 399 ∧ startOfYear (yearOfEra n) ≤ n ∧
      (n < startOfYear (yearOfEra n + 1) ∨ n = 146096 ∧ yearOfEra n = 399) := by
  have h0 : 0 ≤ yearOfEra n := (by decide : (0 : Int) ≤ yearOfEra 0).trans (yearOfEra_mono h.1)
  have h1 : yearOfEra n ≤ 399 := (yearOfEra_mono h.2).trans (by decide : yearOfEra 146096 ≤ 399)
  obtain ⟨y, hy⟩ := Int.eq_ofNat_of_zero_le h0
  rw [hy] at h1 ⊢
  refine ⟨by omega, h1, ?_, ?_⟩
  · by_contra hlt
    cases y with
    | zero => simp [startOfYear] at hlt; omega
    | succ k =>
      have hmono := yearOfEra_mono (by push_cast at hlt; omega : n ≤ startOfYear (k + 1) - 1)
      rw [(yearOfEra_startOfYear k (by omega)).2] at hmono
      omega
  · by_contra hge
    by_cases hlast : y = 399
    · subst hlast
      simp [startOfYear] at hge
      omega
    · have hmono := yearOfEra_mono (by push_cast; omega : startOfYear (y + 1 : Nat) ≤ n)
      rw [(yearOfEra_startOfYear (y + 1) (by omega)).1] at hmono
      omega

/-- Leap years come back after an era. -/
theorem yearLength_period (era y : Int) : yearLength (era * 400 + y) = yearLength y := by
  have h : IsLeap (era * 400 + y) ↔ IsLeap y := by unfold IsLeap; omega
  simp only [yearLength, h]

theorem civilDate_spec (h : civilDate number = (year, month, day)) :
    IsDate year month day ∧ dayNumber year month day = number := by
  rw [civilDate_eq] at h
  generalize hera : (number + 719468) / 146097 = era at h
  generalize hn : (number + 719468) % 146097 = n at h
  obtain ⟨hy0, hy1, hstart, hend⟩ := yearOfEra_spec (n := n) (by omega)
  generalize yearOfEra n = y at *
  have hlast : n - startOfYear y < yearLength (era * 400 + y + 1) := by
    rw [Int.add_assoc, yearLength_period, yearLength]
    rw [startOfYear] at hstart hend ⊢
    split_ifs with hleap
    · omega
    · have h4 : (y + 1) / 4 = y / 4 ∨ (y + 1) % 4 = 0 := by omega
      have h100 : (y + 1) / 100 = y / 100 + 1 ∨ (y + 1) % 100 ≠ 0 := by omega
      unfold IsLeap at hleap
      omega
  obtain ⟨hdate, hnumber⟩ := marchDate_spec (by omega) hlast h
  refine ⟨hdate, hnumber.trans ?_⟩
  unfold marchDay startOfYear
  omega

/-! ### The year of a day -/

theorem monthLength_le (year month : Int) : monthLength year month ≤ 31 := by
  unfold monthLength
  split_ifs <;> decide

/-- A date lies in its own year. -/
theorem IsDate.bounds (h : IsDate year month day) :
    dayNumber year 1 1 ≤ dayNumber year month day ∧
      dayNumber year month day < dayNumber (year + 1) 1 1 := by
  have hday := h.day_le.trans (monthLength_le year month)
  obtain ⟨hm1, hm12, hd1, -⟩ := h
  rw [dayNumber_eq, dayNumber_eq, dayNumber_eq]
  unfold marchDay monthOffset
  split_ifs <;> omega

theorem dayNumber_newYear_mono {y z : Int} (h : y ≤ z) : dayNumber y 1 1 ≤ dayNumber z 1 1 := by
  rw [dayNumber_eq, dayNumber_eq]
  unfold marchDay
  omega

/-- A day between two new years has its date between them: another year would end before the day, or
begin after it. -/
theorem civilDate_year_mem {m n : Nat} (h : firstDay m ≤ number) (h' : number < firstDay n) :
    m ≤ (civilDate number).1 ∧ (civilDate number).1 < n := by
  obtain ⟨hdate, hnumber⟩ := civilDate_spec (Prod.mk.eta (p := civilDate number)).symm
  obtain ⟨hfirst, hlast⟩ := hdate.bounds
  rw [firstDay_eq] at h h'
  constructor
  · by_contra hlt
    have := dayNumber_newYear_mono (by omega : (civilDate number).1 + 1 ≤ m)
    omega
  · by_contra hge
    have := dayNumber_newYear_mono (by omega : (n : Int) ≤ (civilDate number).1)
    omega

end Scim.Instant
