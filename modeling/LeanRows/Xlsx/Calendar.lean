import Mathlib

/-!
# The calendar of serial dates

Day counts from 1970-01-01 and dates of the proleptic Gregorian calendar. Years start in March
inside the arithmetic, and 400 of them make an era of a fixed number of days.
-/

namespace LeanRows.Xlsx

set_option autoImplicit false

structure CivilDate where
  year : Int
  month : Int
  day : Int
deriving DecidableEq, Repr

/-- Days from 1970-01-01 to a date. -/
def daysFromCivil (date : CivilDate) : Int :=
  let year := if date.month ≤ 2 then date.year - 1 else date.year
  let era := year.ediv 400
  let yearOfEra := year - era * 400
  let monthIndex := (date.month + 9).tmod 12
  let dayOfYear := (153 * monthIndex + 2).tdiv 5 + date.day - 1
  let dayOfEra := yearOfEra * 365 + yearOfEra.tdiv 4 - yearOfEra.tdiv 100 + dayOfYear
  era * 146097 + dayOfEra - 719468

/-- The date of a day count from 1970-01-01. -/
def civilFromDays (days : Int) : CivilDate :=
  let shifted := days + 719468
  let era := shifted.ediv 146097
  let dayOfEra := shifted - era * 146097
  let yearOfEra := (dayOfEra - dayOfEra.tdiv 1460 + dayOfEra.tdiv 36524 -
    dayOfEra.tdiv 146096).tdiv 365
  let dayOfYear := dayOfEra - (365 * yearOfEra + yearOfEra.tdiv 4 - yearOfEra.tdiv 100)
  let monthIndex := (5 * dayOfYear + 2).tdiv 153
  let day := dayOfYear - (153 * monthIndex + 2).tdiv 5 + 1
  let month := if monthIndex < 10 then monthIndex + 3 else monthIndex - 9
  ⟨yearOfEra + era * 400 + if month ≤ 2 then 1 else 0, month, day⟩

/-! ## The calendar -/

def IsLeap (year : Int) : Prop := year % 4 = 0 ∧ (year % 100 ≠ 0 ∨ year % 400 = 0)

instance (year : Int) : Decidable (IsLeap year) := inferInstanceAs (Decidable (_ ∧ _))

def daysInMonth (year month : Int) : Int :=
  if month = 2 then if IsLeap year then 29 else 28
  else if month = 4 ∨ month = 6 ∨ month = 9 ∨ month = 11 then 30
  else 31

namespace CivilDate

structure Valid (date : CivilDate) : Prop where
  month_ge : 1 ≤ date.month
  month_le : date.month ≤ 12
  day_ge : 1 ≤ date.day
  day_le : date.day ≤ daysInMonth date.year date.month

/-- The day after a date. -/
def next (date : CivilDate) : CivilDate :=
  if date.day < daysInMonth date.year date.month then { date with day := date.day + 1 }
  else if date.month < 12 then ⟨date.year, date.month + 1, 1⟩
  else ⟨date.year + 1, 1, 1⟩

def Before (date date' : CivilDate) : Prop :=
  date.year < date'.year ∨ date.year = date'.year ∧
    (date.month < date'.month ∨ date.month = date'.month ∧ date.day < date'.day)

end CivilDate

/-! ## Years of an era -/

/-- The day of its era on which a year starts. -/
def yearStart (yearOfEra : Int) : Int := yearOfEra * 365 + yearOfEra / 4 - yearOfEra / 100

theorem yearStart_mono {year year' : Int} (h : year ≤ year') :
    yearStart year ≤ yearStart year' := by
  unfold yearStart
  omega

/-- The year of a day of its era. -/
def yearOfDay (dayOfEra : Int) : Int :=
  (dayOfEra - dayOfEra / 1460 + dayOfEra / 36524 - dayOfEra / 146096) / 365

/-- But for the last day of the era, the formula keeps the centuries apart. -/
theorem yearOfDay_century {dayOfEra : Int} (hge : 0 ≤ dayOfEra) (hlt : dayOfEra < 146096) :
    yearOfDay dayOfEra / 100 = dayOfEra / 36524 := by
  have hcycle : dayOfEra / 146096 = 0 := by omega
  have hcentury : 0 ≤ dayOfEra / 36524 ∧ dayOfEra / 36524 ≤ 3 := by omega
  rw [yearOfDay, hcycle]
  generalize hk : dayOfEra / 36524 = century at *
  obtain ⟨hk₀, hk₃⟩ := hcentury
  interval_cases century <;> omega

theorem yearOfDay_bounds {dayOfEra : Int} (hge : 0 ≤ dayOfEra) (hlt : dayOfEra < 146097) :
    0 ≤ yearOfDay dayOfEra ∧ yearOfDay dayOfEra < 400 ∧ yearStart (yearOfDay dayOfEra) ≤ dayOfEra ∧
      (dayOfEra < yearStart (yearOfDay dayOfEra + 1) ∨ yearOfDay dayOfEra = 399) := by
  by_cases hlast : dayOfEra = 146096
  · subst hlast
    decide
  have hcentury := yearOfDay_century hge (by omega)
  have hyear : yearOfDay dayOfEra = (dayOfEra - dayOfEra / 1460 + dayOfEra / 36524) / 365 := by
    unfold yearOfDay
    omega
  have hk : dayOfEra / 36524 ≤ 3 := by omega
  generalize yearOfDay dayOfEra = year at hcentury hyear ⊢
  have hleaps : year / 4 ≤ dayOfEra / 1460 := by omega
  have hleaps' : dayOfEra / 1460 ≤ (year + 1) / 4 := by omega
  unfold yearStart
  refine ⟨by omega, by omega, by omega, ?_⟩
  by_cases hturn : (year + 1) / 100 = year / 100
  · left
    omega
  · left
    omega

theorem yearOfDay_eq {dayOfEra year : Int} (hyear : 0 ≤ year) (hlast : year < 400)
    (hge : yearStart year ≤ dayOfEra)
    (hlt : dayOfEra < yearStart (year + 1) ∨ year = 399 ∧ dayOfEra < 146097) :
    yearOfDay dayOfEra = year := by
  have hstart : 0 ≤ yearStart year := by
    unfold yearStart
    omega
  have hera : dayOfEra < 146097 := by
    have hmono : yearStart (year + 1) ≤ yearStart 400 := yearStart_mono (by omega)
    have hfull : yearStart 400 = 146096 := by decide
    omega
  obtain ⟨hyear₀, hyear₁, hge', hlt'⟩ := yearOfDay_bounds (hstart.trans hge) hera
  by_contra hne
  rcases lt_or_gt_of_ne hne with hless | hmore
  · have hmono : yearStart (yearOfDay dayOfEra + 1) ≤ yearStart year := yearStart_mono (by omega)
    omega
  · have hmono : yearStart (year + 1) ≤ yearStart (yearOfDay dayOfEra) := yearStart_mono (by omega)
    omega

/-! ## Months of a year -/

/-- The date of a day of a year that starts in March. -/
def dateOf (year dayOfYear : Int) : CivilDate :=
  let monthIndex := (5 * dayOfYear + 2) / 153
  let month := if monthIndex < 10 then monthIndex + 3 else monthIndex - 9
  ⟨year + if month ≤ 2 then 1 else 0, month, dayOfYear - (153 * monthIndex + 2) / 5 + 1⟩

/-- The year that starts in March, and the day of it. -/
def yearAndDay (date : CivilDate) : Int × Int :=
  (if date.month ≤ 2 then date.year - 1 else date.year,
    (153 * ((date.month + 9) % 12) + 2) / 5 + date.day - 1)

theorem dateOf_valid {year dayOfYear : Int} (hge : 0 ≤ dayOfYear) (hle : dayOfYear ≤ 365)
    (hleap : dayOfYear = 365 → IsLeap (year + 1)) : (dateOf year dayOfYear).Valid := by
  have hindex : 0 ≤ (5 * dayOfYear + 2) / 153 ∧ (5 * dayOfYear + 2) / 153 ≤ 11 := by omega
  unfold dateOf
  generalize hmonth : (5 * dayOfYear + 2) / 153 = monthIndex at hindex ⊢
  obtain ⟨hindex₀, hindex₁⟩ := hindex
  have hfirst : 1 ≤ dayOfYear - (153 * monthIndex + 2) / 5 + 1 := by omega
  by_cases hspring : monthIndex < 10
  · have hyear : ¬ monthIndex + 3 ≤ 2 := by omega
    simp only [if_pos hspring, if_neg hyear]
    refine ⟨?_, ?_, hfirst, ?_⟩
    · show 1 ≤ monthIndex + 3
      omega
    · show monthIndex + 3 ≤ 12
      omega
    · show dayOfYear - (153 * monthIndex + 2) / 5 + 1 ≤ daysInMonth (year + 0) (monthIndex + 3)
      unfold daysInMonth
      interval_cases monthIndex <;> simp <;> omega
  · have hyear : monthIndex - 9 ≤ 2 := by omega
    simp only [if_neg hspring, if_pos hyear]
    refine ⟨?_, ?_, hfirst, ?_⟩
    · show 1 ≤ monthIndex - 9
      omega
    · show monthIndex - 9 ≤ 12
      omega
    · show dayOfYear - (153 * monthIndex + 2) / 5 + 1 ≤ daysInMonth (year + 1) (monthIndex - 9)
      unfold daysInMonth
      by_cases hjanuary : monthIndex = 10
      · subst hjanuary
        simp
        omega
      · have hfebruary : monthIndex - 9 = 2 := by omega
        rw [if_pos hfebruary]
        by_cases hlast : dayOfYear = 365
        · rw [if_pos (hleap hlast)]
          omega
        · split_ifs <;> omega

theorem yearAndDay_dateOf {year dayOfYear : Int} (hge : 0 ≤ dayOfYear) (hle : dayOfYear ≤ 365) :
    yearAndDay (dateOf year dayOfYear) = (year, dayOfYear) := by
  unfold yearAndDay dateOf
  dsimp only
  rw [Prod.mk.injEq]
  split_ifs <;> omega

theorem dateOf_yearAndDay {date : CivilDate} (h : date.Valid) :
    dateOf (yearAndDay date).1 (yearAndDay date).2 = date := by
  obtain ⟨year, month, day⟩ := date
  obtain ⟨hmonth₀, hmonth₁, hday₀, hday₁⟩ := h
  dsimp only at hmonth₀ hmonth₁ hday₀ hday₁
  have hlength : day ≤ 29 ∧ month = 2 ∨ day ≤ 30 ∧
    (month = 4 ∨ month = 6 ∨ month = 9 ∨ month = 11) ∨
      day ≤ 31 ∧ month ≠ 2 ∧ month ≠ 4 ∧ month ≠ 6 ∧ month ≠ 9 ∧ month ≠ 11 := by
    unfold daysInMonth at hday₁
    split_ifs at hday₁ <;> omega
  unfold dateOf yearAndDay
  dsimp only
  rw [CivilDate.mk.injEq]
  have hindex : (5 * ((153 * ((month + 9) % 12) + 2) / 5 + day - 1) + 2) / 153 =
      (month + 9) % 12 := by
    interval_cases month <;> omega
  rw [hindex]
  refine ⟨?_, ?_, ?_⟩
  · interval_cases month <;> simp
  · interval_cases month <;> simp
  · omega

/-! ## Days -/

theorem civilFromDays_eq (days : Int) :
    let dayOfEra := (days + 719468) % 146097
    civilFromDays days = dateOf (yearOfDay dayOfEra + (days + 719468) / 146097 * 400)
      (dayOfEra - yearStart (yearOfDay dayOfEra)) := by
  intro dayOfEra
  have hrest : days + 719468 - (days + 719468) / 146097 * 146097 = dayOfEra := by omega
  have hera : 0 ≤ dayOfEra ∧ dayOfEra < 146097 := by omega
  obtain ⟨hyear₀, hyear₁, hge, -⟩ := yearOfDay_bounds hera.1 hera.2
  have hyear : (dayOfEra - dayOfEra.tdiv 1460 + dayOfEra.tdiv 36524 -
      dayOfEra.tdiv 146096).tdiv 365 = yearOfDay dayOfEra := by
    rw [Int.tdiv_eq_ediv_of_nonneg hera.1, Int.tdiv_eq_ediv_of_nonneg hera.1,
      Int.tdiv_eq_ediv_of_nonneg hera.1, Int.tdiv_eq_ediv_of_nonneg (by omega), yearOfDay]
  have hday : dayOfEra - (365 * yearOfDay dayOfEra + (yearOfDay dayOfEra).tdiv 4 -
      (yearOfDay dayOfEra).tdiv 100) = dayOfEra - yearStart (yearOfDay dayOfEra) := by
    rw [Int.tdiv_eq_ediv_of_nonneg hyear₀, Int.tdiv_eq_ediv_of_nonneg hyear₀, yearStart]
    omega
  have hday₀ : 0 ≤ dayOfEra - yearStart (yearOfDay dayOfEra) := by omega
  have hshift : (days + 719468).ediv 146097 = (days + 719468) / 146097 := rfl
  unfold civilFromDays dateOf
  simp only [hshift, hrest, hyear, hday]
  rw [Int.tdiv_eq_ediv_of_nonneg (by omega), Int.tdiv_eq_ediv_of_nonneg (by omega)]

theorem daysFromCivil_eq {date : CivilDate} (h : date.Valid) :
    daysFromCivil date = (yearAndDay date).1 / 400 * 146097 +
      yearStart ((yearAndDay date).1 % 400) + (yearAndDay date).2 - 719468 := by
  have hmonth := h.month_ge
  unfold daysFromCivil yearAndDay
  generalize hyear : (if date.month ≤ 2 then date.year - 1 else date.year) = year
  have hera : year.ediv 400 = year / 400 := rfl
  have hrest : year - year / 400 * 400 = year % 400 := by omega
  have hindex : (date.month + 9).tmod 12 = (date.month + 9) % 12 :=
    Int.tmod_eq_emod_of_nonneg (by omega)
  simp only [hera, hrest, hindex]
  rw [Int.tdiv_eq_ediv_of_nonneg (by omega), Int.tdiv_eq_ediv_of_nonneg (by omega),
    Int.tdiv_eq_ediv_of_nonneg (by omega), yearStart]
  omega

/-- The last day of a year that starts in March is there in front of a leap year's March only. -/
theorem leap_of_last {year era : Int}
    (h : 365 < yearStart (year + 1) - yearStart year ∨ year = 399) :
    IsLeap (year + era * 400 + 1) := by
  unfold IsLeap yearStart at *
  omega

theorem civilFromDays_valid (days : Int) : (civilFromDays days).Valid := by
  rw [civilFromDays_eq]
  have hera : 0 ≤ (days + 719468) % 146097 ∧ (days + 719468) % 146097 < 146097 := by omega
  generalize (days + 719468) % 146097 = dayOfEra at hera ⊢
  obtain ⟨hyear₀, hyear₁, hge, hlt⟩ := yearOfDay_bounds hera.1 hera.2
  generalize yearOfDay dayOfEra = year at *
  have hlength : yearStart (year + 1) - yearStart year ≤ 366 ∧ 145731 ≤ yearStart 399 := by
    unfold yearStart
    omega
  refine dateOf_valid (by omega) ?_ fun hday => leap_of_last ?_
  · rcases hlt with hlt | rfl <;> omega
  · rcases hlt with hlt | rfl
    · left
      omega
    · exact .inr rfl

theorem daysFromCivil_civilFromDays (days : Int) : daysFromCivil (civilFromDays days) = days := by
  rw [daysFromCivil_eq (civilFromDays_valid days), civilFromDays_eq]
  have hera : 0 ≤ (days + 719468) % 146097 ∧ (days + 719468) % 146097 < 146097 := by omega
  have hsplit := Int.emod_add_mul_ediv (days + 719468) 146097
  generalize (days + 719468) % 146097 = dayOfEra at hera hsplit ⊢
  obtain ⟨hyear₀, hyear₁, hge, hlt⟩ := yearOfDay_bounds hera.1 hera.2
  generalize yearOfDay dayOfEra = year at *
  have hlength : yearStart (year + 1) - yearStart year ≤ 366 ∧ 145731 ≤ yearStart 399 := by
    unfold yearStart
    omega
  rw [yearAndDay_dateOf (by omega) (by rcases hlt with hlt | rfl <;> omega)]
  dsimp only
  have hyear : (year + (days + 719468) / 146097 * 400) % 400 = year := by omega
  rw [hyear]
  omega

theorem yearAndDay_bounds {date : CivilDate} (h : date.Valid) :
    0 ≤ (yearAndDay date).2 ∧ (yearAndDay date).2 ≤ 365 ∧
      ((yearAndDay date).2 = 365 → IsLeap ((yearAndDay date).1 + 1)) := by
  obtain ⟨year, month, day⟩ := date
  obtain ⟨hmonth₀, hmonth₁, hday₀, hday₁⟩ := h
  dsimp only at hmonth₀ hmonth₁ hday₀ hday₁
  unfold daysInMonth at hday₁
  unfold yearAndDay
  dsimp only
  by_cases hfebruary : month = 2
  · subst hfebruary
    have hyear : (if (2 : Int) ≤ 2 then year - 1 else year) + 1 = year := by
      rw [if_pos (le_refl _)]
      omega
    rw [hyear]
    rw [if_pos rfl] at hday₁
    split_ifs at hday₁ with hleap
    · exact ⟨by omega, by omega, fun _ => hleap⟩
    · exact ⟨by omega, by omega, fun hlast => absurd hlast (by omega)⟩
  · rw [if_neg hfebruary] at hday₁
    have hlength : day ≤ 31 := by split_ifs at hday₁ <;> omega
    have hshort : (153 * ((month + 9) % 12) + 2) / 5 + day - 1 ≤ 364 := by
      interval_cases month <;> omega
    exact ⟨by omega, by omega, fun hlast => absurd hlast (by omega)⟩

theorem civilFromDays_daysFromCivil {date : CivilDate} (h : date.Valid) :
    civilFromDays (daysFromCivil date) = date := by
  obtain ⟨hday₀, hday₁, hleap⟩ := yearAndDay_bounds h
  have hdate := dateOf_yearAndDay h
  rw [civilFromDays_eq, daysFromCivil_eq h]
  generalize (yearAndDay date).1 = year at *
  generalize (yearAndDay date).2 = day at *
  have hyear : 0 ≤ year % 400 ∧ year % 400 < 400 := by omega
  have hstart : 0 ≤ yearStart (year % 400) := by
    unfold yearStart
    omega
  have hend : yearStart (year % 400) + day < yearStart (year % 400 + 1) ∨
      year % 400 = 399 ∧ yearStart (year % 400) + day < 146097 := by
    unfold IsLeap at hleap
    unfold yearStart
    omega
  have hera : yearStart (year % 400) + day < 146097 := by
    unfold yearStart at hend ⊢
    omega
  have hdays : year / 400 * 146097 + yearStart (year % 400) + day - 719468 + 719468 =
      yearStart (year % 400) + day + year / 400 * 146097 := by omega
  rw [hdays, Int.add_mul_emod_self_right, Int.emod_eq_of_lt (by omega) hera,
    Int.add_mul_ediv_right _ _ (by decide), Int.ediv_eq_zero_of_lt (by omega) hera,
    yearOfDay_eq hyear.1 hyear.2 (by omega) hend]
  have hwhole : year % 400 + (0 + year / 400) * 400 = year := by omega
  have hrest : yearStart (year % 400) + day - yearStart (year % 400) = day := by omega
  rw [hwhole, hrest]
  exact hdate

/-! ## The next day -/

theorem daysInMonth_pos (year month : Int) : 1 ≤ daysInMonth year month := by
  unfold daysInMonth
  split_ifs <;> omega

theorem CivilDate.Valid.next {date : CivilDate} (h : date.Valid) : date.next.Valid := by
  obtain ⟨hmonth₀, hmonth₁, hday₀, hday₁⟩ := h
  unfold CivilDate.next
  split_ifs with hday hmonth
  · exact ⟨hmonth₀, hmonth₁, by dsimp only; omega, by dsimp only; omega⟩
  · exact ⟨by dsimp only; omega, by dsimp only; omega, by dsimp only; omega, daysInMonth_pos _ _⟩
  · exact ⟨by dsimp only; omega, by dsimp only; omega, by dsimp only; omega, daysInMonth_pos _ _⟩

theorem CivilDate.before_next (date : CivilDate) : date.Before date.next := by
  unfold CivilDate.Before CivilDate.next
  split_ifs with hday hmonth
  · exact .inr ⟨rfl, .inr ⟨rfl, by dsimp only; omega⟩⟩
  · exact .inr ⟨rfl, .inl (by dsimp only; omega)⟩
  · exact .inl (by dsimp only; omega)

theorem CivilDate.Before.trans {date date' date'' : CivilDate} (h : date.Before date')
    (h' : date'.Before date'') : date.Before date'' := by
  unfold CivilDate.Before at *
  omega

/-- A year that starts in March has the length its own March 1 and the next give it. -/
theorem yearStart_succ (year : Int) :
    (year + 1) / 400 * 146097 + yearStart ((year + 1) % 400) =
      year / 400 * 146097 + yearStart (year % 400) + if IsLeap (year + 1) then 366 else 365 := by
  unfold IsLeap yearStart
  split_ifs <;> omega

theorem daysFromCivil_next {date : CivilDate} (h : date.Valid) :
    daysFromCivil date.next = daysFromCivil date + 1 := by
  rw [daysFromCivil_eq h.next, daysFromCivil_eq h]
  obtain ⟨year, month, day⟩ := date
  obtain ⟨hmonth₀, hmonth₁, hday₀, hday₁⟩ := h
  unfold CivilDate.next
  dsimp only at hmonth₀ hmonth₁ hday₀ hday₁ ⊢
  by_cases hday : day < daysInMonth year month
  · rw [if_pos hday]
    unfold yearAndDay
    dsimp only
    omega
  have hlast : day = daysInMonth year month := by omega
  rw [if_neg hday]
  by_cases hfebruary : month = 2
  · subst hfebruary
    have hyear := yearStart_succ (year - 1)
    have hsame : year - 1 + 1 = year := by omega
    rw [hsame] at hyear
    have hlength : day = if IsLeap year then 29 else 28 := hlast.trans (if_pos rfl)
    rw [if_pos (by decide)]
    unfold yearAndDay
    dsimp only
    rw [if_neg (by decide), if_pos (by decide), hyear, hlength]
    split_ifs <;> omega
  have hlength : day = if month = 4 ∨ month = 6 ∨ month = 9 ∨ month = 11 then 30 else 31 :=
    hlast.trans (if_neg hfebruary)
  by_cases hdecember : month < 12
  · rw [if_pos hdecember]
    have hyear : (if month + 1 ≤ 2 then year - 1 else year) =
        if month ≤ 2 then year - 1 else year := by
      split_ifs <;> omega
    unfold yearAndDay
    dsimp only
    rw [hyear, hlength]
    have hnext : (153 * ((month + 1 + 9) % 12) + 2) / 5 = (153 * ((month + 9) % 12) + 2) / 5 +
        if month = 4 ∨ month = 6 ∨ month = 9 ∨ month = 11 then 30 else 31 := by
      interval_cases month <;> first | rfl | exact absurd rfl hfebruary
    omega
  · obtain rfl : month = 12 := by omega
    rw [if_neg (by decide), hlength]
    unfold yearAndDay
    dsimp only
    rw [if_pos (by decide), if_neg (by decide), if_neg (by decide)]
    have hyear : year + 1 - 1 = year := by omega
    rw [hyear]
    omega

theorem civilFromDays_succ (days : Int) : civilFromDays (days + 1) = (civilFromDays days).next := by
  have h := civilFromDays_valid days
  rw [← civilFromDays_daysFromCivil h.next, daysFromCivil_next h, daysFromCivil_civilFromDays]

theorem civilFromDays_before {days days' : Int} (h : days < days') :
    (civilFromDays days).Before (civilFromDays days') := by
  obtain ⟨count, rfl⟩ : ∃ count : Nat, days' = days + 1 + count :=
    ⟨(days' - days - 1).toNat, by omega⟩
  induction count with
  | zero =>
    have hnext := (civilFromDays days).before_next
    rw [← civilFromDays_succ] at hnext
    simpa using hnext
  | succ count ih =>
    have hlast := (civilFromDays (days + 1 + count)).before_next
    rw [← civilFromDays_succ] at hlast
    have hcount : days + 1 + ((count + 1 : Nat) : Int) = days + 1 + count + 1 := by
      push_cast
      omega
    rw [hcount]
    exact (ih (by omega)).trans hlast

/-- Day counts and the dates of the calendar are the same, in the same order. -/
theorem calendar_bijective (days days' : Int) (date : CivilDate) :
    (civilFromDays days).Valid ∧ daysFromCivil (civilFromDays days) = days ∧
      (date.Valid → civilFromDays (daysFromCivil date) = date) ∧
      (days < days' → (civilFromDays days).Before (civilFromDays days')) ∧
      civilFromDays (days + 1) = (civilFromDays days).next :=
  ⟨civilFromDays_valid days, daysFromCivil_civilFromDays days, civilFromDays_daysFromCivil,
    civilFromDays_before, civilFromDays_succ days⟩

end LeanRows.Xlsx
