/-
Dates as numbers of days (date.c). The number of a day is counted with a leap year every four years,
while the length of February follows the calendar, where three century years in four are none. So the
last day of such a year and the first of the next are not neighbours, and the number between them is
no day at all.
-/
import Mathlib.Tactic

namespace Db3w.Hb

/-- `isleap`. -/
def isleap (year : Nat) : Bool := year % 400 = 0 || (year % 4 = 0 && year % 100 ≠ 0)

/-- A year of two digits is put into the window of a hundred years that begins with `epoch`. -/
def fullYear (epoch year : Nat) : Nat :=
  if year < 100 then
    if year < epoch % 100 then year + (epoch + 99) / 100 * 100 else year + epoch / 100 * 100
  else year

/-- `daysofmonth`, and the length of February. -/
def daysIn (leap : Bool) : Nat → Nat
  | 2 => if leap then 29 else 28
  | 4 | 6 | 9 | 11 => 30
  | _ => 31

/-- `verify_date`, for numbers that are not negative. -/
def verifyDate (epoch year month day : Nat) : Bool :=
  1 ≤ day && 1 ≤ month && month ≤ 12 && day ≤ daysIn (isleap (fullYear epoch year)) month

/-- `yeartoday`. -/
def yeartoday (year : Nat) : Nat := year / 4 * 1461 + year % 4 * 365

/-- The loop of `date_to_number`: the days of the months before `month` are added. -/
def addMonths (leap : Bool) : Nat → Nat → Nat
  | 0, day => day
  | 1, day => day
  | m + 2, day => addMonths leap (m + 1) (day + daysIn leap (m + 1))

def BASEDAY : Nat := 1721410

/-- `date_to_number`. -/
def dateToNumber (epoch day month year : Nat) : Nat :=
  let year := fullYear epoch year
  (BASEDAY + yeartoday (year - 1) + addMonths (isleap year) month day) % 2 ^ 32

/-- The year that `n_to_mdy` begins with: days by 365.25, and 1. -/
def yearOf (td : Nat) : Nat := 4 * td / 1461 + 1

theorem yearOf_eq (td : Nat) : (yearOf td : ℤ) = ⌊(td : ℚ) / (36525 / 100) + 1⌋ := by
  unfold yearOf
  rw [Int.floor_add_one, show (td : ℚ) / (36525 / 100) = ((4 * td : ℕ) : ℚ) / ((1461 : ℕ) : ℚ) by push_cast; ring, Rat.floor_natCast_div_natCast]
  push_cast
  rfl

/-- The loop over the months; behind the last one there is nothing to be read. -/
def findMonth (leap : Bool) : Nat → Nat → Nat → Option (Nat × Nat)
  | 0, _, _ => none
  | fuel + 1, mm, dd => if dd ≤ daysIn leap mm then some (mm, dd) else findMonth leap fuel (mm + 1) (dd - daysIn leap mm)

/-- `n_to_mdy`: month, day and year. -/
def nToMdy (d : Nat) : Option (Nat × Nat × Nat) :=
  let td := (d + (2 ^ 32 - BASEDAY)) % 2 ^ 32
  if td = 0 ∨ 2 ^ 31 ≤ td then some (0, 0, 0)
  else
    let yy := yearOf td
    let dd := td - yeartoday (yy - 1)
    let yd := if dd = 0 then (yy - 1, td - yeartoday (yy - 2)) else (yy, dd)
    (findMonth (isleap yd.1) 12 1 yd.2).map fun md => (md.1, md.2, yd.1)

/-! ## Years -/

/-- A year of a full century that is not a leap year. -/
def Century (y : Nat) : Prop := y % 4 = 0 ∧ isleap y = false

instance (y : Nat) : Decidable (Century y) := inferInstanceAs (Decidable (_ ∧ _))

theorem century_iff (y : Nat) : Century y ↔ y % 100 = 0 ∧ y % 400 ≠ 0 := by
  unfold Century isleap
  simp only [Bool.or_eq_false_iff, Bool.and_eq_false_iff, decide_eq_false_iff_not]
  omega

theorem isleap_mod {y : Nat} (h : isleap y = true) : y % 4 = 0 := by
  unfold isleap at h
  simp only [Bool.or_eq_true, Bool.and_eq_true, decide_eq_true_eq] at h
  omega

theorem yeartoday_succ {y : Nat} (hy : 1 ≤ y) : yeartoday y = yeartoday (y - 1) + if y % 4 = 0 then 366 else 365 := by
  unfold yeartoday
  split <;> omega

/-- The year of a day that has the number `td` and is the day `dd` of it. -/
theorem yearOf_spec {y dd : Nat} (hy : 1 ≤ y) (h1 : 1 ≤ dd) (h2 : dd ≤ if y % 4 = 0 then 366 else 365) :
    yearOf (yeartoday (y - 1) + dd) = if dd = 366 then y + 1 else y := by
  unfold yearOf yeartoday
  split at h2 <;> split <;> omega

/-- Every positive number is that of a day of some year. -/
theorem exists_year {td : Nat} (h : 0 < td) :
    ∃ y dd, 1 ≤ y ∧ td = yeartoday (y - 1) + dd ∧ 1 ≤ dd ∧ dd ≤ if y % 4 = 0 then 366 else 365 := by
  have hmod : (td - 1) % 1461 < 1461 := Nat.mod_lt _ (by omega)
  -- the last day of four years belongs to the fourth of them
  refine ⟨4 * ((td - 1) / 1461) + min 3 ((td - 1) % 1461 / 365) + 1, (td - 1) % 1461 - 365 * min 3 ((td - 1) % 1461 / 365) + 1, by omega, ?_, by omega, ?_⟩
  · unfold yeartoday
    omega
  · split <;> omega

/-! ## Months -/

/-- The days before a month. -/
def monthStart (leap : Bool) (m : Nat) : Nat := addMonths leap m 0

theorem addMonths_eq (leap : Bool) (m day : Nat) : addMonths leap m day = day + monthStart leap m := by
  unfold monthStart
  induction m using Nat.strong_induction_on generalizing day with
  | _ m ih =>
    match m with
    | 0 => rfl
    | 1 => rfl
    | m + 2 => rw [addMonths, addMonths, ih (m + 1) (by omega), ih (m + 1) (by omega) (0 + _), Nat.zero_add, Nat.add_assoc]

theorem monthStart_succ {leap : Bool} {m : Nat} (hm : 1 ≤ m) : monthStart leap (m + 1) = monthStart leap m + daysIn leap m := by
  obtain ⟨k, rfl⟩ : ∃ k, m = k + 1 := ⟨m - 1, by omega⟩
  show addMonths leap (k + 1) (0 + daysIn leap (k + 1)) = _
  rw [addMonths_eq, Nat.zero_add, Nat.add_comm]

theorem daysIn_pos (leap : Bool) (m : Nat) : 1 ≤ daysIn leap m := by
  unfold daysIn
  split
  · cases leap <;> decide
  all_goals decide

/-- The loop finds the month that the day is in, if there is one left. -/
theorem findMonth_cases {leap : Bool} {fuel mm dd : Nat} (hmm : 1 ≤ mm) (hdd : 1 ≤ dd) :
    (∃ m day, findMonth leap fuel mm dd = some (m, day) ∧ mm ≤ m ∧ m < mm + fuel ∧ 1 ≤ day ∧ day ≤ daysIn leap m ∧
      dd + monthStart leap mm = day + monthStart leap m) ∨
      (findMonth leap fuel mm dd = none ∧ monthStart leap (mm + fuel) < dd + monthStart leap mm) := by
  induction fuel generalizing mm dd with
  | zero => exact .inr ⟨rfl, by rw [Nat.add_zero]; omega⟩
  | succ fuel ih =>
    unfold findMonth
    have hstart := @monthStart_succ leap _ hmm
    by_cases hle : dd ≤ daysIn leap mm
    · rw [if_pos hle]
      exact .inl ⟨mm, dd, rfl, le_rfl, by omega, hdd, hle, rfl⟩
    · rw [if_neg hle]
      rcases @ih (mm + 1) (dd - daysIn leap mm) (by omega) (by omega) with ⟨m, day, hf, h1, h2, h3, h4, h5⟩ | ⟨hf, h⟩
      · exact .inl ⟨m, day, hf, by omega, by omega, h3, h4, by omega⟩
      · refine .inr ⟨hf, ?_⟩
        rw [Nat.add_right_comm mm 1 fuel] at h
        show monthStart leap (mm + fuel + 1) < _
        omega

/-- A day of the year lies in one month only. -/
theorem month_unique {leap : Bool} {m m' day day' : Nat} (hm : 1 ≤ m) (hm' : 1 ≤ m') (h1 : 1 ≤ day) (h2 : day ≤ daysIn leap m) (h1' : 1 ≤ day')
    (h2' : day' ≤ daysIn leap m') (h : day + monthStart leap m = day' + monthStart leap m') : m = m' ∧ day = day' := by
  have hmono : ∀ a k, 1 ≤ a → monthStart leap a + daysIn leap a ≤ monthStart leap (a + k + 1) := by
    intro a k ha
    induction k with
    | zero => exact (monthStart_succ ha).ge
    | succ k ih =>
      rw [monthStart_succ (by omega)]
      exact ih.trans (Nat.le_add_right _ _)
  rcases lt_trichotomy m m' with hlt | rfl | hlt
  · obtain ⟨k, rfl⟩ := Nat.exists_eq_add_of_lt hlt
    have := hmono m k hm
    omega
  · exact ⟨rfl, by omega⟩
  · obtain ⟨k, rfl⟩ := Nat.exists_eq_add_of_lt hlt
    have := hmono m' k hm'
    omega

theorem monthStart_end (leap : Bool) : monthStart leap 13 = 365 + if leap then 1 else 0 := by
  cases leap <;> rfl

theorem monthStart_le {leap : Bool} {m : Nat} (hm : m ≤ 12) (h1 : 1 ≤ m) : monthStart leap m + daysIn leap m ≤ 365 + if leap then 1 else 0 := by
  interval_cases m <;> cases leap <;> decide

/-! ## Numbers and dates -/

/-- A date that `verify_date` accepts, of a year with three or four digits. -/
structure Valid (epoch year month day : Nat) : Prop where
  ok : verifyDate epoch year month day = true
  year_ge : 100 ≤ year
  year_le : year ≤ 9999

/-- The next day of the calendar. -/
def nextDay (year month day : Nat) : Nat × Nat × Nat :=
  if day < daysIn (isleap year) month then (year, month, day + 1)
  else if month < 12 then (year, month + 1, 1)
  else (year + 1, 1, 1)

/-- The date is found again, and the next day has the next number. -/
def DateRight (epoch year month day : Nat) : Prop :=
  nToMdy (dateToNumber epoch day month year) = some (month, day, year) ∧
    dateToNumber epoch (nextDay year month day).2.2 (nextDay year month day).2.1 (nextDay year month day).1 = dateToNumber epoch day month year + 1

/-- A number of a day, up to the end of the year 9999. -/
def DayNumber (epoch n : Nat) : Prop := BASEDAY < n ∧ n ≤ dateToNumber epoch 31 12 9999

/-- The number becomes a date without a look behind the last month. -/
def NumberRight (n : Nat) : Prop :=
  ∃ month day year, nToMdy n = some (month, day, year) ∧ 1 ≤ month ∧ month ≤ 12 ∧ 1 ≤ day ∧ day ≤ daysIn (isleap year) month

theorem baseday_eq : BASEDAY = 1721410 := rfl

theorem fullYear_eq {epoch year : Nat} (h : 100 ≤ year) : fullYear epoch year = year := if_neg (by omega)

theorem yeartoday_le {y : Nat} (h : y ≤ 10000) : yeartoday y ≤ 3652500 := by
  unfold yeartoday
  omega

/-- The number of a date of the years looked at is not reduced. -/
theorem dateToNumber_eq {epoch y m day : Nat} (hy : 100 ≤ y) (hmax : y ≤ 10000) (hday : day + monthStart (isleap y) m ≤ 366) :
    dateToNumber epoch day m y = BASEDAY + yeartoday (y - 1) + (day + monthStart (isleap y) m) := by
  unfold dateToNumber
  have := yeartoday_le (y := y - 1) (by omega)
  have := baseday_eq
  rw [fullYear_eq hy]
  dsimp only
  rw [addMonths_eq, Nat.mod_eq_of_lt (by omega)]

/-- `n_to_mdy` finds the year of a day, and then looks for the month. -/
theorem nToMdy_eq {y dd : Nat} (hy : 1 ≤ y) (hmax : y ≤ 10000) (h1 : 1 ≤ dd) (h2 : dd ≤ if y % 4 = 0 then 366 else 365) :
    nToMdy (BASEDAY + yeartoday (y - 1) + dd) = (findMonth (isleap y) 12 1 dd).map fun md => (md.1, md.2, y) := by
  have hle := yeartoday_le (y := y - 1) (by omega)
  have hbase := baseday_eq
  have hdd : dd ≤ 366 := h2.trans (by split <;> omega)
  have htd : (BASEDAY + yeartoday (y - 1) + dd + (2 ^ 32 - BASEDAY)) % 2 ^ 32 = yeartoday (y - 1) + dd := by omega
  unfold nToMdy
  dsimp only
  rw [htd, if_neg (by omega), yearOf_spec hy h1 h2]
  by_cases h366 : dd = 366
  · -- the 366th day is first taken for day 0 of the next year
    rw [if_pos h366]
    have h4 : y % 4 = 0 := by
      by_contra h4
      rw [if_neg h4] at h2
      omega
    have hsucc := yeartoday_succ hy
    rw [if_pos h4] at hsucc
    rw [Nat.add_sub_cancel, if_pos (by omega), show y + 1 - 2 = y - 1 by omega, Nat.add_sub_cancel_left]
  · rw [if_neg h366, Nat.add_sub_cancel_left, if_neg (by omega)]

theorem leap_le (y : Nat) : (365 + if isleap y then 1 else 0) ≤ if y % 4 = 0 then 366 else 365 := by
  by_cases hl : isleap y = true
  · rw [if_pos hl, if_pos (isleap_mod hl)]
  · rw [if_neg hl]
    split <;> omega

theorem nToMdy_date {epoch y m day : Nat} (h : Valid epoch y m day) : nToMdy (dateToNumber epoch day m y) = some (m, day, y) := by
  obtain ⟨hok, hy, hmax⟩ := h
  unfold verifyDate at hok
  rw [fullYear_eq hy] at hok
  simp only [Bool.and_eq_true, decide_eq_true_eq] at hok
  obtain ⟨⟨⟨hd1, hm1⟩, hm⟩, hd⟩ := hok
  have hstart := @monthStart_le (isleap y) _ hm hm1
  have hleap := leap_le y
  have h366 : (if y % 4 = 0 then 366 else 365) ≤ 366 := by split <;> omega
  rw [dateToNumber_eq hy (by omega) (by omega), nToMdy_eq (by omega) (by omega) (by omega) (by omega)]
  rcases @findMonth_cases (isleap y) 12 1 (day + monthStart (isleap y) m) le_rfl (by omega) with
    ⟨m', day', hf, h1, -, h3, h4, h5⟩ | ⟨-, hlt⟩
  · obtain ⟨rfl, rfl⟩ := month_unique h1 hm1 h3 h4 hd1 hd (h5.symm.trans (Nat.add_zero _))
    rw [hf]
    rfl
  · have hend := monthStart_end (isleap y)
    have hzero : monthStart (isleap y) 1 = 0 := rfl
    change monthStart (isleap y) 13 < _ at hlt
    omega

/-- The number of the next day is the next number, except at the end of a century year that is no leap year. -/
theorem nextDay_number {epoch y m day : Nat} (h : Valid epoch y m day) :
    dateToNumber epoch (nextDay y m day).2.2 (nextDay y m day).2.1 (nextDay y m day).1 = dateToNumber epoch day m y + 1 ↔
      ¬(Century y ∧ m = 12 ∧ day = 31) := by
  obtain ⟨hok, hy, hmax⟩ := h
  unfold verifyDate at hok
  rw [fullYear_eq hy] at hok
  simp only [Bool.and_eq_true, decide_eq_true_eq] at hok
  obtain ⟨⟨⟨hd1, hm1⟩, hm⟩, hd⟩ := hok
  have hstart := @monthStart_le (isleap y) _ hm hm1
  have h366 : (365 + if isleap y then 1 else 0) ≤ 366 := by split <;> omega
  rw [@dateToNumber_eq _ _ _ day hy (by omega) (by omega)]
  unfold nextDay
  by_cases hlast : day < daysIn (isleap y) m
  · rw [if_pos hlast]
    dsimp only
    rw [dateToNumber_eq hy (by omega) (by omega)]
    refine iff_of_true (by omega) ?_
    rintro ⟨-, rfl, rfl⟩
    exact (show daysIn (isleap y) 12 = 31 from rfl).not_gt hlast
  rw [if_neg hlast]
  by_cases hdec : m < 12
  · have hsucc := @monthStart_succ (isleap y) _ hm1
    have hnext := @monthStart_le (isleap y) (m + 1) (by omega) (by omega)
    have hpos := daysIn_pos (isleap y) (m + 1)
    rw [if_pos hdec]
    dsimp only
    rw [dateToNumber_eq hy (by omega) (by omega)]
    refine iff_of_true (by omega) ?_
    rintro ⟨-, rfl, -⟩
    exact absurd hdec (by decide)
  · obtain rfl : m = 12 := by omega
    have hday : day = 31 := by
      have : daysIn (isleap y) 12 = 31 := rfl
      omega
    have hend := monthStart_end (isleap y)
    have h12 : monthStart (isleap y) 13 = monthStart (isleap y) 12 + 31 := monthStart_succ (by omega)
    have hjan : monthStart (isleap (y + 1)) 1 = 0 := rfl
    have hyear := yeartoday_succ (y := y) (by omega)
    rw [if_neg hdec]
    dsimp only
    rw [dateToNumber_eq (by omega) (by omega) (by omega), Nat.add_sub_cancel]
    unfold Century
    by_cases h4 : y % 4 = 0
    · rw [if_pos h4] at hyear
      cases hl : isleap y with
      | true =>
        rw [hl] at hend h12
        refine iff_of_true (by simp only [if_true] at hend; omega) ?_
        rintro ⟨⟨-, hf⟩, -⟩
        cases hf
      | false =>
        rw [hl] at hend h12
        refine iff_of_false (by simp only [Bool.false_eq_true, if_false] at hend; omega) ?_
        exact not_not.mpr ⟨⟨h4, rfl⟩, rfl, hday⟩
    · have hl : isleap y = false := by
        by_contra hl
        exact h4 (isleap_mod (by simpa using hl))
      rw [if_neg h4] at hyear
      rw [hl] at hend h12 ⊢
      refine iff_of_true (by simp only [Bool.false_eq_true, if_false] at hend; omega) ?_
      rintro ⟨⟨h, -⟩, -⟩
      exact h4 h

/-- The number behind the end of a century year that is no leap year is that of no day. -/
theorem numberRight_iff {epoch n : Nat} (h : DayNumber epoch n) :
    NumberRight n ↔ ∀ y, 100 ≤ y → y ≤ 9999 → Century y → n ≠ dateToNumber epoch 31 12 y + 1 := by
  obtain ⟨hlow, hhigh⟩ := h
  have hmax : dateToNumber epoch 31 12 9999 = BASEDAY + yeartoday 9998 + 365 := dateToNumber_eq (by omega) (by omega) (by decide)
  have h9998 : yeartoday 9998 = 3651769 := rfl
  obtain ⟨y, dd, hy, htd, h1, h2⟩ := @exists_year (n - BASEDAY) (by omega)
  have hn : n = BASEDAY + yeartoday (y - 1) + dd := by omega
  have hyle : y ≤ 9999 := by
    by_contra hgt
    have : 3652134 ≤ yeartoday (y - 1) := by
      unfold yeartoday
      omega
    omega
  subst hn
  unfold NumberRight
  rw [nToMdy_eq hy (by omega) h1 h2]
  have hend := monthStart_end (isleap y)
  -- the end of a century year that is looked at is that of this year
  have hcentury : ∀ y', 100 ≤ y' → y' ≤ 9999 → Century y' → (BASEDAY + yeartoday (y - 1) + dd = dateToNumber epoch 31 12 y' + 1 ↔ y' = y ∧ dd = 366) := by
    intro y' hy' hle' hc
    have hdec : 31 + monthStart (isleap y') 12 = 365 := by
      rw [hc.2]
      rfl
    rw [dateToNumber_eq hy' (by omega) (by omega), hdec]
    have hsame := yearOf_spec hy h1 h2
    have hother := @yearOf_spec y' 366 (by omega) (by omega) (by rw [if_pos hc.1])
    constructor
    · intro heq
      rw [show yeartoday (y - 1) + dd = yeartoday (y' - 1) + 366 by omega, hother, if_pos rfl] at hsame
      split at hsame
      · exact ⟨by omega, by assumption⟩
      · obtain rfl : y = y' + 1 := by omega
        have hsucc := yeartoday_succ (y := y') (by omega)
        rw [if_pos hc.1] at hsucc
        rw [Nat.add_sub_cancel] at heq
        omega
    · rintro ⟨rfl, rfl⟩
      rfl
  rcases @findMonth_cases (isleap y) 12 1 dd le_rfl h1 with ⟨m, day, hf, hm1, hm, hd1, hd, hsum⟩ | ⟨hf, hlt⟩
  · rw [hf]
    refine iff_of_true ⟨m, day, y, rfl, hm1, by omega, hd1, hd⟩ fun y' hy' hle' hc heq => ?_
    obtain ⟨rfl, rfl⟩ := (hcentury y' hy' hle' hc).mp heq
    have hstart := @monthStart_le (isleap y') m (by omega) hm1
    have hzero : monthStart (isleap y') 1 = 0 := rfl
    rw [hc.2] at hstart hsum hd hzero
    simp only [Bool.false_eq_true, if_false] at hstart
    omega
  · rw [hf]
    change monthStart (isleap y) 13 < dd + 0 at hlt
    -- only the 366th day of a year without it is left
    have hdd : dd = 366 ∧ Century y := by
      cases hl : isleap y with
      | true =>
        rw [hl] at hlt hend
        simp only [if_true] at hend
        split at h2 <;> omega
      | false =>
        rw [hl] at hlt hend
        simp only [Bool.false_eq_true, if_false] at hend
        split at h2
        · exact ⟨by omega, by assumption, hl⟩
        · omega
    have hy100 : 100 ≤ y := by
      have := (century_iff y).mp hdd.2
      omega
    refine iff_of_false ?_ fun h => ?_
    · rintro ⟨m, day, year, hnone, -⟩
      cases hnone
    · exact h y hy100 hyle hdd.2 ((hcentury y hy100 hyle hdd.2).mpr ⟨rfl, hdd.1⟩)

/-- The conversion follows the calendar exactly away from the ends of the century years that are no leap years. -/
theorem calendar_iff {epoch year month day n : Nat} (hd : Valid epoch year month day) (hn : DayNumber epoch n) :
    DateRight epoch year month day ∧ NumberRight n ↔
      ¬(Century year ∧ month = 12 ∧ day = 31) ∧ ∀ y, 100 ≤ y → y ≤ 9999 → Century y → n ≠ dateToNumber epoch 31 12 y + 1 := by
  unfold DateRight
  rw [and_iff_right (nToMdy_date hd), nextDay_number hd, numberRight_iff hn]

theorem calendar_iff_2000 : DateRight 1950 2000 2 29 ∧ NumberRight 2451960 ↔
    ¬(Century 2000 ∧ 2 = 12 ∧ 29 = 31) ∧ ∀ y, 100 ≤ y → y ≤ 9999 → Century y → 2451960 ≠ dateToNumber 1950 31 12 y + 1 :=
  calendar_iff ⟨by decide, by decide, by decide⟩ ⟨by decide, by decide⟩

/-- The day after the end of 1900. -/
theorem calendar_fails : Valid 1950 1900 12 31 ∧ DayNumber 1950 (dateToNumber 1950 31 12 1900 + 1) ∧
    ¬(DateRight 1950 1900 12 31) ∧ ¬NumberRight (dateToNumber 1950 31 12 1900 + 1) := by
  refine ⟨⟨by decide, by decide, by decide⟩, ⟨by decide, by decide⟩, ?_, ?_⟩
  · rintro ⟨-, h⟩
    revert h
    decide
  · rintro ⟨m, day, y, h, -⟩
    rw [show nToMdy (dateToNumber 1950 31 12 1900 + 1) = none by decide] at h
    cases h

end Db3w.Hb
