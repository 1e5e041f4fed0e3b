import Mathlib.Tactic.IntervalCases
import Mathlib.Tactic.Ring

/-!
# The Gregorian calendar

The calendar extended to all years, before and after its introduction.  Every day has a number, that
of 1970-01-01 being 0, and every number is that of exactly one date.

Programs compute dates with years that begin in March, so that the leap day is the last of its year.
Four centuries of such years are 146097 days, a century in them is 36524 days and a further one for
the last, four years are 1461 and one year is 365 with a further one for the last of four.
-/

namespace Gregorian

/-! ## Dates -/

/-- A leap year has a 29th of February. -/
def IsLeap (y : ℤ) : Prop := 4 ∣ y ∧ (¬ 100 ∣ y ∨ 400 ∣ y)

instance (y : ℤ) : Decidable (IsLeap y) := inferInstanceAs (Decidable (_ ∧ _))

/-- The number of days of a month. -/
def monthLength (y : ℤ) (m : ℕ) : ℕ :=
  if m = 2 then (if IsLeap y then 29 else 28)
  else if m = 4 ∨ m = 6 ∨ m = 9 ∨ m = 11 then 30
  else 31

/-- A date that the calendar has. -/
@[ext]
structure Date where
  year : ℤ
  month : ℕ
  day : ℕ
  month_pos : 1 ≤ month
  month_le : month ≤ 12
  day_pos : 1 ≤ day
  day_le : day ≤ monthLength year month

theorem monthLength_pos (y : ℤ) (m : ℕ) : 28 ≤ monthLength y m := by
  unfold monthLength
  split_ifs <;> omega

theorem monthLength_le (y : ℤ) (m : ℕ) : monthLength y m ≤ 31 := by
  unfold monthLength
  split_ifs <;> omega

/-! ## The numbers of days -/

/-- The days before a month in its year. -/
def daysBeforeMonth (y : ℤ) (m : ℕ) : ℕ := ((List.range' 1 (m - 1)).map (monthLength y)).sum

/-- The number of the first day of a year. -/
def yearStart (y : ℤ) : ℤ := 365 * y + (y + 3) / 4 - (y + 99) / 100 + (y + 399) / 400 - 719528

/-- The number of days of a year. -/
def yearLength (y : ℤ) : ℤ := if IsLeap y then 366 else 365

/-- A year begins when the one before it ends. -/
theorem yearStart_succ (y : ℤ) : yearStart (y + 1) = yearStart y + yearLength y := by
  unfold yearStart yearLength IsLeap
  split_ifs with h <;> omega

/-- The months of a year are the year. -/
theorem daysBeforeMonth_thirteen (y : ℤ) : (daysBeforeMonth y 13 : ℤ) = yearLength y := by
  unfold yearLength
  by_cases h : IsLeap y <;> simp [daysBeforeMonth, List.range', monthLength, h]

theorem daysBeforeMonth_succ (y : ℤ) {m : ℕ} (h : 1 ≤ m) :
    daysBeforeMonth y (m + 1) = daysBeforeMonth y m + monthLength y m := by
  obtain ⟨k, rfl⟩ := Nat.exists_eq_add_of_le' h
  simp [daysBeforeMonth, List.range'_concat, Nat.add_comm]

namespace Date

/-- The number of a day. -/
def dayNumber (d : Date) : ℤ := yearStart d.year + daysBeforeMonth d.year d.month + d.day - 1

/-- The first of January 1970. -/
def epoch : Date := ⟨1970, 1, 1, by decide, by decide, by decide, by decide⟩

theorem dayNumber_epoch : epoch.dayNumber = 0 := by decide

/-- The next day. -/
def next (d : Date) : Date :=
  if h : d.day < monthLength d.year d.month then
    { d with day := d.day + 1, day_pos := by omega, day_le := h }
  else if h : d.month < 12 then
    { year := d.year, month := d.month + 1, day := 1, month_pos := by omega, month_le := h,
      day_pos := le_rfl, day_le := (monthLength_pos _ _).trans' (by decide) }
  else
    { year := d.year + 1, month := 1, day := 1, month_pos := le_rfl, month_le := by decide,
      day_pos := le_rfl, day_le := (monthLength_pos _ _).trans' (by decide) }

/-- The next day has the next number. -/
theorem dayNumber_next (d : Date) : d.next.dayNumber = d.dayNumber + 1 := by
  have hday := d.day_le
  have hmonth := d.month_le
  unfold next
  split_ifs with hd hm
  · simp only [dayNumber]
    omega
  · simp only [dayNumber, daysBeforeMonth_succ _ d.month_pos]
    omega
  · have htwelve : d.month = 12 := by omega
    rw [htwelve] at hday hd
    have hyear : daysBeforeMonth d.year 13 = daysBeforeMonth d.year 12 + monthLength d.year 12 :=
      daysBeforeMonth_succ d.year (by decide)
    have hlength := daysBeforeMonth_thirteen d.year
    have hfirst : daysBeforeMonth (d.year + 1) 1 = 0 := rfl
    simp only [dayNumber, yearStart_succ, htwelve, hfirst]
    omega

/-- Every day is the next of one. -/
theorem exists_next (d : Date) : ∃ d', next d' = d := by
  have hday := d.day_le
  have hmonth := d.month_le
  by_cases hd : 1 < d.day
  · refine ⟨{ d with day := d.day - 1, day_pos := by omega, day_le := by omega }, ?_⟩
    have hlt : d.day - 1 < monthLength d.year d.month := by omega
    ext
    all_goals simp only [next, dif_pos hlt]
    omega
  have hfirst : d.day = 1 := le_antisymm (by omega) d.day_pos
  by_cases hm : 1 < d.month
  · refine ⟨⟨d.year, d.month - 1, monthLength d.year (d.month - 1), by omega, by omega,
      (monthLength_pos _ _).trans' (by decide), le_rfl⟩, ?_⟩
    have hlt : d.month - 1 < 12 := by omega
    ext
    all_goals simp only [next, dif_neg (lt_irrefl _), dif_pos hlt]
    · omega
    · exact hfirst.symm
  · have hjanuary : d.month = 1 := le_antisymm (by omega) d.month_pos
    refine ⟨⟨d.year - 1, 12, 31, by decide, le_rfl, by decide, by simp [monthLength]⟩, ?_⟩
    have hlength : ¬ 31 < monthLength (d.year - 1) 12 := by simp [monthLength]
    ext
    all_goals simp only [next, dif_neg hlength, dif_neg (lt_irrefl _)]
    · omega
    · exact hjanuary.symm
    · exact hfirst.symm

/-- Every number is that of a day. -/
theorem exists_dayNumber (n : ℤ) : ∃ d : Date, d.dayNumber = n := by
  induction n using Int.induction_on with
  | zero => exact ⟨epoch, dayNumber_epoch⟩
  | succ n ih =>
      obtain ⟨d, hd⟩ := ih
      exact ⟨d.next, by rw [dayNumber_next, hd]⟩
  | pred n ih =>
      obtain ⟨d, hd⟩ := ih
      obtain ⟨d', rfl⟩ := exists_next d
      exact ⟨d', by rw [dayNumber_next] at hd; omega⟩

/-! ## Years that begin in March -/

/-- The year that began in the March before a day. -/
def marchYear (d : Date) : ℤ := if d.month ≤ 2 then d.year - 1 else d.year

/-- The months since that March. -/
def marchMonth (d : Date) : ℤ := if d.month ≤ 2 then d.month + 9 else d.month - 3

/-- The days since the first of that March. -/
def marchDay (d : Date) : ℤ := (153 * d.marchMonth + 2) / 5 + d.day - 1

theorem daysBeforeMonth_of_le_two (y : ℤ) {m : ℕ} (hpos : 1 ≤ m) (hle : m ≤ 2) :
    (daysBeforeMonth y m : ℤ) = 31 * ((m : ℤ) - 1) := by
  interval_cases m <;> simp [daysBeforeMonth, monthLength]

/-- The days before a month from March on, by the rule of five months of 153 days. -/
theorem daysBeforeMonth_of_two_lt (y : ℤ) {m : ℕ} (hpos : 2 < m) (hle : m ≤ 12) :
    (daysBeforeMonth y m : ℤ) =
      (153 * ((m : ℤ) - 3) + 2) / 5 + 59 + (if IsLeap y then 1 else 0) := by
  by_cases h : IsLeap y <;> interval_cases m <;> simp [daysBeforeMonth, List.range', monthLength, h]

/-- The leap days up to a year, counted up to its beginning and up to its March. -/
theorem leapDays_eq (y : ℤ) : (y + 3) / 4 - (y + 99) / 100 + (y + 399) / 400 +
    (if IsLeap y then 1 else 0) = y / 4 - y / 100 + y / 400 + 1 := by
  unfold IsLeap
  split_ifs with h <;> omega

theorem dayNumber_eq (d : Date) : d.dayNumber + 719468 =
    365 * d.marchYear + d.marchYear / 4 - d.marchYear / 100 + d.marchYear / 400 + d.marchDay := by
  simp only [dayNumber, marchDay, marchYear, marchMonth, yearStart]
  by_cases hm : d.month ≤ 2
  · have hbefore := daysBeforeMonth_of_le_two d.year d.month_pos hm
    simp only [if_pos hm]
    have hpos := d.month_pos
    omega
  · have hbefore := daysBeforeMonth_of_two_lt d.year (not_le.1 hm) d.month_le
    have hleap := leapDays_eq d.year
    simp only [if_neg hm]
    omega

theorem marchMonth_mem (d : Date) : 0 ≤ d.marchMonth ∧ d.marchMonth ≤ 11 := by
  have hpos := d.month_pos
  have hle := d.month_le
  unfold marchMonth
  split_ifs <;> omega

/-- A month ends before the next one begins, and February when its year is over. -/
theorem day_add_le (d : Date) : (153 * d.marchMonth + 2) / 5 + d.day ≤
      (153 * (d.marchMonth + 1) + 2) / 5 ∧
    (d.marchMonth = 11 → d.day ≤ if IsLeap (d.marchYear + 1) then 29 else 28) := by
  obtain ⟨y, m, day, hpos, hle, hday, hlast⟩ := d
  simp only [marchMonth, marchYear]
  have hlong : (if IsLeap y then 29 else 28) ≤ 29 := by
    split_ifs <;> omega
  constructor
  · interval_cases m <;> simp [monthLength] at hlast ⊢ <;> omega
  · intro hm
    have hfebruary : m = 2 := by
      split_ifs at hm <;> omega
    subst hfebruary
    simpa [monthLength] using hlast

/-- The days since a March, and when they are as many as can be. -/
theorem marchDay_mem (d : Date) : 0 ≤ d.marchDay ∧ d.marchDay ≤ 365 ∧
    (d.marchDay = 365 → IsLeap (d.marchYear + 1)) := by
  have hday := d.day_pos
  obtain ⟨hnext, hfebruary⟩ := d.day_add_le
  obtain ⟨h0, h11⟩ := d.marchMonth_mem
  unfold marchDay
  by_cases hm : d.marchMonth = 11
  · have hlast := hfebruary hm
    rw [hm]
    split_ifs at hlast with hleap
    · exact ⟨by omega, by omega, fun _ => hleap⟩
    · exact ⟨by omega, by omega, fun h => absurd h (by omega)⟩
  · exact ⟨by omega, by omega, fun h => absurd h (by omega)⟩

end Date

/-! ## Dates computed -/

/-- The date of a day number, as year, month and day. -/
def civilOfDay (n : ℤ) : ℤ × ℤ × ℤ :=
  let z := n + 719468
  let era := z / 146097
  let doe := z - era * 146097
  let yoe := (doe - doe / 1460 + doe / 36524 - doe / 146096) / 365
  let doy := doe - (365 * yoe + yoe / 4 - yoe / 100)
  let mp := (5 * doy + 2) / 153
  let m := if mp < 10 then mp + 3 else mp - 9
  (if m ≤ 2 then yoe + era * 400 + 1 else yoe + era * 400, m, doy - (153 * mp + 2) / 5 + 1)

/-- The number of the day of a date. -/
def dayOfCivil (y m d : ℤ) : ℤ :=
  let y := if m ≤ 2 then y - 1 else y
  let era := y / 400
  let yoe := y - era * 400
  let mp := if m > 2 then m - 3 else m + 9
  let doy := (153 * mp + 2) / 5 + d - 1
  era * 146097 + (yoe * 365 + yoe / 4 - yoe / 100 + doy) - 719468

/-- A day within four centuries: `c` centuries, `q` times four years, `t` years and `u` days, where
the last day of a time is the 366th of its last year. -/
structure IsSplit (doe c q t u : ℤ) : Prop where
  eq : doe = 36524 * c + 1461 * q + 365 * t + u
  c_mem : 0 ≤ c ∧ c ≤ 3
  q_mem : 0 ≤ q ∧ q ≤ 24
  t_mem : 0 ≤ t ∧ t ≤ 3
  u_mem : 0 ≤ u ∧ u ≤ 365
  last : u = 365 → t = 3 ∧ (q = 24 → c = 3)

namespace IsSplit

variable {doe c q t u : ℤ}

theorem doe_mem (h : IsSplit doe c q t u) : 0 ≤ doe ∧ doe ≤ 146096 := by
  obtain ⟨heq, hc, hq, ht, hu, hlast⟩ := h
  omega

/-- The year, computed from the day. -/
theorem year_eq (h : IsSplit doe c q t u) :
    (doe - doe / 1460 + doe / 36524 - doe / 146096) / 365 = 100 * c + 4 * q + t := by
  obtain ⟨heq, hc, hq, ht, hu, hlast⟩ := h
  have hcenturies : doe / 36524 - doe / 146096 = c := by
    have hcases : 1461 * q + 365 * t + u < 36524 ∨ doe = 146096 ∧ c = 3 := by omega
    rcases hcases with hwithin | ⟨hfinal, hc3⟩
    · have hcentury : doe / 36524 = c := by omega
      have hnot : doe / 146096 = 0 := by omega
      omega
    · rw [hfinal, hc3]
      norm_num
  have hcorrection : 25 * c + q ≤ doe / 1460 ∧ doe / 1460 ≤ 25 * c + q + 1 := by omega
  have hlow : 0 ≤ 25 * c + q + u - doe / 1460 := by omega
  have hhigh : 25 * c + q + u - doe / 1460 ≤ 364 := by omega
  omega

/-- The day in the year, computed from the day. -/
theorem day_eq (h : IsSplit doe c q t u) {yoe : ℤ} (hyoe : yoe = 100 * c + 4 * q + t) :
    doe - (365 * yoe + yoe / 4 - yoe / 100) = u := by
  obtain ⟨heq, hc, hq, ht, -, -⟩ := h
  have hfour : yoe / 4 = 25 * c + q := by omega
  have hhundred : yoe / 100 = c := by omega
  omega

end IsSplit

namespace Date

/-- The four centuries that a date is in, and the day of it in them. -/
theorem exists_split (d : Date) : ∃ era c q t, d.marchYear = 100 * c + 4 * q + t + era * 400 ∧
    IsSplit (d.dayNumber + 719468 - era * 146097) c q t d.marchDay := by
  obtain ⟨h0, h365, hlast⟩ := d.marchDay_mem
  have hnumber := d.dayNumber_eq
  have hleap : d.marchDay = 365 → 4 ∣ d.marchYear + 1 ∧
      (¬ 100 ∣ d.marchYear + 1 ∨ 400 ∣ d.marchYear + 1) := hlast
  generalize hY : d.marchYear = y at *
  refine ⟨y / 400, y % 400 / 100, y % 100 / 4, y % 4, by omega, ⟨?_, ?_, ?_, ?_, ⟨h0, h365⟩, ?_⟩⟩
  · omega
  · omega
  · omega
  · omega
  · intro h
    obtain ⟨h4, hcentury⟩ := hleap h
    omega

/-- The month and the day, computed from the days since March. -/
theorem month_eq (d : Date) : (5 * d.marchDay + 2) / 153 = d.marchMonth ∧
    d.marchDay - (153 * d.marchMonth + 2) / 5 + 1 = d.day := by
  have hday := d.day_pos
  have hnext := d.day_add_le.1
  obtain ⟨h0, h11⟩ := d.marchMonth_mem
  unfold marchDay
  generalize d.marchMonth = m at *
  constructor
  · interval_cases m <;> omega
  · omega

/-- **The date computed from a day number is the date of that day.** -/
theorem civilOfDay_dayNumber (d : Date) :
    civilOfDay d.dayNumber = (d.year, (d.month : ℤ), (d.day : ℤ)) := by
  obtain ⟨era, c, q, t, hyear, hsplit⟩ := d.exists_split
  obtain ⟨hmonth, hday⟩ := d.month_eq
  obtain ⟨hlow, hhigh⟩ := hsplit.doe_mem
  have hera : (d.dayNumber + 719468) / 146097 = era := by omega
  have hyoe := hsplit.year_eq
  have hdoy := hsplit.day_eq rfl
  unfold civilOfDay
  simp only [hera, hyoe, hdoy, hmonth, hday]
  have hback : (if d.marchMonth < 10 then d.marchMonth + 3 else d.marchMonth - 9) = d.month := by
    have hpos := d.month_pos
    have hle := d.month_le
    unfold marchMonth
    split_ifs <;> omega
  rw [hback, ← hyear]
  unfold marchYear
  split_ifs <;> simp <;> omega

/-- **The day number computed from a date is the number of that day.** -/
theorem dayOfCivil_date (d : Date) : dayOfCivil d.year d.month d.day = d.dayNumber := by
  have hnumber := d.dayNumber_eq
  have hyear : (if (d.month : ℤ) ≤ 2 then d.year - 1 else d.year) = d.marchYear := by
    simp [marchYear]
  have hmonth : (if (d.month : ℤ) > 2 then (d.month : ℤ) - 3 else d.month + 9) = d.marchMonth := by
    unfold marchMonth
    split_ifs <;> omega
  unfold marchDay at hnumber
  unfold dayOfCivil
  simp only [hyear, hmonth]
  omega

/-- No two days have the same number. -/
theorem dayNumber_injective : Function.Injective dayNumber := by
  intro d d' h
  have heq := d.civilOfDay_dayNumber
  rw [h, d'.civilOfDay_dayNumber, Prod.mk.injEq, Prod.mk.injEq, Nat.cast_inj, Nat.cast_inj] at heq
  exact Date.ext heq.1.symm heq.2.1.symm heq.2.2.symm

end Date

end Gregorian
