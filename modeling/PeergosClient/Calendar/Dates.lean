import PeergosClient.Archive.Parse
import PeergosClient.Lib.Decimal
import PeergosClient.Lib.Gregorian

/-!
# Dates from days and days from dates

Four parts of the program turn a number of days or seconds since 1970 into a date, each with a copy
of the same computation: archives, the signing of block requests, the claims of a name that is
migrated, and the folders of chat media.  Two turn a date into a number of days.  Division rounds
towards zero, so the copies that may see a negative number correct it first.
-/

namespace Peergos

open Gregorian Decimal

/-! ## The computations -/

/-- What the copies share, from the four centuries on: the year, the month and the day, counted from
March. -/
def fromEra (z era : ℤ) : ℤ × ℤ × ℤ :=
  let doe := z - era * 146097
  let yoe := (doe - doe.tdiv 1460 + doe.tdiv 36524 - doe.tdiv 146096).tdiv 365
  let y := yoe + era * 400
  let doy := doe - (365 * yoe + yoe.tdiv 4 - yoe.tdiv 100)
  let mp := (5 * doy + 2).tdiv 153
  (y, mp, doy - (153 * mp + 2).tdiv 5 + 1)

/-- `era`, where the division rounds towards zero. -/
def eraOf (z : ℤ) : ℤ := (if z ≥ 0 then z else z - 146096).tdiv 146097

/-- `civil_from_days`. -/
def civilFromDays (days : ℤ) : ℤ × ℤ × ℤ :=
  let z := days + 719468
  let (y, mp, d) := fromEra z (eraOf z)
  let m := mp + if mp < 10 then 3 else -9
  (y + if m ≤ 2 then 1 else 0, m, d)

/-- `civil_from_epoch_secs`: the date and the time of the day. -/
def civilFromEpochSecs (secs : ℤ) : (ℤ × ℤ × ℤ) × (ℤ × ℤ × ℤ) :=
  let days := secs / 86400
  let rem := secs % 86400
  let z := days + 719468
  let (y, mp, d) := fromEra z (z / 146097)
  let m := if mp < 10 then mp + 3 else mp - 9
  ((if m ≤ 2 then y + 1 else y, m, d), rem.tdiv 3600, (rem.tmod 3600).tdiv 60, rem.tmod 60)

/-- `year_month`. -/
def yearMonth (epochSecs : ℤ) : ℤ × ℕ :=
  let days := epochSecs / 86400
  let z := days + 719468
  let (y, mp, _) := fromEra z (eraOf z)
  let m := if mp < 10 then mp + 3 else mp - 9
  (if m ≤ 2 then y + 1 else y, (m % 2 ^ 32).toNat)

/-- `format!("{y:04}-{m:02}-{d:02}")`. -/
def isoDate (y m d : ℤ) : List Char := padded 4 y ++ '-' :: (padded 2 m ++ '-' :: padded 2 d)

/-- `epoch_days_to_date`. -/
def epochDaysToDate (days : ℤ) : List Char :=
  let z := days + 719468
  let (y, mp, d) := fromEra z (eraOf z)
  let m := if mp < 10 then mp + 3 else mp - 9
  isoDate (y + if m ≤ 2 then 1 else 0) m d

/-- `str::parse::<i64>`. -/
def parseI64 (text : List Char) : Option ℤ := readInt (-2 ^ 63) (2 ^ 63 - 1) text

/-- `date_to_epoch_days`. -/
def dateToEpochDays (date : List Char) : Option ℤ := do
  let parts := date.splitOn '-'
  let y ← parts[0]?.bind parseI64
  let m ← parts[1]?.bind parseI64
  let d ← parts[2]?.bind parseI64
  let y := if m ≤ 2 then y - 1 else y
  let era := (if y ≥ 0 then y else y - 399).tdiv 400
  let yoe := y - era * 400
  let mp := if m > 2 then m - 3 else m + 9
  let doy := (153 * mp + 2).tdiv 5 + d - 1
  let doe := yoe * 365 + yoe.tdiv 4 - yoe.tdiv 100 + doy
  some (era * 146097 + doe - 719468)

/-! ## Dates from days -/

/-- The correction makes a division that rounds towards zero round down. -/
theorem tdiv_corrected (z : ℤ) {k : ℤ} (hk : 0 < k) :
    (if z ≥ 0 then z else z - (k - 1)).tdiv k = z / k := by
  by_cases h : z ≥ 0
  · rw [if_pos h, Int.tdiv_eq_ediv_of_nonneg h]
  · have hsplit := Int.mul_ediv_add_emod z k
    have hrem := Int.emod_nonneg z hk.ne'
    have hlt := Int.emod_lt_of_pos z hk
    have hneg : z - (k - 1) = -(k - 1 - z % k + k * -(z / k)) := by linarith
    rw [if_neg h, hneg, Int.neg_tdiv, Int.tdiv_eq_ediv_of_nonneg (by linarith),
      Int.add_mul_ediv_left _ _ hk.ne', Int.ediv_eq_zero_of_lt (by linarith) (by linarith)]
    ring

theorem eraOf_eq (z : ℤ) : eraOf z = z / 146097 := tdiv_corrected z (k := 146097) (by norm_num)

/-- The shared computation gives the date, its year and month counted from March. -/
theorem fromEra_dayNumber (d : Date) :
    fromEra (d.dayNumber + 719468) ((d.dayNumber + 719468) / 146097) =
      (d.marchYear, d.marchMonth, (d.day : ℤ)) := by
  obtain ⟨era, c, q, t, hyear, hsplit⟩ := d.exists_split
  obtain ⟨hmonth, hday⟩ := d.month_eq
  obtain ⟨hlow, hhigh⟩ := hsplit.doe_mem
  have hera : (d.dayNumber + 719468) / 146097 = era := by omega
  have hyoe := hsplit.year_eq
  have hdoy := hsplit.day_eq rfl
  have hm := d.marchMonth_mem.1
  obtain ⟨hu, -⟩ := hsplit.u_mem
  have hcq : 0 ≤ 100 * c + 4 * q + t := by
    have := hsplit.c_mem
    have := hsplit.q_mem
    have := hsplit.t_mem
    omega
  have hnum : 0 ≤ d.dayNumber + 719468 - era * 146097 -
      (d.dayNumber + 719468 - era * 146097) / 1460 +
      (d.dayNumber + 719468 - era * 146097) / 36524 -
      (d.dayNumber + 719468 - era * 146097) / 146096 := by omega
  unfold fromEra
  simp only [hera, Int.tdiv_eq_ediv_of_nonneg hlow, Int.tdiv_eq_ediv_of_nonneg hnum, hyoe,
    Int.tdiv_eq_ediv_of_nonneg hcq, hdoy]
  have hmp : (5 * d.marchDay + 2).tdiv 153 = d.marchMonth := by
    rw [Int.tdiv_eq_ediv_of_nonneg (by omega), hmonth]
  rw [hmp, Int.tdiv_eq_ediv_of_nonneg (by omega), hday, hyear]

section

variable (d : Date)

/-- The month of the calendar. -/
theorem month_of_marchMonth :
    (if d.marchMonth < 10 then d.marchMonth + 3 else d.marchMonth - 9) = d.month := by
  have hpos := d.month_pos
  have hle := d.month_le
  unfold Date.marchMonth
  split_ifs <;> omega

/-- The year of the calendar. -/
theorem year_of_marchYear :
    (if (d.month : ℤ) ≤ 2 then d.marchYear + 1 else d.marchYear) = d.year := by
  unfold Date.marchYear
  split_ifs <;> omega

theorem civilFromDays_dayNumber :
    civilFromDays d.dayNumber = (d.year, (d.month : ℤ), (d.day : ℤ)) := by
  have hmonth : d.marchMonth + (if d.marchMonth < 10 then 3 else -9) = d.month := by
    rw [← month_of_marchMonth d]
    split_ifs <;> omega
  have hyear : d.marchYear + (if (d.month : ℤ) ≤ 2 then 1 else 0) = d.year := by
    rw [← year_of_marchYear d]
    split_ifs <;> omega
  simp only [civilFromDays, eraOf_eq, fromEra_dayNumber, hmonth, hyear]

/-- The time of the day, from the seconds of it. -/
def timeOfDay (rem : ℤ) : ℤ × ℤ × ℤ := (rem / 3600, rem % 3600 / 60, rem % 60)

theorem civilFromEpochSecs_eq {secs : ℤ} (h : secs / 86400 = d.dayNumber) :
    civilFromEpochSecs secs = ((d.year, (d.month : ℤ), (d.day : ℤ)), timeOfDay (secs % 86400)) := by
  have hrem : 0 ≤ secs % 86400 := Int.emod_nonneg _ (by norm_num)
  have hmod := Int.tmod_eq_emod_of_nonneg (b := 3600) hrem
  have hmod' := Int.tmod_eq_emod_of_nonneg (b := 60) hrem
  have hdiv := Int.tdiv_eq_ediv_of_nonneg (b := 3600) hrem
  have hdiv' := Int.tdiv_eq_ediv_of_nonneg (b := 60)
    (Int.emod_nonneg (secs % 86400) (b := 3600) (by norm_num))
  simp only [civilFromEpochSecs, h, fromEra_dayNumber, month_of_marchMonth, year_of_marchYear,
    timeOfDay, hmod, hmod', hdiv, hdiv']

theorem yearMonth_eq {secs : ℤ} (h : secs / 86400 = d.dayNumber) :
    yearMonth secs = (d.year, d.month) := by
  have hle := d.month_le
  simp only [yearMonth, h, eraOf_eq, fromEra_dayNumber, month_of_marchMonth, year_of_marchYear]
  congr 1
  omega

theorem epochDaysToDate_dayNumber :
    epochDaysToDate d.dayNumber = isoDate d.year d.month d.day := by
  have hyear : d.marchYear + (if (d.month : ℤ) ≤ 2 then 1 else 0) = d.year := by
    rw [← year_of_marchYear d]
    split_ifs <;> omega
  simp only [epochDaysToDate, eraOf_eq, fromEra_dayNumber, month_of_marchMonth, hyear]

/-! ## Days from dates -/

/-- The computation of a day number, where the division rounds towards zero. -/
theorem dayOfCivil_truncated (y e : ℤ) {m : ℤ} (hm : 1 ≤ m) :
    let era := (if y ≥ 0 then y else y - 399).tdiv 400
    let yoe := y - era * 400
    let mp := if m > 2 then m - 3 else m + 9
    era * 146097 + (yoe * 365 + yoe.tdiv 4 - yoe.tdiv 100 + ((153 * mp + 2).tdiv 5 + e - 1)) -
        719468 =
      y / 400 * 146097 + ((y - y / 400 * 400) * 365 + (y - y / 400 * 400) / 4 -
        (y - y / 400 * 400) / 100 + ((153 * mp + 2) / 5 + e - 1)) - 719468 := by
  have hera : (if y ≥ 0 then y else y - 399).tdiv 400 = y / 400 :=
    tdiv_corrected y (k := 400) (by norm_num)
  have hyoe : 0 ≤ y - y / 400 * 400 := by omega
  have hmonths : 0 ≤ 153 * (if m > 2 then m - 3 else m + 9) + 2 := by
    split_ifs <;> omega
  simp only [hera, Int.tdiv_eq_ediv_of_nonneg hyoe, Int.tdiv_eq_ediv_of_nonneg hmonths]

theorem daysFromCivil_date : daysFromCivil d.year d.month d.day = d.dayNumber := by
  have hm : (1 : ℤ) ≤ d.month := by exact_mod_cast d.month_pos
  have hmonths : (d.month : ℤ) + (if (d.month : ℤ) > 2 then -3 else 9) =
      if (d.month : ℤ) > 2 then (d.month : ℤ) - 3 else d.month + 9 := by
    split_ifs <;> omega
  rw [← d.dayOfCivil_date]
  simp only [daysFromCivil, hmonths]
  exact dayOfCivil_truncated _ _ hm

theorem splitOn_isoDate (y m e : ℕ) :
    (isoDate y m e).splitOn '-' = [padded 4 y, padded 2 m, padded 2 e] := by
  have hdash : ∀ width n : ℕ, '-' ∉ padded width n := fun width n h =>
    absurd (isDigit_of_mem_padded h) (by decide)
  rw [isoDate, List.splitOn_append_cons_self_of_not_mem (hdash 4 y),
    List.splitOn_append_cons_self_of_not_mem (hdash 2 m), List.splitOn_eq_singleton (hdash 2 e)]

theorem parseI64_padded (width : ℕ) {n : ℕ} (h : n < 2 ^ 63) :
    parseI64 (padded width n) = some (n : ℤ) :=
  readInt_padded (by omega) (by omega)

/-- A date that is written out is read back. -/
theorem dateToEpochDays_isoDate (hyear : 0 ≤ d.year) (hfour : d.year ≤ 9999) :
    dateToEpochDays (isoDate d.year d.month d.day) = some d.dayNumber := by
  obtain ⟨y, hy⟩ := Int.eq_ofNat_of_zero_le hyear
  have hm : (1 : ℤ) ≤ d.month := by exact_mod_cast d.month_pos
  have hmonth := d.month_le
  have hday := d.day_le.trans (monthLength_le _ _)
  have hcompute := dayOfCivil_truncated (if (d.month : ℤ) ≤ 2 then d.year - 1 else d.year) d.day hm
  have hvalue := d.dayOfCivil_date
  simp only [dayOfCivil] at hvalue
  rw [← hvalue, ← hcompute]
  simp only [dateToEpochDays, hy, splitOn_isoDate, List.getElem?_cons_zero,
    List.getElem?_cons_succ, Option.bind_some, parseI64_padded 4 (n := y) (by omega),
    parseI64_padded 2 (n := d.month) (by omega), parseI64_padded 2 (n := d.day) (by omega),
    Option.bind_eq_bind]

end

end Peergos
