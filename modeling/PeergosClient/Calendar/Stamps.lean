import PeergosClient.Calendar.Dates
import PeergosClient.Fs.ValidUtf8

/-!
# Times packed into numbers

A block request is signed with the time it was made, which is sent as one number with the parts of
the time in its bits, and an archive keeps the times of its files as the pairs of 16 bits that were
used before.  Both give the time back that was packed.
-/

namespace Peergos

open Gregorian Decimal ByteOrder

/-! ## Bits of a number that is not negative -/

section Bits

theorem toNat_smod_sixtyFour : ∀ k < 64, ((BitVec.ofNat 64 k).smod 64#64).toNat = k := by
  decide +kernel

theorem ofNat_or (a b : ℕ) : Int64.ofNat a ||| Int64.ofNat b = Int64.ofNat (a ||| b) := by
  apply Int64.toBitVec_inj.1
  simp [Int64.toBitVec_ofNat', BitVec.ofNat_or]

theorem ofNat_and (a b : ℕ) : Int64.ofNat a &&& Int64.ofNat b = Int64.ofNat (a &&& b) := by
  apply Int64.toBitVec_inj.1
  simp [Int64.toBitVec_ofNat']

theorem ofNat_shiftLeft (a : ℕ) {k : ℕ} (hk : k < 64) :
    Int64.ofNat a <<< Int64.ofNat k = Int64.ofNat (a <<< k) := by
  apply Int64.toBitVec_inj.1
  apply BitVec.eq_of_toNat_eq
  simp [toNat_smod_sixtyFour k hk, Nat.shiftLeft_eq]

theorem ofNat_shiftRight {a k : ℕ} (ha : a < 2 ^ 63) (hk : k < 64) :
    Int64.ofNat a >>> Int64.ofNat k = Int64.ofNat (a >>> k) := by
  have hmsb : (BitVec.ofNat 64 a).msb = false := by
    rw [BitVec.msb_eq_false_iff_two_mul_lt, BitVec.toNat_ofNat, Nat.mod_eq_of_lt (by omega)]
    omega
  have hle : a >>> k ≤ a := Nat.shiftRight_le a k
  have hplaces : ((BitVec.ofNat 64 k).smod 64).toNat = k := toNat_smod_sixtyFour k hk
  apply Int64.toBitVec_inj.1
  apply BitVec.eq_of_toNat_eq
  simp only [Int64.toBitVec_shiftRight, Int64.toBitVec_ofNat', BitVec.sshiftRight']
  rw [hplaces, BitVec.sshiftRight_eq_of_msb_false hmsb, BitVec.toNat_ushiftRight,
    BitVec.toNat_ofNat, BitVec.toNat_ofNat, Nat.mod_eq_of_lt (by omega),
    Nat.mod_eq_of_lt (by omega)]

end Bits

/-! ## The time of a block request -/

/-- `format!("{y:04}{mo:02}{d:02}T{h:02}{mi:02}{s:02}Z")`. -/
def awsTime (y mo d h mi s : ℤ) : List Char :=
  padded 4 y ++ (padded 2 mo ++ (padded 2 d ++ 'T' :: (padded 2 h ++ (padded 2 mi ++
    (padded 2 s ++ ['Z'])))))

/-- `current_datetime`, at a given time. -/
def currentDatetime (secs : ℤ) : List Char :=
  let ((y, mo, d), h, mi, s) := civilFromEpochSecs secs
  awsTime y mo d h mi s

/-- `t[a..b].parse::<i64>().unwrap_or(0)`. -/
def numberAt (t : List Char) (a b : ℕ) : Result Int64 :=
  match Utf8.slice t a b with
  | some part => .ok (Int64.ofInt ((parseI64 part).getD 0))
  | none => .error .panic

/-- `time_to_packed_long`. -/
def timeToPackedLong (t : List Char) : Result Int64 := do
  let year ← numberAt t 0 4
  let month ← numberAt t 4 6
  let day ← numberAt t 6 8
  let hour ← numberAt t 9 11
  let minute ← numberAt t 11 13
  let second ← numberAt t 13 15
  pure (second ||| minute <<< 6 ||| hour <<< 12 ||| day <<< 17 ||| month <<< 22 |||
    (year - 2000) <<< 26)

/-- `packed_long_to_time`. -/
def packedLongToTime (packed : Int64) : List Char :=
  let year := (packed >>> 26) + 2000
  let month := (packed >>> 22) &&& 0xf
  let day := (packed >>> 17) &&& 0x1f
  let hour := (packed >>> 12) &&& 0x1f
  let minute := (packed >>> 6) &&& 0x3f
  let second := packed &&& 0x3f
  awsTime year.toInt month.toInt day.toInt hour.toInt minute.toInt second.toInt

/-- The parts of a time in their places. -/
def packedNat (y mo d h mi s : ℕ) : ℕ :=
  s ||| mi <<< 6 ||| h <<< 12 ||| d <<< 17 ||| mo <<< 22 ||| (y - 2000) <<< 26

section

variable {y mo d h mi s : ℕ}

/-- Bits above a number are added to it. -/
theorem or_shiftLeft {a b k : ℕ} (hlt : b < 2 ^ k) : b ||| a <<< k = a * 2 ^ k + b := by
  rw [Nat.or_comm, shiftLeft_or hlt]

theorem packedNat_eq (hmo : mo < 16) (hd : d < 32) (hh : h < 32) (hmi : mi < 64) (hs : s < 64) :
    packedNat y mo d h mi s =
      (y - 2000) * 2 ^ 26 + (mo * 2 ^ 22 + (d * 2 ^ 17 + (h * 2 ^ 12 + (mi * 2 ^ 6 + s)))) := by
  unfold packedNat
  rw [or_shiftLeft (a := mi) (by omega), or_shiftLeft (a := h) (by omega),
    or_shiftLeft (a := d) (by omega), or_shiftLeft (a := mo) (by omega),
    or_shiftLeft (a := y - 2000) (by omega)]

/-- The digits of a time are where they are looked for. -/
theorem slice_awsTime (hy : y < 10 ^ 4) (hmo : mo < 10 ^ 2) (hd : d < 10 ^ 2) (hh : h < 10 ^ 2)
    (hmi : mi < 10 ^ 2) (hs : s < 10 ^ 2) :
    Utf8.slice (awsTime y mo d h mi s) 0 4 = some (padded 4 y) ∧
    Utf8.slice (awsTime y mo d h mi s) 4 6 = some (padded 2 mo) ∧
    Utf8.slice (awsTime y mo d h mi s) 6 8 = some (padded 2 d) ∧
    Utf8.slice (awsTime y mo d h mi s) 9 11 = some (padded 2 h) ∧
    Utf8.slice (awsTime y mo d h mi s) 11 13 = some (padded 2 mi) ∧
    Utf8.slice (awsTime y mo d h mi s) 13 15 = some (padded 2 s) := by
  have hyl := len_padded (by decide) hy
  have hmol := len_padded (by decide) hmo
  have hdl := len_padded (by decide) hd
  have hhl := len_padded (by decide) hh
  have hmil := len_padded (by decide) hmi
  have hsl := len_padded (by decide) hs
  have hT : Utf8.len ['T'] = 1 := by decide
  -- what comes before a part of the time is as long as the parts before it
  have hpart : ∀ (before part after : List Char) (a b : ℕ), Utf8.len before = a →
      a + Utf8.len part = b → Utf8.slice (before ++ (part ++ after)) a b = some part := by
    rintro before part after _ _ rfl rfl
    exact Utf8.slice_append before part after
  refine ⟨?_, ?_, ?_, ?_, ?_, ?_⟩
  · exact hpart [] (padded 4 y) _ 0 4 rfl (by omega)
  · exact hpart (padded 4 y) (padded 2 mo) _ 4 6 hyl (by omega)
  · simpa [awsTime] using hpart (padded 4 y ++ padded 2 mo) (padded 2 d)
      ('T' :: (padded 2 h ++ (padded 2 mi ++ (padded 2 s ++ ['Z'])))) 6 8
      (by simp only [Utf8.len_append]; omega) (by omega)
  · simpa [awsTime] using hpart (padded 4 y ++ (padded 2 mo ++ (padded 2 d ++ ['T']))) (padded 2 h)
      (padded 2 mi ++ (padded 2 s ++ ['Z'])) 9 11 (by simp only [Utf8.len_append]; omega) (by omega)
  · simpa [awsTime] using hpart
      (padded 4 y ++ (padded 2 mo ++ (padded 2 d ++ (['T'] ++ padded 2 h)))) (padded 2 mi)
      (padded 2 s ++ ['Z']) 11 13 (by simp only [Utf8.len_append]; omega) (by omega)
  · simpa [awsTime] using hpart
      (padded 4 y ++ (padded 2 mo ++ (padded 2 d ++ (['T'] ++ (padded 2 h ++ padded 2 mi)))))
      (padded 2 s) ['Z'] 13 15 (by simp only [Utf8.len_append]; omega) (by omega)

theorem numberAt_of_slice {t : List Char} {a b width n : ℕ}
    (h : Utf8.slice t a b = some (padded width n)) (hn : n < 2 ^ 63) :
    numberAt t a b = .ok (Int64.ofNat n) := by
  simp only [numberAt, h, parseI64_padded width hn]
  rfl

/-- A time is packed with its parts in their places. -/
theorem timeToPackedLong_awsTime (hy : 2000 ≤ y) (hy' : y < 10000) (hmo : mo < 16) (hd : d < 32)
    (hh : h < 32) (hmi : mi < 64) (hs : s < 64) :
    timeToPackedLong (awsTime y mo d h mi s) = .ok (Int64.ofNat (packedNat y mo d h mi s)) := by
  have hy4 : y < 10 ^ 4 := by omega
  have hmo2 : mo < 10 ^ 2 := by omega
  have hd2 : d < 10 ^ 2 := by omega
  have hh2 : h < 10 ^ 2 := by omega
  have hmi2 : mi < 10 ^ 2 := by omega
  have hs2 : s < 10 ^ 2 := by omega
  obtain ⟨h1, h2, h3, h4, h5, h6⟩ := slice_awsTime hy4 hmo2 hd2 hh2 hmi2 hs2
  have hyear : Int64.ofNat y - 2000 = Int64.ofNat (y - 2000) := by
    rw [Int64.ofNat_sub _ _ hy]
    rfl
  simp only [timeToPackedLong, numberAt_of_slice h1 (by omega), numberAt_of_slice h2 (by omega),
    numberAt_of_slice h3 (by omega), numberAt_of_slice h4 (by omega),
    numberAt_of_slice h5 (by omega), numberAt_of_slice h6 (by omega), ok_bind, hyear]
  have h6 := ofNat_shiftLeft mi (k := 6) (by decide)
  have h12 := ofNat_shiftLeft h (k := 12) (by decide)
  have h17 := ofNat_shiftLeft d (k := 17) (by decide)
  have h22 := ofNat_shiftLeft mo (k := 22) (by decide)
  have h26 := ofNat_shiftLeft (y - 2000) (k := 26) (by decide)
  simp only [packedNat, ← ofNat_or, ← h6, ← h12, ← h17, ← h22, ← h26]
  rfl

/-- What was packed is unpacked. -/
theorem packedLongToTime_ofNat (hy : 2000 ≤ y) (hy' : y < 10000) (hmo : mo < 16) (hd : d < 32)
    (hh : h < 32) (hmi : mi < 64) (hs : s < 64) :
    packedLongToTime (Int64.ofNat (packedNat y mo d h mi s)) = awsTime y mo d h mi s := by
  have hvalue := packedNat_eq (y := y) hmo hd hh hmi hs
  generalize packedNat y mo d h mi s = n at hvalue ⊢
  have hn : n < 2 ^ 63 := by omega
  have hpart : ∀ k width v : ℕ, k < 64 → v < 2 ^ 63 → n / 2 ^ k % 2 ^ width = v →
      (Int64.ofNat n >>> Int64.ofNat k &&& Int64.ofNat (2 ^ width - 1)).toInt = (v : ℤ) := by
    intro k width v hk hv h
    rw [ofNat_shiftRight hn hk, ofNat_and, Nat.shiftRight_eq_div_pow,
      Nat.and_two_pow_sub_one_eq_mod, h, Int64.toInt_ofNat_of_lt hv]
  have hsecond : (Int64.ofNat n &&& 0x3f).toInt = (s : ℤ) := by
    have hmask : Int64.ofNat n &&& 0x3f = Int64.ofNat (n &&& (2 ^ 6 - 1)) := ofNat_and n _
    rw [hmask, Nat.and_two_pow_sub_one_eq_mod, Int64.toInt_ofNat_of_lt (by omega)]
    omega
  have hminute : (Int64.ofNat n >>> 6 &&& 0x3f).toInt = (mi : ℤ) :=
    hpart 6 6 mi (by omega) (by omega) (by omega)
  have hhour : (Int64.ofNat n >>> 12 &&& 0x1f).toInt = (h : ℤ) :=
    hpart 12 5 h (by omega) (by omega) (by omega)
  have hday : (Int64.ofNat n >>> 17 &&& 0x1f).toInt = (d : ℤ) :=
    hpart 17 5 d (by omega) (by omega) (by omega)
  have hmonth : (Int64.ofNat n >>> 22 &&& 0xf).toInt = (mo : ℤ) :=
    hpart 22 4 mo (by omega) (by omega) (by omega)
  have hyear : (Int64.ofNat n >>> (26 : Int64) + (2000 : Int64)).toInt = (y : ℤ) := by
    have hshift : Int64.ofNat n >>> (26 : Int64) = Int64.ofNat (n >>> 26) :=
      ofNat_shiftRight hn (by decide)
    have hadd : Int64.ofNat (n >>> 26) + (2000 : Int64) = Int64.ofNat (n >>> 26 + 2000) :=
      (Int64.ofNat_add _ 2000).symm
    rw [hshift, hadd, Nat.shiftRight_eq_div_pow, Int64.toInt_ofNat_of_lt (by omega)]
    omega
  simp only [packedLongToTime, hyear, hmonth, hday, hhour, hminute, hsecond]

/-- The seconds of a time of the day. -/
theorem timeOfDay_eq {rem : ℤ} (h0 : 0 ≤ rem) (h1 : rem < 86400) :
    ∃ h mi s : ℕ, timeOfDay rem = ((h : ℤ), (mi : ℤ), (s : ℤ)) ∧ h < 24 ∧ mi < 60 ∧ s < 60 := by
  refine ⟨(rem / 3600).toNat, (rem % 3600 / 60).toNat, (rem % 60).toNat, ?_, ?_, ?_, ?_⟩
  · unfold timeOfDay
    congr
    all_goals omega
  all_goals omega

/-- The time a request is signed with is given back by its number. -/
theorem packedLongToTime_currentDatetime (date : Date) {secs : ℤ}
    (h : secs / 86400 = date.dayNumber) (hyear : 2000 ≤ date.year) (hfour : date.year ≤ 9999) :
    ∃ packed, timeToPackedLong (currentDatetime secs) = .ok packed ∧
      packedLongToTime packed = currentDatetime secs := by
  obtain ⟨y, hy⟩ := Int.eq_ofNat_of_zero_le (show 0 ≤ date.year by omega)
  obtain ⟨hh, mi, s, htime, h24, h60, h60'⟩ := timeOfDay_eq
    (Int.emod_nonneg secs (b := 86400) (by norm_num)) (Int.emod_lt_of_pos secs (by norm_num))
  have hdate := civilFromEpochSecs_eq date h
  have hmonth := date.month_le
  have hday := date.day_le.trans (monthLength_le _ _)
  have hcurrent : currentDatetime secs = awsTime y date.month date.day hh mi s := by
    simp only [currentDatetime, hdate, htime, hy]
  rw [hcurrent]
  exact ⟨_, timeToPackedLong_awsTime (by omega) (by omega) (by omega) (by omega) (by omega)
    (by omega) (by omega), packedLongToTime_ofNat (by omega) (by omega) (by omega) (by omega)
    (by omega) (by omega) (by omega)⟩

end

/-! ## The time of a file in an archive -/

/-- `millis_to_dos_time`: the time and the date. -/
def millisToDosTime (millis : ℤ) : ℕ × ℕ :=
  let seconds := millis / 1000
  let days := seconds / 86400
  let secondOfDay := seconds % 86400
  let (y, m, d) := civilFromDays days
  if y < 1980 then (0, 0x21)
  else
    ((secondOfDay.tdiv 3600).toNat <<< 11 ||| ((secondOfDay.tdiv 60).tmod 60).toNat <<< 5 |||
        ((secondOfDay.tmod 60).tdiv 2).toNat,
      (y - 1980).toNat <<< 9 ||| m.toNat <<< 5 ||| d.toNat)

/-- `put_u16`. -/
def putU16 (d : Bytes) (i v : ℕ) : Result Bytes :=
  if i + 2 ≤ d.length then .ok (d.take i ++ (leBytes 2 v ++ d.drop (i + 2))) else .error .panic

/-- How the time of a file is put into `local_header` and `central_record`: the time and then the
date. -/
def putDosTime (record : Bytes) (i : ℕ) (millis : ℤ) : Result Bytes := do
  let (time, date) := millisToDosTime millis
  let record ← putU16 record i time
  putU16 record (i + 2) date

/-- How it is read in `from_central_directory`. -/
def dosTimeAt (record : Bytes) (i : ℕ) : Result ℤ := do
  let time ← u16At record i
  let date ← u16At record (i + 2)
  pure (dosTimeToMillis time date)

theorem putU16_append {before old : Bytes} (after : Bytes) (v : ℕ) (h : old.length = 2) :
    putU16 (before ++ (old ++ after)) before.length v =
      .ok (before ++ (leBytes 2 v ++ after)) := by
  have hdrop : (before ++ (old ++ after)).drop (before.length + 2) = after := by
    rw [← h, ← List.append_assoc, ← List.length_append, List.drop_left]
  rw [putU16, if_pos (by simp [h]), List.take_left, hdrop]

theorem u16At_append {before after : Bytes} {v : ℕ} (h : v < 2 ^ 16) :
    u16At (before ++ (leBytes 2 v ++ after)) before.length = .ok v := by
  have hslice : Chunks.slice (before ++ (leBytes 2 v ++ after)) before.length (before.length + 2) =
      leBytes 2 v := by
    have htake : (before ++ (leBytes 2 v ++ after)).take (before.length + 2) =
        before ++ leBytes 2 v := by
      rw [← List.append_assoc]
      exact List.take_left' (by simp)
    rw [Chunks.slice, htake, List.drop_left]
  rw [u16At, readLe, if_pos (by simp), leAt, hslice, ofLe_leBytes_of_lt h]

section

variable {y m d h mi s : ℕ}

/-- The pair of a date and a time, as numbers. -/
theorem millisToDosTime_eq (date : Date) {secs : ℤ} (hdays : secs / 86400 = date.dayNumber)
    (hyear : 1980 ≤ date.year) (htime : timeOfDay (secs % 86400) = ((h : ℤ), (mi : ℤ), (s : ℤ)))
    (hmi : mi < 60) (hs : s < 60) :
    ∃ time pair, millisToDosTime (secs * 1000) = (time, pair) ∧
      time = h * 2 ^ 11 + (mi * 2 ^ 5 + s / 2) ∧
      pair = (date.year.toNat - 1980) * 2 ^ 9 + (date.month * 2 ^ 5 + date.day) := by
  have hmonth := date.month_le
  have hday := date.day_le.trans (monthLength_le _ _)
  have hrem : 0 ≤ secs % 86400 := Int.emod_nonneg _ (by norm_num)
  have hmod := Int.tmod_eq_emod_of_nonneg (b := 60) hrem
  have hdiv := Int.tdiv_eq_ediv_of_nonneg (b := 3600) hrem
  have hdiv' := Int.tdiv_eq_ediv_of_nonneg (b := 60) hrem
  have hminutes := Int.tmod_eq_emod_of_nonneg (b := 60)
    (Int.ediv_nonneg hrem (show (0 : ℤ) ≤ 60 by norm_num))
  have hhalf := Int.tdiv_eq_ediv_of_nonneg (b := 2)
    (Int.emod_nonneg (secs % 86400) (b := 60) (by norm_num))
  have hsecs : secs * 1000 / 1000 = secs := by omega
  simp only [timeOfDay, Prod.mk.injEq] at htime
  refine ⟨_, _, ?_, rfl, rfl⟩
  have h1 : (secs % 86400 / 3600).toNat = h := by omega
  have h2 : (secs % 86400 / 60 % 60).toNat = mi := by omega
  have h3 : (secs % 86400 % 60 / 2).toNat = s / 2 := by omega
  have h4 : (date.year - 1980).toNat = date.year.toNat - 1980 := by omega
  simp only [millisToDosTime, hsecs, hdays, civilFromDays_dayNumber, if_neg (not_lt.2 hyear), hmod,
    hdiv, hdiv', hminutes, hhalf, h1, h2, h3, h4, Int.toNat_natCast]
  rw [Nat.or_assoc, Nat.or_assoc, shiftLeft_or (a := mi) (b := s / 2) (by omega),
    shiftLeft_or (a := h) (by omega), shiftLeft_or (a := date.month) (by omega),
    shiftLeft_or (a := date.year.toNat - 1980) (by omega)]

/-- The moment a pair stands for. -/
theorem dosTimeToMillis_eq (date : Date) (hyear : 1980 ≤ date.year) (hlast : date.year ≤ 2107)
    (hh : h < 24) (hmi : mi < 60) (hs : s < 60) (heven : s % 2 = 0) {time pair : ℕ}
    (htime : time = h * 2 ^ 11 + (mi * 2 ^ 5 + s / 2))
    (hpair : pair = (date.year.toNat - 1980) * 2 ^ 9 + (date.month * 2 ^ 5 + date.day)) :
    dosTimeToMillis time pair = ((date.dayNumber * 24 + h) * 60 + mi) * 60000 + s * 1000 := by
  have hpos := date.month_pos
  have hmonth := date.month_le
  have hone := date.day_pos
  have hday := date.day_le.trans (monthLength_le _ _)
  obtain ⟨y, hy⟩ := Int.eq_ofNat_of_zero_le (show 0 ≤ date.year by omega)
  have h1 : 1980 + pair / 2 ^ 9 % 2 ^ 7 = y := by omega
  have h2 : pair / 2 ^ 5 % 2 ^ 4 = date.month := by omega
  have h3 : pair % 2 ^ 5 = date.day := by omega
  have h4 : time / 2 ^ 11 % 2 ^ 5 = h := by omega
  have h5 : time / 2 ^ 5 % 2 ^ 6 = mi := by omega
  have h6 : time % 2 ^ 5 * 2 = s := by omega
  have hnumber := daysFromCivil_date date
  rw [hy] at hnumber
  have hvalid : ¬ (¬ (1 ≤ date.month ∧ date.month ≤ 12) ∨ ¬ (1 ≤ date.day ∧ date.day ≤ 31)) := by
    omega
  rw [dosTimeToMillis, if_neg (by omega)]
  simp only [h1, h2, h3, h4, h5, h6]
  rw [if_neg hvalid, hnumber]

/-- The time of a file that is put into a record is read back. -/
theorem dosTimeAt_putDosTime (date : Date) {secs : ℤ} (hdays : secs / 86400 = date.dayNumber)
    (hyear : 1980 ≤ date.year) (hlast : date.year ≤ 2107) (heven : secs % 2 = 0) {record : Bytes}
    {i : ℕ} (hi : i + 4 ≤ record.length) :
    ∃ record', putDosTime record i (secs * 1000) = .ok record' ∧
      dosTimeAt record' i = .ok (secs * 1000) := by
  obtain ⟨h, mi, s, htime, h24, h60, h60'⟩ := timeOfDay_eq
    (Int.emod_nonneg secs (b := 86400) (by norm_num)) (Int.emod_lt_of_pos secs (by norm_num))
  have hmonth := date.month_le
  have hday := date.day_le.trans (monthLength_le _ _)
  have hparts := htime
  simp only [timeOfDay, Prod.mk.injEq] at hparts
  have hsecs : ((date.dayNumber * 24 + h) * 60 + mi) * 60000 + s * 1000 = secs * 1000 := by omega
  obtain ⟨time, pair, hpair, htimes, hdates⟩ := millisToDosTime_eq date hdays hyear htime h60 h60'
  have hback := dosTimeToMillis_eq date hyear hlast h24 h60 h60' (by omega) htimes hdates
  obtain ⟨before, rest, hrecord, hbefore⟩ : ∃ before rest, record = before ++ rest ∧
      before.length = i := ⟨record.take i, record.drop i, (List.take_append_drop i record).symm,
    List.length_take_of_le (by omega)⟩
  obtain ⟨old, old', after, hrest, hold, hold'⟩ : ∃ old old' after, rest = old ++ (old' ++ after) ∧
      old.length = 2 ∧ old'.length = 2 := by
    have hlen : 4 ≤ rest.length := by
      rw [hrecord, List.length_append] at hi
      omega
    refine ⟨rest.take 2, (rest.drop 2).take 2, (rest.drop 2).drop 2, ?_, ?_, ?_⟩
    · rw [List.take_append_drop, List.take_append_drop]
    · exact List.length_take_of_le (by omega)
    · exact List.length_take_of_le (by rw [List.length_drop]; omega)
  subst hrecord hrest hbefore
  have hnext : before.length + 2 = (before ++ leBytes 2 time).length := by simp
  refine ⟨before ++ (leBytes 2 time ++ (leBytes 2 pair ++ after)), ?_, ?_⟩
  · rw [putDosTime, hpair]
    simp only [putU16_append _ _ hold, ok_bind]
    rw [hnext, ← List.append_assoc, putU16_append _ _ hold', List.append_assoc]
  · have hread : u16At (before ++ (leBytes 2 time ++ (leBytes 2 pair ++ after)))
        (before.length + 2) = .ok pair := by
      rw [hnext, ← List.append_assoc]
      exact u16At_append (by omega)
    simp only [dosTimeAt, u16At_append (show time < 2 ^ 16 by omega), hread, ok_bind, hback, hsecs]
    rfl

end

/-! ## All of them -/

/-- **The calendar of the program is exact.**  Every day number is that of one date, and for a date
with a year of four digits the four conversions give that date and the two others the number.  The
time that a block request is signed with is given back by its number from the year 2000 on, and so
is every even second that an archive can keep. -/
theorem calendar_exact :
    (∀ n : ℤ, ∃! date : Date, date.dayNumber = n) ∧
    (∀ date : Date, 0 ≤ date.year → date.year ≤ 9999 →
      civilFromDays date.dayNumber = (date.year, (date.month : ℤ), (date.day : ℤ)) ∧
      epochDaysToDate date.dayNumber = isoDate date.year date.month date.day ∧
      (∀ secs : ℤ, secs / 86400 = date.dayNumber →
        civilFromEpochSecs secs =
          ((date.year, (date.month : ℤ), (date.day : ℤ)), timeOfDay (secs % 86400)) ∧
        yearMonth secs = (date.year, date.month)) ∧
      daysFromCivil date.year date.month date.day = date.dayNumber ∧
      dateToEpochDays (isoDate date.year date.month date.day) = some date.dayNumber) ∧
    (∀ (date : Date) (secs : ℤ), secs / 86400 = date.dayNumber → 2000 ≤ date.year →
      date.year ≤ 9999 →
      ∃ packed, timeToPackedLong (currentDatetime secs) = .ok packed ∧
        packedLongToTime packed = currentDatetime secs) ∧
    ∀ (date : Date) (secs : ℤ), secs / 86400 = date.dayNumber → 1980 ≤ date.year →
      date.year ≤ 2107 → secs % 2 = 0 → ∀ (record : Bytes) (i : ℕ), i + 4 ≤ record.length →
      ∃ record', putDosTime record i (secs * 1000) = .ok record' ∧
        dosTimeAt record' i = .ok (secs * 1000) := by
  refine ⟨fun n => ?_, fun date hpos hfour => ?_, ?_, ?_⟩
  · obtain ⟨date, hdate⟩ := Date.exists_dayNumber n
    exact ⟨date, hdate, fun other hother => Date.dayNumber_injective (hother.trans hdate.symm)⟩
  · exact ⟨civilFromDays_dayNumber date, epochDaysToDate_dayNumber date,
      fun secs h => ⟨civilFromEpochSecs_eq date h, yearMonth_eq date h⟩, daysFromCivil_date date,
      dateToEpochDays_isoDate date hpos hfour⟩
  · exact fun date secs h hyear hfour => packedLongToTime_currentDatetime date h hyear hfour
  · exact fun date secs h hyear hlast heven record i hi =>
      dosTimeAt_putDosTime date h hyear hlast heven hi

/-- The 29th of February 2024. -/
def leapDay : Date := ⟨2024, 2, 29, by decide, by decide, by decide, by decide⟩

/-- Noon of that day, and the day itself. -/
theorem calendar_exact_leapDay :
    (civilFromDays 19782 = (2024, 2, 29) ∧ dateToEpochDays (isoDate 2024 2 29) = some 19782) ∧
      (∃ packed, timeToPackedLong (currentDatetime 1709208000) = .ok packed ∧
        packedLongToTime packed = currentDatetime 1709208000) ∧
      ∃ record', putDosTime [0, 0, 0, 0] 0 (1709208000 * 1000) = .ok record' ∧
        dosTimeAt record' 0 = .ok (1709208000 * 1000) := by
  obtain ⟨-, hdates, haws, hdos⟩ := calendar_exact
  have hnumber : leapDay.dayNumber = 19782 := by decide
  have hsecs : (1709208000 : ℤ) / 86400 = leapDay.dayNumber := by decide
  obtain ⟨hcivil, -, -, -, hiso⟩ := hdates leapDay (by decide) (by decide)
  rw [hnumber] at hcivil hiso
  exact ⟨⟨hcivil, hiso⟩, haws leapDay _ hsecs (by decide) (by decide),
    hdos leapDay _ hsecs (by decide) (by decide) (by decide) _ _ (by decide)⟩

end Peergos
