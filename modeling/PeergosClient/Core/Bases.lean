import PeergosClient.Core.Storage
import PeergosClient.Lib.Radix

/-!
# Base encodings and multibase

Bytes as text: base58, which converts one big number to another base, base32 and base16, which
regroup bits, and multibase, which puts a character for the base in front.  A CID of version 1 is
written in base58.  Decoding undoes encoding in base58 and base32, and no index or subtraction in
the conversions goes out of range.
-/

namespace Peergos

/-- `Err(MfError(..))`. -/
def mfErr {α : Type} (msg : String) : Result α := .error (.err (.multiformat msg))

/-- Characters below 128 as bytes. -/
def asciiBytes (chars : List Char) : Bytes := chars.map fun c => UInt8.ofNat c.toNat

/-- Bytes below 128 as characters, one each. -/
def ofAscii (bytes : Bytes) : String := String.ofList (bytes.map fun b => Char.ofNat b.toNat)

theorem utf8EncodeChar_of_lt {b : UInt8} (h : b < 128) :
    String.utf8EncodeChar (Char.ofNat b.toNat) = [b] := by
  have hb : b.toNat < 128 := h
  have hval : (Char.ofNat b.toNat).val = b.toUInt32 := by
    apply UInt32.toNat_inj.1
    rw [UInt8.toNat_toUInt32]
    exact (Char.toNat_ofNat _).trans (if_pos (.inl (by omega)))
  have hsize : (Char.ofNat b.toNat).utf8Size = 1 := by
    rw [Char.utf8Size, hval, if_pos]
    rw [UInt32.le_iff_toNat_le, UInt8.toNat_toUInt32]
    exact Nat.le_of_lt_succ hb
  rw [String.utf8EncodeChar_eq_singleton hsize, hval, UInt8.toUInt8_toUInt32]

/-- Characters below 128 are one byte each. -/
theorem utf8_ofAscii {bytes : Bytes} (h : ∀ b ∈ bytes, b < 128) :
    CborObject.utf8 (ofAscii bytes) = bytes := by
  have hencode : (bytes.map fun b => Char.ofNat b.toNat).flatMap String.utf8EncodeChar = bytes := by
    rw [List.flatMap_map]
    exact (List.flatMap_congr fun b hb => utf8EncodeChar_of_lt (h b hb)).trans (by simp)
  rw [CborObject.utf8, ofAscii, String.toUTF8_eq_toByteArray, String.toByteArray_ofList,
    List.utf8Encode, hencode, List.data_toByteArray, List.toList_toArray]

/-! ## Base58 -/

/-- `B58_ALPHABET`. -/
def b58Alphabet : Bytes := asciiBytes
  ['1', '2', '3', '4', '5', '6', '7', '8', '9', 'A', 'B', 'C', 'D', 'E', 'F', 'G', 'H', 'J', 'K',
    'L', 'M', 'N', 'P', 'Q', 'R', 'S', 'T', 'U', 'V', 'W', 'X', 'Y', 'Z', 'a', 'b', 'c', 'd', 'e',
    'f', 'g', 'h', 'i', 'j', 'k', 'm', 'n', 'o', 'p', 'q', 'r', 's', 't', 'u', 'v', 'w', 'x', 'y',
    'z']

/-- `B58_ALPHABET[digit]`, for a digit below 58. -/
def b58Char (digit : UInt8) : UInt8 := b58Alphabet.getD digit.toNat 0

/-- `b58_index`, with `none` for the source's `-1`. -/
def b58Index (c : UInt8) : Option ℕ :=
  if 128 ≤ c then none else b58Alphabet.findIdx? (· = c)

/-- The loop of `divmod`. -/
def divmodLoop (base divisor : ℕ) : ℕ → Bytes → Bytes × ℕ
  | remainder, [] => ([], remainder)
  | remainder, d :: number =>
      let temp := remainder * base + d.toNat
      let (number, r) := divmodLoop base divisor (temp % divisor) number
      (UInt8.ofNat (temp / divisor) :: number, r)

/-- `divmod`, on the digits from `first_digit` on. -/
def divmod (number : Bytes) (base divisor : ℕ) : Bytes × UInt8 :=
  let (number, remainder) := divmodLoop base divisor 0 number
  (number, UInt8.ofNat remainder)

/-- The loop that `base58_encode` and `base58_decode` share: the digits from `input_start` on, where
the output starts, and the output from there on. -/
def convertLoop (base divisor : ℕ) (emit : UInt8 → UInt8) :
    ℕ → Bytes → Bytes → Result (ℕ × Bytes)
  | outputStart, [], out => .ok (outputStart, out)
  | 0, _ :: _, _ => .error .panic
  | outputStart + 1, d :: ds, out =>
      let (number, remainder) := divmod (d :: ds) base divisor
      let rest := if number.head? = some 0 then number.tail else number
      convertLoop base divisor emit outputStart rest (emit remainder :: out)

/-- `base58_encode`. -/
def base58Encode (input : Bytes) : Result String :=
  if input = [] then .ok ""
  else do
    let zeros := (input.takeWhile (· = 0)).length
    let (outputStart, encoded) ←
      convertLoop 256 58 b58Char (input.length * 2) (input.dropWhile (· = 0)) []
    let ones := (encoded.takeWhile (· = b58Char 0)).length
    if outputStart + ones < zeros then .error .panic
    else .ok (ofAscii (List.replicate zeros (b58Char 0) ++ encoded.drop ones))

/-- A character of `base58_decode`'s input. -/
def b58Digit (c : UInt8) : Result UInt8 :=
  match b58Index c with
  | some digit => .ok (UInt8.ofNat digit)
  | none => mfErr "InvalidCharacter in base 58"

/-- `base58_decode`. -/
def base58Decode (input : String) : Result Bytes :=
  if input = "" then .ok []
  else do
    let input58 ← (CborObject.utf8 input).mapM b58Digit
    let zeros := (input58.takeWhile (· = 0)).length
    let (outputStart, decoded) ←
      convertLoop 58 256 id input58.length (input58.dropWhile (· = 0)) []
    let start := outputStart + (decoded.takeWhile (· = 0)).length
    if start < zeros then .error .panic
    else .ok ((List.replicate outputStart 0 ++ decoded).drop (start - zeros))

/-! ### One division -/

/-- Bytes as digits. -/
abbrev digits (l : Bytes) : List ℕ := l.map UInt8.toNat

section Divmod

variable {base divisor remainder : ℕ} {l : Bytes}

theorem divmodLoop_eq (hbase : base ≤ 256) (hl : ∀ x ∈ digits l, x < base)
    (hr : remainder < divisor) :
    digits (divmodLoop base divisor remainder l).1 =
        (Radix.divide base divisor remainder (digits l)).1 ∧
      (divmodLoop base divisor remainder l).2 =
        (Radix.divide base divisor remainder (digits l)).2 := by
  induction l generalizing remainder with
  | nil => exact ⟨rfl, rfl⟩
  | cons d l ih =>
      have hpos : 0 < divisor := Nat.zero_lt_of_lt hr
      have hdigits := Radix.divide_lt hl hr
      simp only [List.map_cons, Radix.divide, List.forall_mem_cons] at hdigits hl
      obtain ⟨h1, h2⟩ := ih hl.2 (Nat.mod_lt (remainder * base + d.toNat) hpos)
      have hbyte : (UInt8.ofNat ((remainder * base + d.toNat) / divisor)).toNat =
          (remainder * base + d.toNat) / divisor := by
        rw [UInt8.toNat_ofNat']
        exact Nat.mod_eq_of_lt (hdigits.1.trans_le hbase)
      simp only [divmodLoop, List.map_cons, Radix.divide, hbyte]
      exact ⟨by rw [← h1], h2⟩

/-- One division of a number by a small one. -/
theorem divmod_eq (hbase : base ≤ 256) (hdiv : divisor ≤ 256) (hpos : 0 < divisor)
    (hl : ∀ x ∈ digits l, x < base) :
    digits (divmod l base divisor).1 = (Radix.divide base divisor 0 (digits l)).1 ∧
      (divmod l base divisor).2.toNat = Radix.value base (digits l) % divisor := by
  obtain ⟨h1, h2⟩ := divmodLoop_eq hbase hl hpos
  refine ⟨h1, ?_⟩
  have hrem := (Radix.divide_zero (b := base) (l := digits l) hpos).2
  have hlt : Radix.value base (digits l) % divisor < 256 := (Nat.mod_lt _ hpos).trans_le hdiv
  simp only [divmod, h2, hrem]
  rw [UInt8.toNat_ofNat']
  exact Nat.mod_eq_of_lt hlt

/-- What is left to divide after a round. -/
def nextNumber (base divisor : ℕ) (l : Bytes) : Bytes :=
  if (divmod l base divisor).1.head? = some 0 then (divmod l base divisor).1.tail
  else (divmod l base divisor).1

theorem head?_digits : (digits l).head? = some 0 ↔ l.head? = some 0 := by
  cases l with
  | nil => simp
  | cons d l =>
      rw [digits, List.map_cons, List.head?_cons, List.head?_cons, Option.some.injEq,
        Option.some.injEq]
      exact ⟨fun h => UInt8.toNat_inj.1 h, fun h => by rw [h]; rfl⟩

theorem digits_nextNumber (hbase : base ≤ 256) (hdiv : divisor ≤ 256) (hpos : 0 < divisor)
    (hl : ∀ x ∈ digits l, x < base) :
    digits (nextNumber base divisor l) =
      if (Radix.divide base divisor 0 (digits l)).1.head? = some 0 then
        (Radix.divide base divisor 0 (digits l)).1.tail
      else (Radix.divide base divisor 0 (digits l)).1 := by
  have h := (divmod_eq hbase hdiv hpos hl).1
  unfold nextNumber
  by_cases hzero : (divmod l base divisor).1.head? = some 0
  · rw [if_pos hzero, ← h, if_pos (head?_digits.2 hzero)]
    exact List.map_tail
  · rw [if_neg hzero, ← h, if_neg fun hc => hzero (head?_digits.1 hc)]

theorem nextNumber_lt (hbase : base ≤ 256) (hdiv : divisor ≤ 256) (hpos : 0 < divisor)
    (hl : ∀ x ∈ digits l, x < base) : ∀ x ∈ digits (nextNumber base divisor l), x < base := by
  have hlt := Radix.divide_lt hl hpos
  rw [digits_nextNumber hbase hdiv hpos hl]
  split
  · exact fun x hx => hlt x (List.mem_of_mem_tail hx)
  · exact hlt

theorem value_nextNumber (hbase : base ≤ 256) (hdiv : divisor ≤ 256) (hpos : 0 < divisor)
    (hl : ∀ x ∈ digits l, x < base) :
    Radix.value base (digits (nextNumber base divisor l)) =
      Radix.value base (digits l) / divisor := by
  rw [digits_nextNumber hbase hdiv hpos hl, ← (Radix.divide_zero hpos).1]
  split
  · next hzero => exact Radix.value_tail_of_head?_eq_zero hzero
  · rfl

end Divmod

/-! ### Converting -/

section Convert

variable {base divisor outputStart : ℕ} {emit : UInt8 → UInt8} {l out : Bytes}

theorem convertLoop_succ (d : UInt8) (ds : Bytes) :
    convertLoop base divisor emit (outputStart + 1) (d :: ds) out =
      convertLoop base divisor emit outputStart (nextNumber base divisor (d :: ds))
        (emit (divmod (d :: ds) base divisor).2 :: out) :=
  rfl

/-- Digits put out so far, most significant first, and the number they stand for. -/
structure Converted (base divisor : ℕ) (emit : UInt8 → UInt8) (l out : Bytes) (outputStart : ℕ)
    (res : ℕ × Bytes) (ds : Bytes) : Prop where
  out_eq : res.2 = ds.map emit ++ out
  start_eq : res.1 + ds.length = outputStart
  value_eq : Radix.value divisor (digits ds) = Radix.value base (digits l)
  digit_lt : ∀ x ∈ digits ds, x < divisor

/-- Each round puts out one more digit of the same number. -/
theorem convertLoop_converted (hbase : base ≤ 256) (hdiv : divisor ≤ 256) (hpos : 0 < divisor)
    (hl : ∀ x ∈ digits l, x < base) {res : ℕ × Bytes}
    (h : convertLoop base divisor emit outputStart l out = .ok res) :
    ∃ ds, Converted base divisor emit l out outputStart res ds := by
  induction outputStart generalizing l out with
  | zero =>
      cases l with
      | nil =>
          cases h
          exact ⟨[], rfl, rfl, rfl, by simp⟩
      | cons d l => cases h
  | succ n ih =>
      cases l with
      | nil =>
          cases h
          exact ⟨[], rfl, rfl, rfl, by simp⟩
      | cons d l =>
          rw [convertLoop_succ] at h
          obtain ⟨ds, hds⟩ := ih (nextNumber_lt hbase hdiv hpos hl) h
          have hrem := (divmod_eq hbase hdiv hpos hl).2
          refine ⟨ds ++ [(divmod (d :: l) base divisor).2], ?_, ?_, ?_, ?_⟩
          · rw [hds.out_eq]
            simp
          · have := hds.start_eq
            rw [List.length_append, List.length_singleton]
            omega
          · have hvalue := hds.value_eq
            rw [value_nextNumber hbase hdiv hpos hl] at hvalue
            rw [digits, List.map_append, List.map_singleton, Radix.value_append_singleton, hvalue,
              hrem]
            exact Nat.div_add_mod' _ _
          · intro x hx
            rw [digits, List.map_append, List.mem_append, List.map_singleton,
              List.mem_singleton] at hx
            rcases hx with hx | rfl
            · exact hds.digit_lt x hx
            · rw [hrem]
              exact Nat.mod_lt _ hpos

/-- To a base no larger there are no more rounds than the number has digits. -/
theorem convertLoop_ok_of_le (hbase : base ≤ 256) (hle : divisor ≤ base) (hpos : 0 < divisor)
    (hl : ∀ x ∈ digits l, x < base) (hc : Radix.Canonical (digits l)) {k : ℕ}
    (hk : Radix.value base (digits l) < divisor ^ k) (hroom : k ≤ outputStart) :
    ∃ res, convertLoop base divisor emit outputStart l out = .ok res ∧
      outputStart ≤ res.1 + k := by
  induction k generalizing l out outputStart with
  | zero =>
      cases l with
      | nil =>
          cases outputStart with
          | zero => exact ⟨_, rfl, le_rfl⟩
          | succ n => exact ⟨_, rfl, le_rfl⟩
      | cons d l =>
          have := Radix.value_pos (hpos.trans_le hle) hc (by simp)
          rw [pow_zero] at hk
          omega
  | succ k ih =>
      obtain ⟨n, rfl⟩ : ∃ n, outputStart = n + 1 := ⟨outputStart - 1, by omega⟩
      cases l with
      | nil => exact ⟨_, rfl, Nat.le_add_right _ _⟩
      | cons d l =>
          have hdiv := hle.trans hbase
          rw [convertLoop_succ]
          have hnext : Radix.Canonical (digits (nextNumber base divisor (d :: l))) := by
            rw [digits_nextNumber hbase hdiv hpos hl]
            exact Radix.canonical_divide hle hpos hc
          have hvalue : Radix.value base (digits (nextNumber base divisor (d :: l))) <
              divisor ^ k := by
            rw [value_nextNumber hbase hdiv hpos hl, Nat.div_lt_iff_lt_mul hpos, ← pow_succ]
            exact hk
          obtain ⟨res, hres, hstart⟩ := ih (nextNumber_lt hbase hdiv hpos hl) hnext hvalue
            (show k ≤ n by omega)
          exact ⟨res, hres, by omega⟩

/-- To a larger base each round takes one digit. -/
theorem convertLoop_ok_of_ge (hdiv : divisor ≤ 256) (hle : base ≤ divisor) (hpos : 0 < divisor)
    (hl : ∀ x ∈ digits l, x < base) (hroom : l.length ≤ outputStart) :
    ∃ res, convertLoop base divisor emit outputStart l out = .ok res ∧
      res.1 = outputStart - l.length := by
  induction outputStart generalizing l out with
  | zero =>
      obtain rfl : l = [] := List.eq_nil_of_length_eq_zero (Nat.le_zero.1 hroom)
      exact ⟨_, rfl, rfl⟩
  | succ n ih =>
      cases l with
      | nil => exact ⟨_, rfl, rfl⟩
      | cons d l =>
          have hbase := hle.trans hdiv
          have hlen : (nextNumber base divisor (d :: l)).length = l.length := by
            have hdigits := digits_nextNumber hbase hdiv hpos hl
            rw [if_pos (Radix.head?_divide hle hl (by simp))] at hdigits
            have := congrArg List.length hdigits
            rw [List.length_tail, Radix.length_divide] at this
            simpa using this
          have hroom' : l.length ≤ n := by simpa using hroom
          rw [convertLoop_succ]
          obtain ⟨res, hres, hstart⟩ := ih (nextNumber_lt hbase hdiv hpos hl) (hlen.trans_le hroom')
          refine ⟨res, hres, ?_⟩
          rw [hstart, hlen, List.length_cons]
          omega

end Convert

/-! ### There and back -/

theorem b58Digit_b58Char {d : UInt8} (h : d < 58) : b58Digit (b58Char d) = .ok d := by
  have hall : ∀ n < 58, b58Digit (b58Char (UInt8.ofNat n)) = .ok (UInt8.ofNat n) := by decide
  simpa using hall d.toNat h

theorem b58Char_lt {d : UInt8} (h : d < 58) : b58Char d < 128 := by
  have hall : ∀ n < 58, b58Char (UInt8.ofNat n) < 128 := by decide
  simpa using hall d.toNat h

theorem digits_injective : Function.Injective digits :=
  List.map_injective_iff.2 fun _ _ => UInt8.toNat_inj.1

theorem digits_lt_256 (l : Bytes) : ∀ x ∈ digits l, x < 256 := by
  intro x hx
  obtain ⟨b, -, rfl⟩ := List.mem_map.1 hx
  exact b.toNat_lt

theorem digits_dropWhile (l : Bytes) : digits (l.dropWhile (· = 0)) =
    (digits l).dropWhile (· = 0) := by
  rw [digits, digits, List.dropWhile_map]
  congr 2
  funext b
  exact decide_eq_decide.2 ⟨fun h => by rw [h]; rfl, fun h => UInt8.toNat_inj.1 h⟩

theorem canonical_digits_dropWhile (l : Bytes) : Radix.Canonical (digits (l.dropWhile (· = 0))) := by
  rw [digits_dropWhile]
  exact Radix.canonical_dropWhile

/-- Leading ones stand for leading zeros and no other digit. -/
theorem dropWhile_b58Char {ds : Bytes} (h : ∀ d ∈ ds, d < 58) :
    (ds.map b58Char).dropWhile (· = b58Char 0) = (ds.dropWhile (· = 0)).map b58Char := by
  induction ds with
  | nil => rfl
  | cons d ds ih =>
      rw [List.forall_mem_cons] at h
      by_cases hd : d = 0
      · subst hd
        rw [List.map_cons, List.dropWhile_cons_of_pos (by simp), ih h.2,
          List.dropWhile_cons_of_pos (by simp)]
      · have hne : b58Char d ≠ b58Char 0 := by
          intro heq
          have h0 := b58Digit_b58Char (show (0 : UInt8) < 58 by decide)
          rw [← heq, b58Digit_b58Char h.1] at h0
          exact hd (Except.ok.inj h0)
        rw [List.map_cons, List.dropWhile_cons_of_neg (by simpa using hne),
          List.dropWhile_cons_of_neg (by simpa using hd), List.map_cons]

/-- What `base58_encode` writes: a one for each leading zero, then the digits of the number. -/
theorem base58Encode_eq {input : Bytes} (hne : input ≠ []) :
    ∃ ds : Bytes, (∀ d ∈ ds, d < 58) ∧ Radix.Canonical (digits ds) ∧
      Radix.value 58 (digits ds) = Radix.value 256 (digits (input.dropWhile (· = 0))) ∧
      base58Encode input = .ok (ofAscii
        ((List.replicate (input.takeWhile (· = 0)).length 0 ++ ds).map b58Char)) := by
  have hlen : (input.takeWhile (· = 0)).length + (input.dropWhile (· = 0)).length =
      input.length := by
    rw [← List.length_append, List.takeWhile_append_dropWhile]
  have hfit : Radix.value 256 (digits (input.dropWhile (· = 0))) <
      58 ^ (2 * (input.dropWhile (· = 0)).length) := by
    refine (Radix.value_lt (digits_lt_256 _)).trans_le ?_
    rw [List.length_map, pow_mul]
    exact Nat.pow_le_pow_left (by norm_num) _
  obtain ⟨res, hres, hstart⟩ : ∃ res, convertLoop 256 58 b58Char (input.length * 2)
      (input.dropWhile (· = 0)) [] = .ok res ∧
        input.length * 2 ≤ res.1 + 2 * (input.dropWhile (· = 0)).length :=
    convertLoop_ok_of_le (by norm_num) (by norm_num) (by norm_num) (digits_lt_256 _)
      (canonical_digits_dropWhile input) hfit (by omega)
  obtain ⟨es, hes⟩ := convertLoop_converted (show 256 ≤ 256 by norm_num)
    (show 58 ≤ 256 by norm_num) (by norm_num) (digits_lt_256 _) hres
  have hlt : ∀ d ∈ es, d < 58 := fun d hd => hes.digit_lt _ (List.mem_map.2 ⟨d, hd, rfl⟩)
  refine ⟨es.dropWhile (· = 0), fun d hd => hlt d (List.dropWhile_sublist _ |>.subset hd),
    canonical_digits_dropWhile es, ?_, ?_⟩
  · rw [digits_dropWhile, Radix.value_dropWhile, hes.value_eq]
  · have hout : res.2 = es.map b58Char := by rw [hes.out_eq, List.append_nil]
    obtain ⟨start, encoded⟩ := res
    simp only at hout hstart
    subst hout
    simp only [base58Encode, if_neg hne, hres, ok_bind]
    rw [if_neg (by omega), Radix.drop_takeWhile_length, dropWhile_b58Char hlt, List.map_append,
      List.map_replicate]

theorem takeWhile_replicate_append {ds : Bytes} (h : Radix.Canonical (digits ds)) (zeros : ℕ) :
    (List.replicate zeros 0 ++ ds).takeWhile (· = 0) = List.replicate zeros 0 ∧
      (List.replicate zeros 0 ++ ds).dropWhile (· = 0) = ds := by
  have hds : ds.takeWhile (· = 0) = [] ∧ ds.dropWhile (· = 0) = ds := by
    cases ds with
    | nil => exact ⟨rfl, rfl⟩
    | cons d ds =>
        have hd : d ≠ 0 := fun hd => h (by rw [hd]; rfl)
        exact ⟨List.takeWhile_cons_of_neg (by simpa using hd),
          List.dropWhile_cons_of_neg (by simpa using hd)⟩
  have hall : ∀ x ∈ List.replicate zeros (0 : UInt8), decide (x = 0) = true := by
    intro x hx
    rw [List.eq_of_mem_replicate hx]
    rfl
  rw [List.takeWhile_append_of_pos hall, List.dropWhile_append_of_pos hall, hds.1, hds.2,
    List.append_nil]
  exact ⟨rfl, rfl⟩

/-- What `base58_decode` reads: a zero for each leading one, then the bytes of the number. -/
theorem base58Decode_digits {zeros : ℕ} {ds bytes : Bytes} (hlt : ∀ d ∈ ds, d < 58)
    (hds : Radix.Canonical (digits ds)) (hbytes : Radix.Canonical (digits bytes))
    (hvalue : Radix.value 256 (digits bytes) = Radix.value 58 (digits ds)) :
    base58Decode (ofAscii ((List.replicate zeros 0 ++ ds).map b58Char)) =
      .ok (List.replicate zeros 0 ++ bytes) := by
  have hdigit : ∀ d ∈ List.replicate zeros 0 ++ ds, d < 58 := by
    intro d hd
    rcases List.mem_append.1 hd with hd | hd
    · rw [List.eq_of_mem_replicate hd]
      decide
    · exact hlt d hd
  have hutf8 : CborObject.utf8 (ofAscii ((List.replicate zeros 0 ++ ds).map b58Char)) =
      (List.replicate zeros 0 ++ ds).map b58Char := by
    refine utf8_ofAscii fun b hb => ?_
    obtain ⟨d, hd, rfl⟩ := List.mem_map.1 hb
    exact b58Char_lt (hdigit d hd)
  by_cases hempty : ofAscii ((List.replicate zeros 0 ++ ds).map b58Char) = ""
  · rw [hempty] at hutf8
    have hnil := List.append_eq_nil_iff.1 (List.map_eq_nil_iff.1 hutf8.symm)
    have hzero : bytes = [] := by
      by_contra hne
      have hpos := Radix.value_pos (b := 256) (by norm_num) hbytes
        fun hn => hne (List.map_eq_nil_iff.1 hn)
      rw [hvalue, hnil.2] at hpos
      exact lt_irrefl _ hpos
    rw [base58Decode, if_pos hempty, hnil.1, hzero]
    rfl
  · have hread : ((List.replicate zeros 0 ++ ds).map b58Char).mapM b58Digit =
        .ok (List.replicate zeros 0 ++ ds) :=
      mapM_map_eq_ok fun d hd => b58Digit_b58Char (hdigit d hd)
    obtain ⟨htake, hdrop⟩ := takeWhile_replicate_append hds zeros
    have hds58 : ∀ x ∈ digits ds, x < 58 := by
      intro x hx
      obtain ⟨d, hd, rfl⟩ := List.mem_map.1 hx
      exact hlt d hd
    obtain ⟨⟨start, decoded⟩, hres, hstart⟩ : ∃ res, convertLoop 58 256 id
        (List.replicate zeros 0 ++ ds).length ds [] = .ok res ∧
          res.1 = (List.replicate zeros 0 ++ ds).length - ds.length :=
      convertLoop_ok_of_ge (by norm_num) (by norm_num) (by norm_num) hds58
        (by rw [List.length_append]; omega)
    obtain ⟨es, hes⟩ := convertLoop_converted (by norm_num) (by norm_num) (by norm_num) hds58 hres
    obtain rfl : decoded = es := by
      have := hes.out_eq
      rwa [List.map_id, List.append_nil] at this
    obtain rfl : start = zeros := by
      simp only [List.length_append, List.length_replicate] at hstart
      omega
    -- the bytes put out, without their leading zeros, are those of the number
    have hsame : decoded.dropWhile (· = 0) = bytes := by
      refine digits_injective (Radix.eq_of_value_eq (b := 256) (by norm_num) (digits_lt_256 _)
        (digits_lt_256 _) (canonical_digits_dropWhile decoded) hbytes ?_)
      rw [digits_dropWhile, Radix.value_dropWhile, hes.value_eq, hvalue]
    simp only [base58Decode, if_neg hempty, hutf8, hread, ok_bind, htake, hdrop, hres,
      List.length_replicate]
    rw [if_neg (by omega), Nat.add_sub_cancel_left]
    congr 1
    have hsplit := Radix.replicate_append_dropWhile 0 decoded
    rw [hsame] at hsplit
    conv_lhs => rw [← hsplit]
    rw [← List.append_assoc, List.replicate_append_replicate, Nat.add_comm,
      ← List.replicate_append_replicate, List.append_assoc]
    exact List.drop_left' (by rw [List.length_replicate, hsplit])

/-- `base58_decode` gives back what `base58_encode` was given. -/
theorem base58Decode_encode (input : Bytes) :
    ∃ text, base58Encode input = .ok text ∧ base58Decode text = .ok input := by
  by_cases hne : input = []
  · subst hne
    exact ⟨"", rfl, rfl⟩
  obtain ⟨ds, hlt, hcanon, hvalue, hencode⟩ := base58Encode_eq hne
  refine ⟨_, hencode, ?_⟩
  rw [base58Decode_digits hlt hcanon (canonical_digits_dropWhile input) hvalue.symm,
    Radix.replicate_append_dropWhile]

/-! ## Base32 -/

/-- `B32_ALPHABET`. -/
def b32Alphabet : Bytes := asciiBytes
  ['A', 'B', 'C', 'D', 'E', 'F', 'G', 'H', 'I', 'J', 'K', 'L', 'M', 'N', 'O', 'P', 'Q', 'R', 'S',
    'T', 'U', 'V', 'W', 'X', 'Y', 'Z', '2', '3', '4', '5', '6', '7']

/-- `B32_ALPHABET[idx]`, for an index below 32. -/
def b32Char (idx : ℕ) : UInt8 := b32Alphabet.getD idx 0

/-- `(buffer << n) | x` on a `u32`. -/
def shiftIn (buffer n x : ℕ) : ℕ := (buffer <<< n) % 2 ^ 32 ||| x

/-- The inner loop of `base32_encode`: the characters it puts out, and the bits it leaves. -/
def b32Drain (buffer : ℕ) : ℕ → Bytes × ℕ
  | bits + 5 =>
      let (out, left) := b32Drain buffer bits
      (b32Char ((buffer >>> bits) &&& 0x1f) :: out, left)
  | bits => ([], bits)

/-- The loop of `base32_encode`, and what it puts out after it. -/
def b32EncodeLoop : Bytes → ℕ → ℕ → Bytes
  | [], buffer, bits =>
      if bits > 0 then [b32Char (((buffer <<< (5 - bits)) % 2 ^ 32) &&& 0x1f)] else []
  | b :: data, buffer, bits =>
      let buffer := shiftIn buffer 8 b.toNat
      let (out, left) := b32Drain buffer (bits + 8)
      out ++ b32EncodeLoop data buffer left

/-- `base32_encode`. -/
def base32Encode (data : Bytes) : String := ofAscii (b32EncodeLoop data 0 0)

/-- `b32_val`. -/
def b32Val (c : UInt8) : Result ℕ :=
  if 65 ≤ c ∧ c ≤ 90 then .ok (c - 65).toNat
  else if 97 ≤ c ∧ c ≤ 122 then .ok (c - 97).toNat
  else if 50 ≤ c ∧ c ≤ 55 then .ok (c - 50 + 26).toNat
  else mfErr "invalid base32 char"

/-- The loop of `base32_decode`: what it still puts out. -/
def b32DecodeLoop : Bytes → ℕ → ℕ → Result Bytes
  | [], _, _ => .ok []
  | c :: s, buffer, bits =>
      if c = 61 then .ok []
      else do
        let v ← b32Val c
        let buffer := shiftIn buffer 5 v
        if bits + 5 ≥ 8 then do
          let out ← b32DecodeLoop s buffer (bits + 5 - 8)
          pure (UInt8.ofNat (buffer >>> (bits + 5 - 8)) :: out)
        else b32DecodeLoop s buffer (bits + 5)

/-- `base32_decode`. -/
def base32Decode (s : String) : Result Bytes := b32DecodeLoop (CborObject.utf8 s) 0 0

theorem shiftIn_eq {buffer n x : ℕ} (hn : n ≤ 32) (hx : x < 2 ^ n) :
    shiftIn buffer n x = (buffer * 2 ^ n + x) % 2 ^ 32 := by
  have hpow : (2 : ℕ) ^ 32 = 2 ^ n * 2 ^ (32 - n) := by rw [← pow_add, Nat.add_sub_cancel' hn]
  have hsplit : (buffer <<< n) % 2 ^ 32 = 2 ^ n * (buffer % 2 ^ (32 - n)) := by
    rw [Nat.shiftLeft_eq, Nat.mul_comm, hpow, Nat.mul_mod_mul_left]
  rw [shiftIn, hsplit, ← Nat.two_pow_add_eq_or_of_lt hx, hpow, Nat.mul_comm buffer,
    Nat.mod_mul, Nat.mul_add_mod, Nat.mod_eq_of_lt hx, Nat.mul_add_div (by positivity),
    Nat.div_eq_of_lt hx, Nat.add_zero, Nat.add_comm]

theorem and_31 (x : ℕ) : x &&& 0x1f = x % 32 := Nat.and_two_pow_sub_one_eq_mod x 5

theorem b32Char_spec {idx : ℕ} (h : idx < 32) :
    b32Val (b32Char idx) = .ok idx ∧ b32Char idx ≠ 61 ∧ b32Char idx < 128 := by
  have hall : ∀ n < 32, b32Val (b32Char n) = .ok n ∧ b32Char n ≠ 61 ∧ b32Char n < 128 := by decide
  exact hall idx h

/-- A character that does not complete a byte. -/
theorem b32DecodeLoop_short {idx buffer bits : ℕ} (h : idx < 32) (hbits : bits < 3) (s : Bytes) :
    b32DecodeLoop (b32Char idx :: s) buffer bits =
      b32DecodeLoop s ((buffer * 32 + idx) % 2 ^ 32) (bits + 5) := by
  obtain ⟨hval, hne, -⟩ := b32Char_spec h
  have hshift : shiftIn buffer 5 idx = (buffer * 32 + idx) % 2 ^ 32 :=
    shiftIn_eq (by norm_num) h
  simp only [b32DecodeLoop, if_neg hne, hval, ok_bind, hshift]
  rw [if_neg (by omega)]

/-- A character that completes a byte. -/
theorem b32DecodeLoop_push {idx buffer bits : ℕ} (h : idx < 32) (hbits : 3 ≤ bits) {s out : Bytes}
    (hrest : b32DecodeLoop s ((buffer * 32 + idx) % 2 ^ 32) (bits - 3) = .ok out) :
    b32DecodeLoop (b32Char idx :: s) buffer bits =
      .ok (UInt8.ofNat ((buffer * 32 + idx) % 2 ^ 32 / 2 ^ (bits - 3)) :: out) := by
  obtain ⟨hval, hne, -⟩ := b32Char_spec h
  have hshift : shiftIn buffer 5 idx = (buffer * 32 + idx) % 2 ^ 32 :=
    shiftIn_eq (by norm_num) h
  have hsub : bits + 5 - 8 = bits - 3 := by omega
  simp only [b32DecodeLoop, if_neg hne, hval, ok_bind, hshift, hsub, hrest]
  rw [if_pos (by omega), Nat.shiftRight_eq_div_pow]
  rfl

theorem ofNat_eq_of_mod {m n : ℕ} (h : m % 256 = n % 256) : UInt8.ofNat m = UInt8.ofNat n := by
  apply UInt8.toNat_inj.1
  rw [UInt8.toNat_ofNat', UInt8.toNat_ofNat']
  exact h

/-- What the decoder returns when the encoder holds the low `e` bits of a byte in `E`, and the
decoder the others in `D`: that byte and those still to come. -/
def pending (E D e : ℕ) : Bytes :=
  if e = 0 then [] else [UInt8.ofNat (D % 2 ^ (8 - e) * 2 ^ e + E % 2 ^ e)]

/-- The end of the input: the bits held are padded to one more character. -/
theorem b32DecodeLoop_last (E D : ℕ) {e : ℕ} (he : e < 5) :
    b32DecodeLoop (b32EncodeLoop [] E e) D ((8 - e) % 8) = .ok (pending E D e) := by
  by_cases hzero : e = 0
  · subst hzero
    rfl
  · have hidx : (E <<< (5 - e)) % 2 ^ 32 &&& 0x1f < 32 := by
      rw [and_31]
      exact Nat.mod_lt _ (by norm_num)
    rw [b32EncodeLoop, if_pos (Nat.pos_of_ne_zero hzero),
      b32DecodeLoop_push hidx (by omega) (by rfl), pending, if_neg hzero, and_31, Nat.shiftLeft_eq]
    refine congrArg (fun x => Except.ok [x]) (ofNat_eq_of_mod ?_)
    interval_cases e
    · exact absurd rfl hzero
    all_goals norm_num
    all_goals omega

theorem b32DecodeLoop_encode (data : Bytes) (E D : ℕ) {e : ℕ} (he : e < 5) :
    b32DecodeLoop (b32EncodeLoop data E e) D ((8 - e) % 8) = .ok (pending E D e ++ data) := by
  induction data generalizing E D e with
  | nil => rw [b32DecodeLoop_last E D he, List.append_nil]
  | cons b data ih =>
      have hb := b.toNat_lt
      obtain ⟨E', hE'⟩ : ∃ E', (E * 256 + b.toNat) % 2 ^ 32 = E' := ⟨_, rfl⟩
      have hE : shiftIn E 8 b.toNat = E' := (shiftIn_eq (by norm_num) hb).trans hE'
      have hbyte : b = UInt8.ofNat E' := by
        apply UInt8.toNat_inj.1
        rw [UInt8.toNat_ofNat']
        omega
      have hidx : ∀ k, E' >>> k &&& 0x1f = E' / 2 ^ k % 32 := fun k => by
        rw [and_31, Nat.shiftRight_eq_div_pow]
      have hlt : ∀ k, E' / 2 ^ k % 32 < 32 := fun k => Nat.mod_lt _ (by norm_num)
      rw [b32EncodeLoop, hE]
      -- how many characters the byte gives, and which of them complete a byte of the output
      interval_cases e
      · have hdrain : b32Drain E' (0 + 8) = ([b32Char (E' / 2 ^ 3 % 32)], 3) := by
          rw [← hidx]
          rfl
        simp only [hdrain, List.singleton_append]
        rw [b32DecodeLoop_short (hlt 3) (by norm_num)]
        exact (ih E' _ (show 3 < 5 by norm_num)).trans (by
          rw [hbyte]
          refine congrArg (fun x => Except.ok (x :: data)) (ofNat_eq_of_mod ?_)
          norm_num
          omega)
      · have hdrain : b32Drain E' (1 + 8) = ([b32Char (E' / 2 ^ 4 % 32)], 4) := by
          rw [← hidx]
          rfl
        simp only [hdrain, List.singleton_append]
        rw [b32DecodeLoop_push (hlt 4) (by norm_num) (ih E' _ (show 4 < 5 by norm_num)), hbyte]
        refine congrArg Except.ok (congrArg₂ List.cons (ofNat_eq_of_mod ?_)
          (congrArg (· :: data) (ofNat_eq_of_mod ?_)))
        · norm_num
          omega
        · norm_num
          omega
      · have hdrain : b32Drain E' (2 + 8) =
            ([b32Char (E' / 2 ^ 5 % 32), b32Char (E' / 2 ^ 0 % 32)], 0) := by
          rw [← hidx, ← hidx]
          rfl
        simp only [hdrain, List.cons_append, List.nil_append]
        rw [b32DecodeLoop_push (hlt 5) (by norm_num)
          (b32DecodeLoop_push (hlt 0) (by norm_num) (ih E' _ (show 0 < 5 by norm_num))), hbyte]
        refine congrArg Except.ok (congrArg₂ List.cons (ofNat_eq_of_mod ?_)
          (congrArg (· :: data) (ofNat_eq_of_mod ?_)))
        · norm_num
          omega
        · norm_num
          omega
      · have hdrain : b32Drain E' (3 + 8) =
            ([b32Char (E' / 2 ^ 6 % 32), b32Char (E' / 2 ^ 1 % 32)], 1) := by
          rw [← hidx, ← hidx]
          rfl
        simp only [hdrain, List.cons_append, List.nil_append]
        rw [b32DecodeLoop_push (hlt 6) (by norm_num)
          ((b32DecodeLoop_short (hlt 1) (by norm_num) _).trans (ih E' _ (show 1 < 5 by norm_num))),
          hbyte]
        refine congrArg Except.ok (congrArg₂ List.cons (ofNat_eq_of_mod ?_)
          (congrArg (· :: data) (ofNat_eq_of_mod ?_)))
        · norm_num
          omega
        · norm_num
          omega
      · have hdrain : b32Drain E' (4 + 8) =
            ([b32Char (E' / 2 ^ 7 % 32), b32Char (E' / 2 ^ 2 % 32)], 2) := by
          rw [← hidx, ← hidx]
          rfl
        simp only [hdrain, List.cons_append, List.nil_append]
        rw [b32DecodeLoop_push (hlt 7) (by norm_num)
          ((b32DecodeLoop_short (hlt 2) (by norm_num) _).trans (ih E' _ (show 2 < 5 by norm_num))),
          hbyte]
        refine congrArg Except.ok (congrArg₂ List.cons (ofNat_eq_of_mod ?_)
          (congrArg (· :: data) (ofNat_eq_of_mod ?_)))
        · norm_num
          omega
        · norm_num
          omega

theorem b32Char_lt (idx : ℕ) : b32Char idx < 128 := by
  by_cases h : idx < 32
  · exact (b32Char_spec h).2.2
  · have hlen : b32Alphabet.length ≤ idx := not_lt.1 h
    rw [b32Char, List.getD_eq_default _ _ hlen]
    decide

theorem b32Drain_lt (buffer bits : ℕ) : ∀ c ∈ (b32Drain buffer bits).1, c < 128 := by
  fun_induction b32Drain buffer bits with
  | case1 bits out left hrest ih =>
      rw [List.forall_mem_cons]
      rw [hrest] at ih
      exact ⟨b32Char_lt _, ih⟩
  | case2 bits _ => exact List.forall_mem_nil _

theorem b32EncodeLoop_lt (data : Bytes) (buffer bits : ℕ) :
    ∀ c ∈ b32EncodeLoop data buffer bits, c < 128 := by
  induction data generalizing buffer bits with
  | nil =>
      intro c hc
      rw [b32EncodeLoop] at hc
      split at hc
      · rw [List.mem_singleton.1 hc]
        exact b32Char_lt _
      · cases hc
  | cons b data ih =>
      intro c hc
      rw [b32EncodeLoop, List.mem_append] at hc
      rcases hc with hc | hc
      · exact b32Drain_lt _ _ c hc
      · exact ih _ _ c hc

/-- `base32_decode` gives back what `base32_encode` was given. -/
theorem base32Decode_encode (data : Bytes) : base32Decode (base32Encode data) = .ok data := by
  rw [base32Decode, base32Encode, utf8_ofAscii (b32EncodeLoop_lt data 0 0)]
  exact b32DecodeLoop_encode data 0 0 (show 0 < 5 by norm_num)

/-! ## Multibase -/

/-- `hexval`. -/
def hexval (c : UInt8) : Result UInt8 :=
  if 48 ≤ c ∧ c ≤ 57 then .ok (c - 48)
  else if 97 ≤ c ∧ c ≤ 102 then .ok (c - 97 + 10)
  else if 65 ≤ c ∧ c ≤ 70 then .ok (c - 65 + 10)
  else mfErr "invalid hex char"

/-- The loop of `base16_decode` over the pairs. -/
def base16Pairs : Bytes → Result Bytes
  | a :: b :: rest => do
      let high ← hexval a
      let low ← hexval b
      let out ← base16Pairs rest
      pure (((high <<< 4) ||| low) :: out)
  | _ => .ok []

/-- `base16_decode`. -/
def base16Decode (hex : String) : Result Bytes :=
  if (CborObject.utf8 hex).length % 2 ≠ 0 then mfErr "odd length hex"
  else base16Pairs (CborObject.utf8 hex)

/-- `multibase_encode_base58btc`. -/
def multibaseEncodeBase58btc (data : Bytes) : Result String := do
  let text ← base58Encode data
  pure ("z" ++ text)

/-- `char::to_lowercase`, as far as `base32_decode` can tell: the Kelvin sign and the dotted capital
I are the characters outside ASCII whose lower case starts inside it. -/
def toLowercase (c : Char) : List Char :=
  if c = '\u212a' then ['k'] else if c = '\u0130' then ['i', '\u0307'] else [c.toLower]

/-- `multibase_decode`. -/
def multibaseDecode (data : String) : Result Bytes :=
  match data.toList with
  | [] => mfErr "empty multibase"
  | base :: rest =>
      if base = 'z' then base58Decode (String.ofList rest)
      else if base = 'f' then base16Decode (String.ofList rest)
      else if base = 'b' then base32Decode (String.ofList rest)
      else if base = 'B' then base32Decode (String.ofList (rest.flatMap toLowercase))
      else mfErr s!"Unsupported multibase prefix: {base}"

/-- `Multihash::to_base58`. -/
def Multihash.toBase58 (m : Multihash) : Result String := base58Encode m.toBytes

/-- `Multihash::from_base58`. -/
def Multihash.fromBase58 (base58 : String) : Result Multihash := do
  let bytes ← base58Decode base58
  liftMf (Multihash.decode bytes)

namespace Cid

/-- `Cid::to_string`. -/
def toString (c : Cid) : Result String :=
  match c.version with
  | .v0 => c.multihash.toBase58
  | .v1 => multibaseEncodeBase58btc c.toBytes

/-- `Cid::decode`. -/
def decode (v : String) : Result Cid :=
  if (CborObject.utf8 v).length < 2 then mfErr "Cid too short!"
  else if (CborObject.utf8 v).length = 46 ∧ v.toList.take 2 = ['Q', 'm'] then do
    let h ← Multihash.fromBase58 v
    pure ⟨.v0, .dagProtobuf, h⟩
  else do
    let bytes ← multibaseDecode v
    liftMf (cast bytes)

/-- A version 1 CID reads back from its text. -/
theorem decode_toString {c : Cid} (hv : c.version = .v1) :
    ∃ text, c.toString = .ok text ∧ decode text = .ok c := by
  obtain ⟨text, hencode, hdecode⟩ := base58Decode_encode c.toBytes
  refine ⟨"z" ++ text, ?_, ?_⟩
  · simp only [toString, hv, multibaseEncodeBase58btc, hencode, ok_bind]
    rfl
  · have hlist : ("z" ++ text).toList = 'z' :: text.toList := by simp
    have hne : text ≠ "" := by
      rintro rfl
      have hnil : c.toBytes = [] := (Except.ok.inj hdecode).symm
      rw [toBytes, hv] at hnil
      cases hnil
    have hlong : ¬(CborObject.utf8 ("z" ++ text)).length < 2 := by
      have hpos : 0 < text.utf8ByteSize := Nat.pos_of_ne_zero fun h =>
        hne (String.utf8ByteSize_eq_zero_iff.1 h)
      have hsize : (CborObject.utf8 ("z" ++ text)).length = 1 + text.utf8ByteSize := by
        rw [CborObject.utf8, Array.length_toList, ByteArray.size_data, String.toUTF8_eq_toByteArray,
          String.size_toByteArray, String.utf8ByteSize_append]
        rfl
      omega
    have hbytes : multibaseDecode ("z" ++ text) = .ok c.toBytes := by
      rw [multibaseDecode, hlist]
      simp only [if_true, String.ofList_toList]
      exact hdecode
    rw [decode, if_neg hlong, if_neg, hbytes, ok_bind, cast_toBytes hv]
    · rfl
    · rintro ⟨-, hqm⟩
      rw [hlist] at hqm
      simp at hqm

end Cid

/-- Every version 1 CID reads back from its bytes and from its text; every byte string reads back
from its base58 and its base32, and every `u64` from its varint. -/
theorem cid_codec_roundTrip :
    (∀ c : Cid, c.version = .v1 → Cid.cast c.toBytes = .ok c ∧
      ∃ text, c.toString = .ok text ∧ Cid.decode text = .ok c) ∧
    (∀ bytes : Bytes, ∃ text, base58Encode bytes = .ok text ∧ base58Decode text = .ok bytes) ∧
    (∀ bytes : Bytes, base32Decode (base32Encode bytes) = .ok bytes) ∧
    ∀ (x : UInt64) (rest : Bytes),
      readUvarint (putUvarint x.toNat ++ rest) = .ok (x.toNat, rest) :=
  ⟨fun _ hv => ⟨Cid.cast_toBytes hv, Cid.decode_toString hv⟩, base58Decode_encode,
    base32Decode_encode, fun x rest => readUvarint_putUvarint x.toNat_lt rest⟩

/-- The identity hash of two bytes, one of them a leading zero. -/
def identityCid : Cid := ⟨.v1, .raw, ⟨.id, [0, 7], by decide⟩⟩

theorem cid_codec_roundTrip_identityCid : Cid.cast identityCid.toBytes = .ok identityCid ∧
    ∃ text, identityCid.toString = .ok text ∧ Cid.decode text = .ok identityCid :=
  cid_codec_roundTrip.1 identityCid rfl

end Peergos
