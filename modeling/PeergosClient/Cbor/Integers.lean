import Mathlib.Data.Nat.Digits.Lemmas
import PeergosClient.Cbor.RoundTrip

/-!
# Encoded integers

RFC 8949 writes an integer as a major type, 0 or 1, and an argument: the low bits of the first byte
if they are below 24, otherwise the one, two, four or eight bytes after it.  The shortest of these
is not required.  Of major type 0 the argument is the value, of major type 1 it is one less than the
value's magnitude.

`deserialize` takes the argument as 64 bits with a sign.  An argument with the highest of the 64
bits set is not refused, and comes out as a number of the other sign.
-/

namespace Peergos

namespace CborObject

/-! ## What RFC 8949 says -/

/-- The argument of an item with these low bits in its first byte, and what follows it. -/
def rfcArgument (info : ℕ) (buf : Bytes) : Option (ℕ × Bytes) :=
  if info < 24 then some (info, buf)
  else if info ≤ 27 ∧ 2 ^ (info - 24) ≤ buf.length then
    some (Nat.ofDigits 256 ((buf.take (2 ^ (info - 24))).reverse.map UInt8.toNat),
      buf.drop (2 ^ (info - 24)))
  else none

/-- The integer at the start of some bytes, and what follows it. -/
def rfcInteger : Bytes → Option (ℤ × Bytes)
  | [] => none
  | ib :: buf =>
      if ib.toNat / 32 = 0 then (rfcArgument (ib.toNat % 32) buf).map fun r => ((r.1 : ℤ), r.2)
      else if ib.toNat / 32 = 1 then
        (rfcArgument (ib.toNat % 32) buf).map fun r => (-1 - (r.1 : ℤ), r.2)
      else none

/-- The integer is one that an `i64` can hold. -/
def FitsI64 (n : ℤ) : Prop := -2 ^ 63 ≤ n ∧ n < 2 ^ 63

instance (n : ℤ) : Decidable (FitsI64 n) := inferInstanceAs (Decidable (_ ∧ _))

/-- A decoder returns the integer that is there, and none if it does not fit. -/
def DecodesIntegers (decode : Read CborObject) (buf : Bytes) : Prop :=
  (∀ v rest, decode buf = .ok (.long v, rest) → rfcInteger buf = some (v.toInt, rest)) ∧
    ∀ n rest, rfcInteger buf = some (n, rest) → ¬FitsI64 n → ∃ e, decode buf = .error e

/-! ## What the decoder reads -/

theorem bigEndian_eq (b : Bytes) : bigEndian b = Nat.ofDigits 256 (b.reverse.map UInt8.toNat) := by
  have hfold : ∀ (b : Bytes) (acc : ℕ), b.foldl (fun acc x => acc * 256 + x.toNat) acc =
      Nat.ofDigits 256 (b.reverse.map UInt8.toNat) + acc * 256 ^ b.length := by
    intro b
    induction b with
    | nil => simp
    | cons x b ih =>
        intro acc
        rw [List.foldl_cons, ih, List.reverse_cons, List.map_append, Nat.ofDigits_append]
        simp [pow_succ]
        ring
  rw [bigEndian, hfold b 0, Nat.zero_mul, Nat.add_zero]

theorem bigEndian_lt (b : Bytes) : bigEndian b < 256 ^ b.length := by
  rw [bigEndian_eq]
  refine (Nat.ofDigits_lt_base_pow_length (by norm_num) fun d hd => ?_).trans_eq (by simp)
  obtain ⟨x, -, rfl⟩ := List.mem_map.1 hd
  exact x.toNat_lt

/-- A number in a given count of bytes. -/
theorem readN_bigEndian (w : ℕ) (buf : Bytes) :
    ((readN w buf >>= fun r => .ok (bigEndian r.1, r.2) : Except CborError (ℕ × Bytes))).toOption =
      if w ≤ buf.length then
        some (Nat.ofDigits 256 ((buf.take w).reverse.map UInt8.toNat), buf.drop w) else none := by
  unfold readN
  split
  · rw [← bigEndian_eq]
    rfl
  · rfl

/-- The decoder reads the argument the RFC describes. -/
theorem readUint_toOption (x : UInt8) (buf : Bytes) (hx : x.toNat < 32) :
    (readUint x buf).toOption = rfcArgument x.toNat buf := by
  by_cases h0 : x.toNat < 24
  · have hlt : x < 0x18 := UInt8.lt_iff_toNat_lt.2 h0
    rw [readUint, if_pos hlt, rfcArgument, if_pos h0]
    rfl
  · have hge : ¬x < 0x18 := fun h => h0 (UInt8.lt_iff_toNat_lt.1 h)
    by_cases h1 : x.toNat = 24
    · obtain rfl : x = 0x18 := UInt8.toNat_inj.1 h1
      cases buf with
      | nil => rfl
      | cons b rest =>
          have hone : Nat.ofDigits 256 [b.toNat] = b.toNat := Nat.ofDigits_singleton
          simp [readUint, readU8, rfcArgument, Except.toOption, bind, Except.bind]
          exact hone.symm
    by_cases h2 : x.toNat = 25
    · obtain rfl : x = 0x19 := UInt8.toNat_inj.1 h2
      exact (readN_bigEndian 2 buf).trans (by simp [rfcArgument])
    by_cases h3 : x.toNat = 26
    · obtain rfl : x = 0x1a := UInt8.toNat_inj.1 h3
      exact (readN_bigEndian 4 buf).trans (by simp [rfcArgument])
    by_cases h4 : x.toNat = 27
    · obtain rfl : x = 0x1b := UInt8.toNat_inj.1 h4
      exact (readN_bigEndian 8 buf).trans (by simp [rfcArgument])
    · -- the other values are reserved
      have hne : ∀ y : UInt8, x.toNat ≠ y.toNat → x ≠ y := fun y h heq => h (heq ▸ rfl)
      rw [readUint, if_neg hge, if_neg (hne 0x18 h1), if_neg (hne 0x19 h2), if_neg (hne 0x1a h3),
        if_neg (hne 0x1b h4), rfcArgument, if_neg h0, if_neg (by omega)]
      rfl

/-- An argument takes 64 bits at most. -/
theorem readUint_lt {x : UInt8} {buf rest : Bytes} {n : ℕ} (h : readUint x buf = .ok (n, rest)) :
    n < 2 ^ 64 := by
  have hwide : ∀ w ≤ 8, (readN w buf >>= fun r => .ok (bigEndian r.1, r.2) :
      Except CborError (ℕ × Bytes)) = .ok (n, rest) → n < 2 ^ 64 := by
    intro w hw h
    unfold readN at h
    split at h
    · next hlen =>
        cases h
        refine (bigEndian_lt _).trans_le ?_
        rw [List.length_take_of_le hlen, show 2 ^ 64 = 256 ^ 8 from rfl]
        exact Nat.pow_le_pow_right (by norm_num) hw
    · cases h
  unfold readUint at h
  split at h
  · next hlt =>
      cases h
      exact x.toNat_lt.trans (by norm_num)
  · split at h
    · cases buf with
      | nil => cases h
      | cons b rest =>
          cases h
          exact b.toNat_lt.trans (by norm_num)
    · split at h
      · exact hwide 2 (by norm_num) h
      · split at h
        · exact hwide 4 (by norm_num) h
        · split at h
          · exact hwide 8 (by norm_num) h
          · cases h

/-! ## What the decoder makes of it -/

/-- 64 bits as a number with a sign. -/
theorem toInt_toInt64 {n : ℕ} (hn : n < 2 ^ 64) :
    (UInt64.ofNat n).toInt64.toInt = if n < 2 ^ 63 then (n : ℤ) else n - 2 ^ 64 := by
  show (UInt64.ofNat n).toBitVec.toInt = _
  rw [BitVec.toInt_eq_toNat_cond, UInt64.toBitVec_ofNat', BitVec.toNat_ofNat, Nat.mod_eq_of_lt hn]
  split_ifs <;> omega

theorem toInt_not (v : Int64) : (~~~v).toInt = -1 - v.toInt := by
  show (~~~v.toBitVec).toInt = -1 - v.toBitVec.toInt
  have hlt := v.toBitVec.isLt
  rw [BitVec.toInt_eq_toNat_cond, BitVec.toInt_eq_toNat_cond, BitVec.toNat_not]
  split_ifs <;> omega

/-- The number `read_int` makes of an argument. -/
def signedArgument (major : ℕ) (n : ℕ) : Int64 :=
  (if major = 0 then 0 else -1 : Int64) ^^^ (UInt64.ofNat n).toInt64

theorem toInt_signedArgument {major n : ℕ} (hn : n < 2 ^ 64) :
    (signedArgument major n).toInt =
      if major = 0 then (if n < 2 ^ 63 then (n : ℤ) else n - 2 ^ 64)
      else -1 - (if n < 2 ^ 63 then (n : ℤ) else n - 2 ^ 64) := by
  unfold signedArgument
  by_cases hmajor : major = 0
  · rw [if_pos hmajor, if_pos hmajor, Int64.zero_xor, toInt_toInt64 hn]
  · rw [if_neg hmajor, if_neg hmajor, Int64.neg_one_xor, toInt_not, toInt_toInt64 hn]

/-- Of major type 0 and 1 the decoder reads the argument and keeps its bits. -/
theorem readInt_cons {ib : UInt8} (buf : Bytes) (hmajor : ib.toNat / 32 < 2) :
    (readInt (ib :: buf)).toOption =
      (rfcArgument (ib.toNat % 32) buf).map fun r => (signedArgument (ib.toNat / 32) r.1, r.2) := by
  have hhigh : (ib >>> 5).toNat = ib.toNat / 32 := by
    simp [UInt8.toNat_shiftRight, Nat.shiftRight_eq_div_pow]
  have hlow : (ib &&& 0x1f).toNat = ib.toNat % 32 := by
    rw [UInt8.toNat_and, show (0x1f : UInt8).toNat = 2 ^ 5 - 1 from rfl, Nat.and_two_pow_sub_one_eq_mod]
  have hzero : ib >>> 5 = 0 ↔ ib.toNat / 32 = 0 := by
    rw [← UInt8.toNat_inj, hhigh]
    rfl
  have hone : ib >>> 5 = 1 ↔ ib.toNat / 32 = 1 := by
    rw [← UInt8.toNat_inj, hhigh]
    rfl
  have htype : ¬(ib >>> 5 ≠ 0 ∧ ib >>> 5 ≠ 1) := by
    rw [Ne, Ne, hzero, hone]
    omega
  rw [← hlow, ← readUint_toOption _ buf (by rw [hlow]; omega)]
  simp only [readInt, readU8, bind, Except.bind, if_neg htype, hzero, signedArgument]
  cases readUint (ib &&& 0x1f) buf <;> rfl

theorem read_bind_eq_ok {α β : Type} {x : Except CborError α} {f : α → Except CborError β} {b : β}
    (h : x >>= f = .ok b) : ∃ a, x = .ok a ∧ f a = .ok b := by
  cases x with
  | ok a => exact ⟨a, rfl, h⟩
  | error e => cases h

/-- The decoder takes integers from nowhere else. -/
theorem deserialize_eq_long {depth maxGroupSize : ℕ} {buf rest : Bytes} {v : Int64}
    (h : deserialize (depth + 1) maxGroupSize buf = .ok (.long v, rest)) :
    readInt buf = .ok (v, rest) := by
  unfold deserialize at h
  obtain ⟨major, -, h⟩ := read_bind_eq_ok h
  split_ifs at h
  · obtain ⟨⟨len, buf⟩, -, h⟩ := read_bind_eq_ok h
    dsimp only at h
    split_ifs at h
    · cases h
    · obtain ⟨⟨raw, buf⟩, -, h⟩ := read_bind_eq_ok h
      dsimp only at h
      split at h <;> cases h
  · obtain ⟨⟨len, buf⟩, -, h⟩ := read_bind_eq_ok h
    dsimp only at h
    split_ifs at h
    · cases h
    · obtain ⟨⟨raw, buf⟩, -, h⟩ := read_bind_eq_ok h
      cases h
  · obtain ⟨⟨n, buf⟩, hread, h⟩ := read_bind_eq_ok h
    cases h
    exact hread
  · obtain ⟨additional, -, h⟩ := read_bind_eq_ok h
    obtain ⟨⟨b, rest⟩, -, h⟩ := read_bind_eq_ok h
    dsimp only at h
    split_ifs at h <;> cases h
  · obtain ⟨⟨n, buf⟩, -, h⟩ := read_bind_eq_ok h
    dsimp only at h
    split_ifs at h
    · cases h
    · obtain ⟨⟨entries, buf⟩, -, h⟩ := read_bind_eq_ok h
      cases h
  · obtain ⟨⟨n, buf⟩, -, h⟩ := read_bind_eq_ok h
    dsimp only at h
    split_ifs at h
    · cases h
    · obtain ⟨⟨items, buf⟩, -, h⟩ := read_bind_eq_ok h
      cases h
  · obtain ⟨⟨tag, buf⟩, -, h⟩ := read_bind_eq_ok h
    dsimp only at h
    split_ifs at h
    · cases h
    · obtain ⟨⟨value, buf⟩, -, h⟩ := read_bind_eq_ok h
      obtain ⟨link, hlink, h⟩ := read_bind_eq_ok h
      cases h
      unfold linkTarget at hlink
      split at hlink <;> cases hlink
  · cases h

/-- The decoder on the bytes of an integer. -/
theorem deserialize_integer {ib : UInt8} {buf : Bytes} (hmajor : ib.toNat / 32 < 2)
    (depth maxGroupSize : ℕ) :
    deserialize (depth + 1) maxGroupSize (ib :: buf) =
      (readInt (ib :: buf) >>= fun r => .ok (.long r.1, r.2)) := by
  have hbits : ∀ ib : UInt8, ib.toNat / 32 < 2 → ib >>> 5 = 0 ∨ ib >>> 5 = 1 := by
    intro ib h
    rw [← UInt8.toNat_inj, ← UInt8.toNat_inj, UInt8.toNat_shiftRight]
    simp [Nat.shiftRight_eq_div_pow]
    omega
  have hne : ∀ m : UInt8, m = 0 ∨ m = 1 → m ≠ 3 ∧ m ≠ 2 := by
    rintro _ (rfl | rfl) <;> decide
  obtain ⟨h3, h2⟩ := hne _ (hbits ib hmajor)
  rw [deserialize]
  simp only [peekMajor, bind, Except.bind, if_neg h3, if_neg h2, if_pos (hbits ib hmajor)]

/-! ## When integers are decoded exactly -/

/-- The number read differs from the one encoded by `2 ^ 64` if that does not fit. -/
theorem rfcInteger_cons {ib : UInt8} {buf rest : Bytes} {n : ℤ}
    (h : rfcInteger (ib :: buf) = some (n, rest)) :
    ∃ v, readInt (ib :: buf) = .ok (v, rest) ∧ (v.toInt = n ↔ FitsI64 n) ∧
      ib.toNat / 32 < 2 := by
  have hread : ∀ arg, rfcArgument (ib.toNat % 32) buf = some (arg, rest) → arg < 2 ^ 64 := by
    intro arg harg
    rw [← UInt8.toNat_ofNat_of_lt' (show ib.toNat % 32 < 256 by omega),
      ← readUint_toOption _ _ (by simp; omega)] at harg
    cases hr : readUint (UInt8.ofNat (ib.toNat % 32)) buf with
    | error e =>
        rw [hr] at harg
        cases harg
    | ok r =>
        rw [hr] at harg
        cases harg
        exact readUint_lt hr
  have hint : ∀ arg, ib.toNat / 32 < 2 → rfcArgument (ib.toNat % 32) buf = some (arg, rest) →
      readInt (ib :: buf) = .ok (signedArgument (ib.toNat / 32) arg, rest) := by
    intro arg hmajor harg
    have hopt := readInt_cons buf hmajor
    rw [harg, Option.map_some] at hopt
    cases hr : readInt (ib :: buf) with
    | error e =>
        rw [hr] at hopt
        cases hopt
    | ok r =>
        rw [hr] at hopt
        rw [Option.some.inj hopt]
  simp only [rfcInteger] at h
  split_ifs at h with h0 h1
  · obtain ⟨⟨arg, rest'⟩, harg, heq⟩ := Option.map_eq_some_iff.1 h
    cases heq
    refine ⟨_, hint arg (by omega) harg, ?_, by omega⟩
    rw [toInt_signedArgument (hread arg harg), if_pos h0, FitsI64]
    split_ifs <;> constructor <;> omega
  · obtain ⟨⟨arg, rest'⟩, harg, heq⟩ := Option.map_eq_some_iff.1 h
    cases heq
    refine ⟨_, hint arg (by omega) harg, ?_, by omega⟩
    rw [toInt_signedArgument (hread arg harg), if_neg h0, FitsI64]
    split_ifs <;> constructor <;> omega

/-- Whatever the decoder takes for an integer is one. -/
theorem exists_rfcInteger {buf rest : Bytes} {v : Int64} (h : readInt buf = .ok (v, rest)) :
    ∃ n, rfcInteger buf = some (n, rest) := by
  cases buf with
  | nil => cases h
  | cons ib buf =>
      by_cases hmajor : ib.toNat / 32 < 2
      · have hopt := readInt_cons buf hmajor
        rw [h] at hopt
        obtain ⟨⟨arg, rest'⟩, harg, heq⟩ := Option.map_eq_some_iff.1 hopt.symm
        cases heq
        simp only [rfcInteger, harg]
        split_ifs
        · exact ⟨arg, rfl⟩
        · exact ⟨-1 - arg, rfl⟩
        · omega
      · unfold readInt at h
        simp only [readU8, bind, Except.bind] at h
        have htype : ∀ m : UInt8, 2 ≤ m.toNat → m ≠ 0 ∧ m ≠ 1 := by
          refine fun m hm => ⟨?_, ?_⟩ <;> rintro rfl <;> exact absurd hm (by decide)
        have hshift : 2 ≤ (ib >>> 5).toNat := by
          simp [UInt8.toNat_shiftRight, Nat.shiftRight_eq_div_pow]
          omega
        rw [if_pos (htype _ hshift)] at h
        cases h

/-- An encoded integer that does not fit is accepted all the same. -/
theorem not_decodesIntegers {depth maxGroupSize : ℕ} {buf rest : Bytes} {n : ℤ}
    (hn : rfcInteger buf = some (n, rest)) (hfits : ¬FitsI64 n) :
    ¬DecodesIntegers (deserialize (depth + 1) maxGroupSize) buf := by
  intro hexact
  obtain ⟨e, he⟩ := hexact.2 n rest hn hfits
  cases buf with
  | nil => cases hn
  | cons ib buf =>
      obtain ⟨v, hread, -, hmajor⟩ := rfcInteger_cons hn
      rw [deserialize_integer hmajor, hread] at he
      cases he

/-- **Integers.**  The decoder returns the integer that is encoded, or refuses it, just if the
integer fits into 64 bits with a sign. -/
theorem decodesIntegers_iff (depth maxGroupSize : ℕ) (buf : Bytes) :
    DecodesIntegers (deserialize (depth + 1) maxGroupSize) buf ↔
      ∀ n rest, rfcInteger buf = some (n, rest) → FitsI64 n := by
  constructor
  · exact fun hexact n rest hn => by_contra fun hfits => not_decodesIntegers hn hfits hexact
  · refine fun hall => ⟨fun v rest h => ?_, fun n rest hn hnot => absurd (hall n rest hn) hnot⟩
    have hread := deserialize_eq_long h
    obtain ⟨n, hn⟩ := exists_rfcInteger hread
    cases buf with
    | nil => cases hn
    | cons ib buf =>
        obtain ⟨v', hread', hvalue, -⟩ := rfcInteger_cons hn
        cases hread.symm.trans hread'
        rw [hn, hvalue.2 (hall n rest hn)]

/-- The largest argument is read as -1. -/
theorem largest_unsigned_is_minus_one :
    (fromBytes (0x1b :: List.replicate 8 0xff)).toOption = some (.long (-1)) ∧
      rfcInteger (0x1b :: List.replicate 8 0xff) = some (2 ^ 64 - 1, []) ∧
      ¬DecodesIntegers (deserialize 9 9) (0x1b :: List.replicate 8 0xff) := by
  have hvalue : rfcInteger (0x1b :: List.replicate 8 0xff) = some (2 ^ 64 - 1, []) := by decide
  have hread : (fromBytes (0x1b :: List.replicate 8 0xff)).toOption = some (.long (-1)) := by
    decide +kernel
  exact ⟨hread, hvalue, not_decodesIntegers hvalue (by decide)⟩

end CborObject

end Peergos
