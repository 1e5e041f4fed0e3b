import PeergosClient.Core.Multiformats
import PeergosClient.Lib.Utf8Bytes

/-!
# The check that a file begins like text

`valid_utf8` looks at the first bytes of a file, so the last character may be cut off.  It reads a
character at a time, and differs from the prefixes of UTF-8 text in two places: a surrogate is
refused from U+D801 on, and of a character that was cut off it looks only at the number of leading
ones and at the continuation bits.
-/

namespace Peergos

open Utf8Bytes

/-! ## The check -/

/-- `is_continuation_byte`. -/
def isContinuationByte (b : UInt8) : Bool := b &&& 0xc0 = 0x80

/-- `u8::leading_ones`. -/
def leadingOnes (b : UInt8) : ℕ :=
  if b.toNat < 0x80 then 0
  else if b.toNat < 0xc0 then 1
  else if b.toNat < 0xe0 then 2
  else if b.toNat < 0xf0 then 3
  else if b.toNat < 0xf8 then 4
  else if b.toNat < 0xfc then 5
  else if b.toNat < 0xfe then 6
  else if b.toNat < 0xff then 7
  else 8

/-- `val`, from the first byte of a character and the bytes after it; `none` where the source finds
that a shorter form would do. -/
def charVal (len : ℕ) (b : UInt8) (rest : Bytes) : Option ℕ :=
  let low (i : ℕ) : ℕ := (rest.getD i 0).toNat &&& 0x3f
  match len with
  | 2 =>
      let v := (b.toNat &&& 0x1f) <<< 6 ||| low 0
      if v ≤ 0x7f then none else some v
  | 3 =>
      let v := (b.toNat &&& 0xf) <<< 12 ||| low 0 <<< 6 ||| low 1
      if v ≤ 0x7ff then none else some v
  | _ =>
      let v := (b.toNat &&& 0x7) <<< 18 ||| low 0 <<< 12 ||| low 1 <<< 6 ||| low 2
      if v ≤ 0xffff then none else some v

/-- `valid_utf8`, on the bytes from `i` on. -/
def validUtf8 (data : Bytes) : Bool :=
  match data with
  | [] => true
  | b :: rest =>
      if b.toNat < 0x80 then validUtf8 rest
      else
        let len := leadingOnes b
        if ¬ (2 ≤ len ∧ len ≤ 4) then false
        else if rest.length + 1 < len then rest.all isContinuationByte
        else if ¬ (rest.take (len - 1)).all isContinuationByte then false
        else
          match charVal len b rest with
          | none => false
          | some val =>
              if val > 0x10ffff then false
              else if val > 0xd800 ∧ val ≤ 0xdfff then false
              else validUtf8 (rest.drop (len - 1))
termination_by data.length

/-! ## Bytes -/

theorem isContinuationByte_iff (b : UInt8) : isContinuationByte b = true ↔ IsTail b := by
  have hall : ∀ n < 256, (n &&& 0xc0 = 0x80) ↔ 0x80 ≤ n ∧ n < 0xc0 := by decide +kernel
  rw [isContinuationByte, decide_eq_true_iff, ← UInt8.toNat_inj, UInt8.toNat_and]
  exact hall b.toNat b.toNat_lt

theorem shiftLeft_or {a b k : ℕ} (h : b < 2 ^ k) : a <<< k ||| b = a * 2 ^ k + b := by
  rw [Nat.shiftLeft_eq, Nat.mul_comm, Nat.two_pow_add_eq_or_of_lt h]

theorem low_of_isTail {b : UInt8} (h : IsTail b) : b.toNat &&& 0x3f = b.toNat - 0x80 := by
  obtain ⟨h1, h2⟩ := h
  have := Nat.and_two_pow_sub_one_eq_mod b.toNat 6
  norm_num at this
  omega

theorem and_mask {n k m : ℕ} (hlo : k * 2 ^ m ≤ n) (hhi : n < k * 2 ^ m + 2 ^ m) :
    n &&& (2 ^ m - 1) = n - k * 2 ^ m := by
  rw [Nat.and_two_pow_sub_one_eq_mod]
  obtain ⟨r, rfl⟩ := Nat.exists_eq_add_of_le hlo
  rw [Nat.add_comm, Nat.add_mul_mod_self_right, Nat.mod_eq_of_lt (by omega)]
  omega

theorem leadingOnes_two {a : UInt8} (h : 0xc0 ≤ a.toNat) (h' : a.toNat < 0xe0) :
    leadingOnes a = 2 := by
  unfold leadingOnes
  rw [if_neg (by omega), if_neg (by omega), if_pos h']

theorem leadingOnes_three {a : UInt8} (h : 0xe0 ≤ a.toNat) (h' : a.toNat < 0xf0) :
    leadingOnes a = 3 := by
  unfold leadingOnes
  rw [if_neg (by omega), if_neg (by omega), if_neg (by omega), if_pos h']

theorem leadingOnes_four {a : UInt8} (h : 0xf0 ≤ a.toNat) (h' : a.toNat < 0xf8) :
    leadingOnes a = 4 := by
  unfold leadingOnes
  rw [if_neg (by omega), if_neg (by omega), if_neg (by omega), if_neg (by omega), if_pos h']

/-- The first bytes that begin a character of two to four. -/
theorem leadingOnes_bounds {a : UInt8} (h : 2 ≤ leadingOnes a) (h' : leadingOnes a ≤ 4) :
    0xc0 ≤ a.toNat ∧ a.toNat < 0xf8 := by
  unfold leadingOnes at h h'
  split_ifs at h h' <;> omega

theorem le_of_three_le_leadingOnes {a : UInt8} (h : 3 ≤ leadingOnes a) : 0xe0 ≤ a.toNat := by
  unfold leadingOnes at h
  split_ifs at h <;> omega

theorem le_of_four_le_leadingOnes {a : UInt8} (h : 4 ≤ leadingOnes a) : 0xf0 ≤ a.toNat := by
  unfold leadingOnes at h
  split_ifs at h <;> omega

/-! ## One character -/

theorem charVal_two {a x : UInt8} {rest : Bytes} (ha : 0xc0 ≤ a.toNat) (ha' : a.toNat < 0xe0)
    (hx : IsTail x) :
    charVal 2 a (x :: rest) =
      if (a.toNat - 0xc0) * 64 + (x.toNat - 0x80) ≤ 0x7f then none
      else some ((a.toNat - 0xc0) * 64 + (x.toNat - 0x80)) := by
  have hfirst : a.toNat &&& 0x1f = a.toNat - 0xc0 :=
    and_mask (k := 6) (m := 5) (by omega) (by omega)
  have hx1 := hx.1
  have hx2 := hx.2
  have hval : (a.toNat - 0xc0) <<< 6 ||| (x.toNat - 0x80) = _ := shiftLeft_or (by omega)
  unfold charVal
  simp only [List.getD_cons_zero, hfirst, low_of_isTail hx, hval]
  rfl

theorem charVal_three {a x y : UInt8} {rest : Bytes} (ha : 0xe0 ≤ a.toNat) (ha' : a.toNat < 0xf0)
    (hx : IsTail x) (hy : IsTail y) :
    charVal 3 a (x :: y :: rest) =
      if (a.toNat - 0xe0) * 4096 + (x.toNat - 0x80) * 64 + (y.toNat - 0x80) ≤ 0x7ff then none
      else some ((a.toNat - 0xe0) * 4096 + (x.toNat - 0x80) * 64 + (y.toNat - 0x80)) := by
  have hfirst : a.toNat &&& 0xf = a.toNat - 0xe0 :=
    and_mask (k := 14) (m := 4) (by omega) (by omega)
  have hx2 := hx.2
  have hy2 := hy.2
  have hval : (a.toNat - 0xe0) <<< 12 ||| (x.toNat - 0x80) <<< 6 ||| (y.toNat - 0x80) =
      (a.toNat - 0xe0) * 4096 + (x.toNat - 0x80) * 64 + (y.toNat - 0x80) := by
    rw [show (12 : ℕ) = 6 + 6 from rfl, Nat.shiftLeft_add, ← Nat.shiftLeft_or_distrib,
      shiftLeft_or (a := a.toNat - 0xe0) (by omega), shiftLeft_or (by omega)]
    ring
  unfold charVal
  simp only [List.getD_cons_zero, List.getD_cons_succ, hfirst, low_of_isTail hx, low_of_isTail hy,
    hval]

theorem charVal_four {a x y z : UInt8} {rest : Bytes} (ha : 0xf0 ≤ a.toNat) (ha' : a.toNat < 0xf8)
    (hx : IsTail x) (hy : IsTail y) (hz : IsTail z) :
    charVal 4 a (x :: y :: z :: rest) =
      if (a.toNat - 0xf0) * 262144 + (x.toNat - 0x80) * 4096 + (y.toNat - 0x80) * 64 +
          (z.toNat - 0x80) ≤ 0xffff then none
      else some ((a.toNat - 0xf0) * 262144 + (x.toNat - 0x80) * 4096 + (y.toNat - 0x80) * 64 +
        (z.toNat - 0x80)) := by
  have hfirst : a.toNat &&& 0x7 = a.toNat - 0xf0 :=
    and_mask (k := 30) (m := 3) (by omega) (by omega)
  have hx2 := hx.2
  have hy2 := hy.2
  have hz2 := hz.2
  have hval : (a.toNat - 0xf0) <<< 18 ||| (x.toNat - 0x80) <<< 12 ||| (y.toNat - 0x80) <<< 6 |||
      (z.toNat - 0x80) = (a.toNat - 0xf0) * 262144 + (x.toNat - 0x80) * 4096 +
        (y.toNat - 0x80) * 64 + (z.toNat - 0x80) := by
    rw [show (18 : ℕ) = 6 + 12 from rfl, Nat.shiftLeft_add, ← Nat.shiftLeft_or_distrib,
      show (12 : ℕ) = 6 + 6 from rfl, Nat.shiftLeft_add, ← Nat.shiftLeft_or_distrib,
      shiftLeft_or (a := a.toNat - 0xf0) (by omega),
      shiftLeft_or (b := y.toNat - 0x80) (by omega), shiftLeft_or (by omega)]
    ring
  unfold charVal
  simp only [List.getD_cons_zero, List.getD_cons_succ, hfirst, low_of_isTail hx, low_of_isTail hy,
    low_of_isTail hz, hval]

/-- The numbers that pass. -/
def Passes (v : ℕ) : Prop := v ≤ 0x10ffff ∧ ¬ (0xd800 < v ∧ v ≤ 0xdfff)

instance (v : ℕ) : Decidable (Passes v) := inferInstanceAs (Decidable (_ ∧ _))

theorem validUtf8_nil : validUtf8 [] = true := by
  rw [validUtf8]

theorem validUtf8_ascii {a : UInt8} (h : a.toNat < 0x80) (rest : Bytes) :
    validUtf8 (a :: rest) = validUtf8 rest := by
  rw [validUtf8, if_pos h]

/-- A first byte with all the bytes it asks for. -/
theorem validUtf8_full {a : UInt8} {rest : Bytes} {len : ℕ} (hlen : leadingOnes a = len)
    (h2 : 2 ≤ len) (h4 : len ≤ 4) (hroom : len ≤ rest.length + 1)
    (htails : (rest.take (len - 1)).all isContinuationByte = true) :
    validUtf8 (a :: rest) =
      match charVal len a rest with
      | none => false
      | some v => decide (Passes v) && validUtf8 (rest.drop (len - 1)) := by
  have hfirst := leadingOnes_bounds (hlen ▸ h2) (hlen ▸ h4)
  rw [validUtf8, if_neg (by omega)]
  simp only [hlen]
  rw [if_neg (by simp [h2, h4]), if_neg (by omega), if_neg (by simpa using htails)]
  cases charVal len a rest with
  | none => rfl
  | some v =>
      dsimp only
      by_cases hbig : v > 0x10ffff
      · rw [if_pos hbig, decide_eq_false (fun hp : Passes v => absurd hp.1 (by omega))]
        rfl
      · rw [if_neg hbig]
        by_cases hsurrogate : v > 0xd800 ∧ v ≤ 0xdfff
        · rw [if_pos hsurrogate, decide_eq_false (fun hp : Passes v => hp.2 hsurrogate)]
          rfl
        · have hpasses : Passes v := ⟨by omega, hsurrogate⟩
          rw [if_neg hsurrogate, decide_eq_true hpasses]
          rfl

/-- A character that is there in full. -/
theorem validUtf8_append {v : ℕ} {l : Bytes} (h : Encodes v l) (rest : Bytes) :
    validUtf8 (l ++ rest) = (decide (Passes v) && validUtf8 rest) := by
  cases h with
  | one ha =>
      rw [List.singleton_append, validUtf8_ascii ha, decide_eq_true, Bool.true_and]
      exact ⟨by omega, by omega⟩
  | two ha ha' hb =>
      have hpos := hb.1
      rw [List.cons_append, List.singleton_append,
        validUtf8_full (leadingOnes_two (by omega) ha') (by omega) (by omega) (by simp)
          (by simpa using (isContinuationByte_iff _).2 hb),
        charVal_two (by omega) ha' hb, if_neg (by omega)]
      rfl
  | three ha ha' hb hc hshort =>
      have hpos := hb.1
      rw [List.cons_append, List.cons_append, List.singleton_append,
        validUtf8_full (leadingOnes_three ha ha') (by omega) (by omega) (by simp)
          (by simp [(isContinuationByte_iff _).2 hb, (isContinuationByte_iff _).2 hc]),
        charVal_three ha ha' hb hc, if_neg (by omega)]
      rfl
  | four ha ha' hb hc hd hshort =>
      have hpos := hb.1
      rw [List.cons_append, List.cons_append, List.cons_append, List.singleton_append,
        validUtf8_full (leadingOnes_four ha ha') (by omega) (by omega) (by simp)
          (by simp [(isContinuationByte_iff _).2 hb, (isContinuationByte_iff _).2 hc,
            (isContinuationByte_iff _).2 hd]),
        charVal_four ha ha' hb hc hd, if_neg (by omega)]
      rfl

/-- A first byte with too few bytes after it. -/
theorem validUtf8_short {a : UInt8} {rest : Bytes} (ha : 0xc0 ≤ a.toNat) (ha' : a.toNat < 0xf8)
    (hroom : rest.length + 1 < leadingOnes a) :
    validUtf8 (a :: rest) = rest.all isContinuationByte := by
  have hbounds : 2 ≤ leadingOnes a ∧ leadingOnes a ≤ 4 := by
    unfold leadingOnes
    split_ifs <;> omega
  rw [validUtf8, if_neg (by omega)]
  dsimp only
  rw [if_neg (not_not.2 hbounds), if_pos hroom]

/-- A character that was cut off passes whatever it is. -/
theorem validUtf8_cutOff {t : Bytes} (h : CutOff t) : validUtf8 t = true := by
  have hlen : ∀ {a : UInt8}, 0xc0 ≤ a.toNat → a.toNat < 0xf8 →
      (0xe0 ≤ a.toNat → 3 ≤ leadingOnes a) ∧ (0xf0 ≤ a.toNat → 4 ≤ leadingOnes a) ∧
        2 ≤ leadingOnes a := by
    intro a ha ha'
    unfold leadingOnes
    split_ifs <;> omega
  cases h with
  | @first a ha ha' =>
      have h2 : ([] : Bytes).length + 1 < leadingOnes a := (hlen ha ha').2.2
      rw [validUtf8_short ha ha' h2]
      rfl
  | @second a b ha ha' hb =>
      have h3 : [b].length + 1 < leadingOnes a := (hlen (by omega) ha').1 ha
      rw [validUtf8_short (by omega) ha' h3]
      simpa using (isContinuationByte_iff _).2 hb
  | @third a b c ha ha' hb hc =>
      have h4 : [b, c].length + 1 < leadingOnes a := (hlen (by omega) ha').2.1 ha
      rw [validUtf8_short (by omega) ha' h4]
      simp [(isContinuationByte_iff _).2 hb, (isContinuationByte_iff _).2 hc]

/-- What passes begins with a character or is one that was cut off. -/
theorem exists_character {d : Bytes} (h : validUtf8 d = true) :
    d = [] ∨ CutOff d ∨ ∃ v l rest, Encodes v l ∧ d = l ++ rest := by
  cases d with
  | nil => exact .inl rfl
  | cons a rest =>
      right
      by_cases hascii : a.toNat < 0x80
      · exact .inr ⟨a.toNat, [a], rest, .one hascii, rfl⟩
      have hstep := h
      rw [validUtf8, if_neg hascii] at hstep
      dsimp only at hstep
      split_ifs at hstep with hlen hroom htails
      · -- the character is cut off
        obtain ⟨ha, ha'⟩ := leadingOnes_bounds hlen.1 hlen.2
        left
        match rest with
        | [] => exact .first ha ha'
        | [b] =>
            have hb : isContinuationByte b = true := by simpa using hstep
            exact .second (le_of_three_le_leadingOnes hroom) ha' ((isContinuationByte_iff b).1 hb)
        | [b, c] =>
            have hbc : isContinuationByte b = true ∧ isContinuationByte c = true := by
              simpa using hstep
            exact .third (le_of_four_le_leadingOnes hroom) ha' ((isContinuationByte_iff b).1 hbc.1)
              ((isContinuationByte_iff c).1 hbc.2)
        | b :: c :: e :: rest =>
            simp only [List.length_cons] at hroom
            omega
      · -- the character is there
        right
        obtain ⟨ha, ha'⟩ := leadingOnes_bounds hlen.1 hlen.2
        rcases Nat.lt_or_ge a.toNat 0xe0 with htwo | hthree
        · rw [leadingOnes_two ha htwo] at hroom htails hstep
          match rest with
          | [] => simp at hroom
          | x :: rest =>
              have hx : IsTail x := (isContinuationByte_iff x).1 (by simpa using htails)
              rw [charVal_two ha htwo hx] at hstep
              have hx1 := hx.1
              by_cases hover : (a.toNat - 0xc0) * 64 + (x.toNat - 0x80) ≤ 0x7f
              · rw [if_pos hover] at hstep
                cases hstep
              · have hx2 := hx.2
                exact ⟨_, [a, x], rest, .two (by omega) htwo hx, rfl⟩
        rcases Nat.lt_or_ge a.toNat 0xf0 with hshort | hfour
        · rw [leadingOnes_three hthree hshort] at hroom htails hstep
          match rest with
          | [] => simp at hroom
          | [_] => simp at hroom
          | x :: y :: rest =>
              have hxy : isContinuationByte x = true ∧ isContinuationByte y = true := by
                simpa using htails
              have hx := (isContinuationByte_iff x).1 hxy.1
              have hy := (isContinuationByte_iff y).1 hxy.2
              rw [charVal_three hthree hshort hx hy] at hstep
              by_cases hover : (a.toNat - 0xe0) * 4096 + (x.toNat - 0x80) * 64 +
                  (y.toNat - 0x80) ≤ 0x7ff
              · rw [if_pos hover] at hstep
                cases hstep
              · have hy2 := hy.2
                exact ⟨_, [a, x, y], rest, .three hthree hshort hx hy (by omega), rfl⟩
        · rw [leadingOnes_four hfour ha'] at hroom htails hstep
          match rest with
          | [] => simp at hroom
          | [_] => simp at hroom
          | [_, _] => simp at hroom
          | x :: y :: z :: rest =>
              have hxyz : isContinuationByte x = true ∧ isContinuationByte y = true ∧
                  isContinuationByte z = true := by
                simpa using htails
              have hx := (isContinuationByte_iff x).1 hxyz.1
              have hy := (isContinuationByte_iff y).1 hxyz.2.1
              have hz := (isContinuationByte_iff z).1 hxyz.2.2
              rw [charVal_four hfour ha' hx hy hz] at hstep
              by_cases hover : (a.toNat - 0xf0) * 262144 + (x.toNat - 0x80) * 4096 +
                  (y.toNat - 0x80) * 64 + (z.toNat - 0x80) ≤ 0xffff
              · rw [if_pos hover] at hstep
                cases hstep
              · have hy2 := hy.2
                have hz2 := hz.2
                exact ⟨_, [a, x, y, z], rest, .four hfour ha' hx hy hz (by omega), rfl⟩

/-! ## What passes -/

/-- Nothing, or a character that was cut off. -/
def AnyEnd (t : Bytes) : Prop := t = [] ∨ CutOff t

/-- The byte strings that pass. -/
theorem validUtf8_iff {d : Bytes} : validUtf8 d = true ↔ Text Passes AnyEnd d := by
  constructor
  · intro h
    induction hlen : d.length using Nat.strong_induction_on generalizing d with
    | _ n ih =>
        rcases exists_character h with rfl | hcut | ⟨v, l, rest, hl, rfl⟩
        · exact .tail (.inl rfl)
        · exact .tail (.inr hcut)
        · rw [validUtf8_append hl, Bool.and_eq_true, decide_eq_true_iff] at h
          have hpos := List.length_pos_iff.2 hl.ne_nil
          rw [List.length_append] at hlen
          exact .cons hl h.1 (ih rest.length (by omega) h.2 rfl)
  · intro h
    induction h with
    | tail h =>
        rcases h with rfl | hcut
        · exact validUtf8_nil
        · exact validUtf8_cutOff hcut
    | cons hl hv _ ih => rw [validUtf8_append hl, ih, decide_eq_true hv, Bool.and_self]

/-- Text that passes with the surrogate U+D800 in it, or with bytes at its end that no character
begins with. -/
inductive Misjudged : Bytes → Prop where
  | surrogate {l rest : Bytes} (hl : Encodes 0xd800 l) (hrest : Text Passes AnyEnd rest) :
      Misjudged (l ++ rest)
  | ending {t : Bytes} (ht : CutOff t) (h : Impossible t) : Misjudged t
  | later {v : ℕ} {l rest : Bytes} (hl : Encodes v l) (hv : IsScalar v) (hrest : Misjudged rest) :
      Misjudged (l ++ rest)

theorem passes_iff (v : ℕ) : Passes v ↔ IsScalar v ∨ v = 0xd800 := by
  rw [Passes, IsScalar, Nat.isValidChar]
  omega

theorem not_isScalar_surrogate : ¬ IsScalar 0xd800 := by decide

theorem Misjudged.passes {d : Bytes} (h : Misjudged d) : Text Passes AnyEnd d := by
  induction h with
  | surrogate hl hrest => exact .cons hl ((passes_iff _).2 (.inr rfl)) hrest
  | ending ht _ => exact .tail (.inr ht)
  | later hl hv _ ih => exact .cons hl ((passes_iff _).2 (.inl hv)) ih

/-- Misjudged bytes are no beginning of a text: the induction is on what is wrong with them, and a
character is split off both the bytes and the text. -/
theorem Misjudged.not_text {d : Bytes} (h : Misjudged d) : ¬ Text IsScalar MayEnd d := by
  induction h with
  | surrogate hl _ => exact fun ht => not_isScalar_surrogate (ht.of_append hl).1
  | @ending t hcut himp =>
      intro ht
      cases ht with
      | tail h =>
          rcases h with rfl | ⟨-, hpossible⟩
          · cases hcut
          · exact hpossible himp
      | cons hl _ _ => exact hcut.not_prefix hl (List.prefix_append _ _)
  | later hl _ _ ih => exact fun ht => ih (ht.of_append hl).2

theorem text_of_passes {d : Bytes} (h : Text Passes AnyEnd d) (hm : ¬ Misjudged d) :
    Text IsScalar MayEnd d := by
  induction h with
  | tail h =>
      refine .tail ?_
      rcases h with rfl | hcut
      · exact .inl rfl
      · exact .inr ⟨hcut, fun himp => hm (.ending hcut himp)⟩
  | @cons v l rest hl hv hrest ih =>
      rcases (passes_iff v).1 hv with hscalar | rfl
      · exact .cons hl hscalar (ih fun h => hm (.later hl hscalar h))
      · exact absurd (.surrogate hl hrest) hm

theorem passes_of_text {d : Bytes} (h : Text IsScalar MayEnd d) : Text Passes AnyEnd d := by
  induction h with
  | tail h => exact .tail (h.imp id And.left)
  | cons hl hv _ ih => exact .cons hl ((passes_iff _).2 (.inl hv)) ih

theorem Misjudged.accepted {d : Bytes} (h : Misjudged d) :
    validUtf8 d = true ∧ ¬ ∃ cs : List Char, d <+: cs.flatMap String.utf8EncodeChar :=
  ⟨validUtf8_iff.2 h.passes, fun hpre => h.not_text (exists_text_iff.1 hpre)⟩

/-- **The check is exact but for two kinds of bytes.**  It accepts just the beginnings of UTF-8
texts, except for byte strings with the surrogate U+D800 and for those that end in a cut-off
character that no character begins with. -/
theorem validUtf8_exact_iff (d : Bytes) :
    (validUtf8 d = true ↔ ∃ cs : List Char, d <+: cs.flatMap String.utf8EncodeChar) ↔
      ¬ Misjudged d := by
  rw [exists_text_iff, validUtf8_iff]
  constructor
  · intro h hm
    exact hm.not_text (h.1 hm.passes)
  · exact fun hm => ⟨fun h => text_of_passes h hm, passes_of_text⟩

/-- The surrogate U+D800, and the first two bytes of a longer form of a character of two. -/
theorem validUtf8_not_exact :
    (validUtf8 [0xed, 0xa0, 0x80] = true ∧
        ¬ ∃ cs : List Char, [0xed, 0xa0, 0x80] <+: cs.flatMap String.utf8EncodeChar) ∧
      (validUtf8 [0xe0, 0x80] = true ∧
        ¬ ∃ cs : List Char, [0xe0, 0x80] <+: cs.flatMap String.utf8EncodeChar) := by
  constructor
  · have hl : Encodes 0xd800 [0xed, 0xa0, 0x80] :=
      .three (a := 0xed) (b := 0xa0) (c := 0x80) (by decide) (by decide) (by decide) (by decide)
        (by decide)
    have hm : Misjudged ([0xed, 0xa0, 0x80] ++ []) := .surrogate hl (.tail (.inl rfl))
    exact hm.accepted
  · have hcut : CutOff [0xe0, 0x80] := .second (by decide) (by decide) (by decide)
    exact (Misjudged.ending hcut (by simp [Impossible])).accepted

end Peergos
