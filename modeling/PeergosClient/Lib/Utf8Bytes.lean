import Mathlib

/-!
# The bytes of UTF-8 text

A code point is written in the shortest of four forms, each a first byte that tells how many bytes
follow it.  So a character can be split off the front of a byte string in one way only, and the
bytes a character begins with are those of a character that was cut off, but for a few that only
longer forms, surrogates or numbers past the last code point begin with.
-/

namespace Utf8Bytes

/-- A byte after the first of a character. -/
def IsTail (b : UInt8) : Prop := 0x80 ≤ b.toNat ∧ b.toNat < 0xc0

instance (b : UInt8) : Decidable (IsTail b) := inferInstanceAs (Decidable (_ ∧ _))

/-- A code point and its shortest form.  The numbers go up to what four bytes can hold, and the
surrogates are among them. -/
inductive Encodes : ℕ → List UInt8 → Prop where
  | one {a : UInt8} (ha : a.toNat < 0x80) : Encodes a.toNat [a]
  | two {a b : UInt8} (ha : 0xc2 ≤ a.toNat) (ha' : a.toNat < 0xe0) (hb : IsTail b) :
      Encodes ((a.toNat - 0xc0) * 64 + (b.toNat - 0x80)) [a, b]
  | three {a b c : UInt8} (ha : 0xe0 ≤ a.toNat) (ha' : a.toNat < 0xf0) (hb : IsTail b)
      (hc : IsTail c) (hshort : a.toNat = 0xe0 → 0xa0 ≤ b.toNat) :
      Encodes ((a.toNat - 0xe0) * 4096 + (b.toNat - 0x80) * 64 + (c.toNat - 0x80)) [a, b, c]
  | four {a b c d : UInt8} (ha : 0xf0 ≤ a.toNat) (ha' : a.toNat < 0xf8) (hb : IsTail b)
      (hc : IsTail c) (hd : IsTail d) (hshort : a.toNat = 0xf0 → 0x90 ≤ b.toNat) :
      Encodes ((a.toNat - 0xf0) * 262144 + (b.toNat - 0x80) * 4096 + (c.toNat - 0x80) * 64 +
        (d.toNat - 0x80)) [a, b, c, d]

/-- The numbers that are characters. -/
def IsScalar (v : ℕ) : Prop := v.isValidChar

instance (v : ℕ) : Decidable (IsScalar v) := inferInstanceAs (Decidable v.isValidChar)

/-! ## Reading a character off the front -/

theorem Encodes.ne_nil {v : ℕ} {l : List UInt8} (h : Encodes v l) : l ≠ [] := by
  cases h <;> simp

/-- The first byte tells the length, and the bytes tell the number. -/
theorem Encodes.append_inj {v w : ℕ} {l m s t : List UInt8} (hl : Encodes v l) (hm : Encodes w m)
    (h : l ++ s = m ++ t) : v = w ∧ l = m ∧ s = t := by
  cases hl <;> cases hm <;> simp_all <;> omega

/-! ## Writing -/

/-- The encoder of the standard library, on any number. -/
def encode (v : ℕ) : List UInt8 :=
  if v ≤ 0x7f then [UInt8.ofNat v]
  else if v ≤ 0x7ff then [UInt8.ofNat (v / 64 % 0x20 + 0xc0), UInt8.ofNat (v % 0x40 + 0x80)]
  else if v ≤ 0xffff then
    [UInt8.ofNat (v / 4096 % 0x10 + 0xe0), UInt8.ofNat (v / 64 % 0x40 + 0x80),
      UInt8.ofNat (v % 0x40 + 0x80)]
  else
    [UInt8.ofNat (v / 262144 % 0x08 + 0xf0), UInt8.ofNat (v / 4096 % 0x40 + 0x80),
      UInt8.ofNat (v / 64 % 0x40 + 0x80), UInt8.ofNat (v % 0x40 + 0x80)]

theorem utf8EncodeChar_eq (c : Char) : String.utf8EncodeChar c = encode c.toNat := rfl

theorem Encodes.of_eq {v w : ℕ} {l : List UInt8} (h : Encodes w l) (hw : w = v) : Encodes v l :=
  hw ▸ h

theorem toNat_ofNat_of_lt {n : ℕ} (h : n < 256) : (UInt8.ofNat n).toNat = n := by
  rw [UInt8.toNat_ofNat']
  omega

theorem isTail_ofNat (n : ℕ) : IsTail (UInt8.ofNat (n % 0x40 + 0x80)) := by
  rw [IsTail, toNat_ofNat_of_lt (by omega)]
  omega

/-- What is written is the shortest form. -/
theorem encodes_encode {v : ℕ} (h : v < 0x200000) : Encodes v (encode v) := by
  unfold encode
  split_ifs with h1 h2 h3
  · refine (Encodes.one ?_).of_eq ?_ <;> rw [toNat_ofNat_of_lt (by omega)]
    omega
  · have ha : (UInt8.ofNat (v / 64 % 0x20 + 0xc0)).toNat = v / 64 + 0xc0 := by
      rw [toNat_ofNat_of_lt (by omega)]
      omega
    have hb := toNat_ofNat_of_lt (show v % 0x40 + 0x80 < 256 by omega)
    refine (Encodes.two ?_ ?_ (isTail_ofNat v)).of_eq ?_ <;> omega
  · have ha : (UInt8.ofNat (v / 4096 % 0x10 + 0xe0)).toNat = v / 4096 + 0xe0 := by
      rw [toNat_ofNat_of_lt (by omega)]
      omega
    have hb := toNat_ofNat_of_lt (show v / 64 % 0x40 + 0x80 < 256 by omega)
    have hc := toNat_ofNat_of_lt (show v % 0x40 + 0x80 < 256 by omega)
    refine (Encodes.three ?_ ?_ (isTail_ofNat (v / 64)) (isTail_ofNat v) ?_).of_eq ?_ <;> omega
  · have ha : (UInt8.ofNat (v / 262144 % 0x08 + 0xf0)).toNat = v / 262144 + 0xf0 := by
      rw [toNat_ofNat_of_lt (by omega)]
      omega
    have hb := toNat_ofNat_of_lt (show v / 4096 % 0x40 + 0x80 < 256 by omega)
    have hc := toNat_ofNat_of_lt (show v / 64 % 0x40 + 0x80 < 256 by omega)
    have hd := toNat_ofNat_of_lt (show v % 0x40 + 0x80 < 256 by omega)
    refine (Encodes.four ?_ ?_ (isTail_ofNat (v / 4096)) (isTail_ofNat (v / 64)) (isTail_ofNat v)
      ?_).of_eq ?_ <;> omega

theorem ofNat_eq_of_toNat {n : ℕ} {b : UInt8} (h : n = b.toNat) : UInt8.ofNat n = b := by
  rw [h, UInt8.ofNat_toNat]

/-- The shortest form is what is written. -/
theorem Encodes.eq_encode {v : ℕ} {l : List UInt8} (h : Encodes v l) : encode v = l := by
  unfold encode
  cases h with
  | one ha => rw [if_pos (by omega), UInt8.ofNat_toNat]
  | two ha ha' hb =>
      have := hb.1
      have := hb.2
      rw [if_neg (by omega), if_pos (by omega)]
      simp only [List.cons.injEq, and_true]
      exact ⟨ofNat_eq_of_toNat (by omega), ofNat_eq_of_toNat (by omega)⟩
  | three ha ha' hb hc hshort =>
      have := hb.1
      have := hb.2
      have := hc.1
      have := hc.2
      rw [if_neg (by omega), if_neg (by omega), if_pos (by omega)]
      simp only [List.cons.injEq, and_true]
      exact ⟨ofNat_eq_of_toNat (by omega), ofNat_eq_of_toNat (by omega),
        ofNat_eq_of_toNat (by omega)⟩
  | four ha ha' hb hc hd hshort =>
      have := hb.1
      have := hb.2
      have := hc.1
      have := hc.2
      have := hd.1
      have := hd.2
      rw [if_neg (by omega), if_neg (by omega), if_neg (by omega)]
      simp only [List.cons.injEq, and_true]
      exact ⟨ofNat_eq_of_toNat (by omega), ofNat_eq_of_toNat (by omega),
        ofNat_eq_of_toNat (by omega), ofNat_eq_of_toNat (by omega)⟩

/-- The encoding of a character. -/
theorem encodes_char (c : Char) : Encodes c.toNat (String.utf8EncodeChar c) := by
  rw [utf8EncodeChar_eq]
  refine encodes_encode ?_
  have hvalid := c.valid
  have : c.toNat = c.val.toNat := rfl
  rw [UInt32.isValidChar, Nat.isValidChar] at hvalid
  omega

/-- A scalar value is a character, with its bytes. -/
theorem Encodes.exists_char {v : ℕ} {l : List UInt8} (h : Encodes v l) (hv : IsScalar v) :
    ∃ c : Char, c.toNat = v ∧ String.utf8EncodeChar c = l := by
  have hchar : (Char.ofNat v).toNat = v := by
    rw [Char.toNat_ofNat]
    exact if_pos hv
  refine ⟨Char.ofNat v, hchar, ?_⟩
  rw [utf8EncodeChar_eq, hchar, h.eq_encode]

theorem isScalar_toNat (c : Char) : IsScalar c.toNat := c.valid

/-! ## Characters that were cut off -/

/-- A first byte with fewer bytes after it than it asks for. -/
inductive CutOff : List UInt8 → Prop where
  | first {a : UInt8} (ha : 0xc0 ≤ a.toNat) (ha' : a.toNat < 0xf8) : CutOff [a]
  | second {a b : UInt8} (ha : 0xe0 ≤ a.toNat) (ha' : a.toNat < 0xf8) (hb : IsTail b) :
      CutOff [a, b]
  | third {a b c : UInt8} (ha : 0xf0 ≤ a.toNat) (ha' : a.toNat < 0xf8) (hb : IsTail b)
      (hc : IsTail c) : CutOff [a, b, c]

/-- Bytes that no character begins with: of longer forms, of surrogates and of numbers past the last
code point. -/
def Impossible : List UInt8 → Prop
  | [] => False
  | [a] => a.toNat < 0xc2 ∨ 0xf5 ≤ a.toNat
  | a :: b :: _ =>
      0xf5 ≤ a.toNat ∨ (a.toNat = 0xe0 ∧ b.toNat < 0xa0) ∨ (a.toNat = 0xed ∧ 0xa0 ≤ b.toNat) ∨
        (a.toNat = 0xf0 ∧ b.toNat < 0x90) ∨ (a.toNat = 0xf4 ∧ 0x90 ≤ b.toNat)

/-- What is left when a character is cut off. -/
theorem Encodes.cutOff {v : ℕ} {l t : List UInt8} (h : Encodes v l) (ht : t <+: l) (hne : t ≠ [])
    (hlt : t ≠ l) : CutOff t := by
  obtain ⟨s, hs⟩ := ht
  have hs0 : s ≠ [] := by
    rintro rfl
    exact hlt (by simpa using hs)
  cases h with
  | one ha =>
      obtain ⟨x, t, rfl⟩ := List.exists_cons_of_ne_nil hne
      simp_all
  | two ha ha' hb =>
      match t, hne with
      | [x], _ =>
          simp only [List.cons_append, List.cons.injEq] at hs
          obtain ⟨rfl, -⟩ := hs
          exact .first (by omega) (by omega)
      | x :: y :: t, _ => simp_all
  | three ha ha' hb hc hshort =>
      match t, hne with
      | [x], _ =>
          simp only [List.cons_append, List.cons.injEq] at hs
          obtain ⟨rfl, -⟩ := hs
          exact .first (by omega) (by omega)
      | [x, y], _ =>
          simp only [List.cons_append, List.cons.injEq] at hs
          obtain ⟨rfl, rfl, -⟩ := hs
          exact .second ha (by omega) hb
      | x :: y :: z :: t, _ => simp_all
  | four ha ha' hb hc hd hshort =>
      match t, hne with
      | [x], _ =>
          simp only [List.cons_append, List.cons.injEq] at hs
          obtain ⟨rfl, -⟩ := hs
          exact .first (by omega) ha'
      | [x, y], _ =>
          simp only [List.cons_append, List.cons.injEq] at hs
          obtain ⟨rfl, rfl, -⟩ := hs
          exact .second (by omega) ha' hb
      | [x, y, z], _ =>
          simp only [List.cons_append, List.cons.injEq] at hs
          obtain ⟨rfl, rfl, rfl, -⟩ := hs
          exact .third ha ha' hb hc
      | x :: y :: z :: w :: t, _ => simp_all

/-- No character begins with impossible bytes. -/
theorem Impossible.not_prefix {v : ℕ} {l t : List UInt8} (h : Impossible t) (hl : Encodes v l)
    (hv : IsScalar v) (ht : CutOff t) : ¬ t <+: l := by
  rintro ⟨s, rfl⟩
  rw [IsScalar, Nat.isValidChar] at hv
  cases ht <;> cases hl <;> simp_all [Impossible, IsTail] <;> omega

theorem isTail_low : IsTail 0x80 := by decide

/-- A first byte of three or four that a character begins with has a second byte. -/
theorem exists_second {a : UInt8} (ha : a.toNat < 0xf5) :
    ∃ b, IsTail b ∧ ¬ Impossible [a, b] := by
  by_cases hshort : a.toNat = 0xe0 ∨ a.toNat = 0xf0
  · rcases hshort with h | h
    · exact ⟨0xa0, by decide, by simp [Impossible, h]⟩
    · exact ⟨0x90, by decide, by simp [Impossible, h]⟩
  · rw [not_or] at hshort
    exact ⟨0x80, isTail_low, by simp [Impossible, hshort, ha]⟩

/-- Two of three bytes, completed with the lowest third. -/
theorem encodes_of_second {a b : UInt8} (ha : 0xe0 ≤ a.toNat) (ha' : a.toNat < 0xf0)
    (hb : IsTail b) (h : ¬ Impossible [a, b]) : ∃ v, Encodes v [a, b, 0x80] ∧ IsScalar v := by
  obtain ⟨hb1, hb2⟩ := hb
  simp only [Impossible, not_or, not_and] at h
  refine ⟨_, .three ha ha' ⟨hb1, hb2⟩ isTail_low (by omega), ?_⟩
  have hlow : (0x80 : UInt8).toNat = 0x80 := rfl
  rw [IsScalar, Nat.isValidChar, hlow]
  omega

/-- Three of four bytes, completed with the lowest fourth. -/
theorem encodes_of_third {a b c : UInt8} (ha : 0xf0 ≤ a.toNat) (ha' : a.toNat < 0xf8)
    (hb : IsTail b) (hc : IsTail c) (h : ¬ Impossible [a, b]) :
    ∃ v, Encodes v [a, b, c, 0x80] ∧ IsScalar v := by
  obtain ⟨hb1, hb2⟩ := hb
  obtain ⟨hc1, hc2⟩ := hc
  simp only [Impossible, not_or, not_and] at h
  refine ⟨_, .four ha ha' ⟨hb1, hb2⟩ ⟨hc1, hc2⟩ isTail_low (by omega), ?_⟩
  have hlow : (0x80 : UInt8).toNat = 0x80 := rfl
  rw [IsScalar, Nat.isValidChar, hlow]
  omega

/-- The other cut-off characters can be completed. -/
theorem CutOff.exists_completion {t : List UInt8} (ht : CutOff t) (h : ¬ Impossible t) :
    ∃ v l, Encodes v l ∧ IsScalar v ∧ t <+: l := by
  have hsecond : ∀ {a b : UInt8}, 0xe0 ≤ a.toNat → a.toNat < 0xf8 → IsTail b → ¬ Impossible [a, b] →
      ∃ v l, Encodes v l ∧ IsScalar v ∧ [a, b] <+: l := by
    intro a b ha ha' hb h
    rcases Nat.lt_or_ge a.toNat 0xf0 with hlen | hlen
    · obtain ⟨v, hv, hscalar⟩ := encodes_of_second ha hlen hb h
      exact ⟨v, _, hv, hscalar, [0x80], rfl⟩
    · obtain ⟨v, hv, hscalar⟩ := encodes_of_third hlen ha' hb isTail_low h
      exact ⟨v, _, hv, hscalar, [0x80, 0x80], rfl⟩
  cases ht with
  | @first a ha ha' =>
      simp only [Impossible, not_or, not_lt, not_le] at h
      rcases Nat.lt_or_ge a.toNat 0xe0 with hlen | hlen
      · refine ⟨_, _, .two h.1 hlen isTail_low, ?_, [0x80], rfl⟩
        have hlow : (0x80 : UInt8).toNat = 0x80 := rfl
        rw [IsScalar, Nat.isValidChar, hlow]
        omega
      · obtain ⟨b, hb, hpossible⟩ := exists_second h.2
        obtain ⟨v, l, hv, hscalar, hpre⟩ := hsecond hlen ha' hb hpossible
        exact ⟨v, l, hv, hscalar, List.IsPrefix.trans ⟨[b], rfl⟩ hpre⟩
  | second ha ha' hb => exact hsecond ha ha' hb h
  | @third a b c ha ha' hb hc =>
      obtain ⟨v, hv, hscalar⟩ := encodes_of_third ha ha' hb hc (by simpa [Impossible] using h)
      exact ⟨v, _, hv, hscalar, [0x80], rfl⟩

/-! ## Text -/

/-- Characters with numbers in `P`, one after the other, and what is left at the end. -/
inductive Text (P : ℕ → Prop) (T : List UInt8 → Prop) : List UInt8 → Prop where
  | tail {t : List UInt8} (h : T t) : Text P T t
  | cons {v : ℕ} {l rest : List UInt8} (hl : Encodes v l) (hv : P v) (hrest : Text P T rest) :
      Text P T (l ++ rest)

/-- Nothing, or the possible first bytes of a character. -/
def MayEnd (t : List UInt8) : Prop := t = [] ∨ (CutOff t ∧ ¬ Impossible t)

/-- A character that was cut off has no character in it. -/
theorem CutOff.not_prefix {v : ℕ} {l t : List UInt8} (ht : CutOff t) (hl : Encodes v l) :
    ¬ l <+: t := by
  rintro ⟨s, hs⟩
  cases ht <;> cases hl <;> simp_all <;> omega

/-- A character at the front of a text. -/
theorem Text.of_append {v : ℕ} {l rest : List UInt8} {P : ℕ → Prop}
    (h : Text P MayEnd (l ++ rest)) (hl : Encodes v l) : P v ∧ Text P MayEnd rest := by
  generalize hd : l ++ rest = d at h
  cases h with
  | tail h =>
      rcases h with rfl | ⟨hcut, -⟩
      · exact absurd (List.append_eq_nil_iff.1 hd).1 hl.ne_nil
      · exact absurd ⟨rest, hd⟩ (hcut.not_prefix hl)
  | cons hm hv hrest =>
      obtain ⟨rfl, rfl, rfl⟩ := hl.append_inj hm hd
      exact ⟨hv, hrest⟩

/-- The byte strings that some valid text begins with. -/
theorem exists_text_iff {d : List UInt8} :
    (∃ cs : List Char, d <+: cs.flatMap String.utf8EncodeChar) ↔ Text IsScalar MayEnd d := by
  constructor
  · rintro ⟨cs, hpre⟩
    induction cs generalizing d with
    | nil =>
        rw [List.flatMap_nil, List.prefix_nil] at hpre
        exact .tail (.inl hpre)
    | cons c cs ih =>
        have hc := encodes_char c
        rw [List.flatMap_cons] at hpre
        by_cases hd : d <+: String.utf8EncodeChar c
        · by_cases hempty : d = []
          · exact .tail (.inl hempty)
          · by_cases hall : d = String.utf8EncodeChar c
            · rw [hall, ← List.append_nil (String.utf8EncodeChar c)]
              exact .cons hc (isScalar_toNat c) (.tail (.inl rfl))
            · have hcut := hc.cutOff hd hempty hall
              exact .tail (.inr ⟨hcut, fun himp => himp.not_prefix hc (isScalar_toNat c) hcut hd⟩)
        · obtain ⟨d', rfl⟩ : String.utf8EncodeChar c <+: d :=
            (List.prefix_or_prefix_of_prefix hpre (List.prefix_append _ _)).resolve_left hd
          exact .cons hc (isScalar_toNat c) (ih ((List.prefix_append_right_inj _).1 hpre))
  · intro h
    induction h with
    | tail h =>
        rcases h with rfl | ⟨hcut, hpossible⟩
        · exact ⟨[], List.nil_prefix⟩
        · obtain ⟨v, l, hl, hv, hpre⟩ := hcut.exists_completion hpossible
          obtain ⟨c, -, rfl⟩ := hl.exists_char hv
          exact ⟨[c], by simpa using hpre⟩
    | cons hl hv _ ih =>
        obtain ⟨cs, hpre⟩ := ih
        obtain ⟨c, -, rfl⟩ := hl.exists_char hv
        exact ⟨c :: cs, by
          rw [List.flatMap_cons]
          exact (List.prefix_append_right_inj _).2 hpre⟩

end Utf8Bytes
