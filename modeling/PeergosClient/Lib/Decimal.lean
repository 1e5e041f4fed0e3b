import PeergosClient.Lib.Utf8
import Mathlib.Data.List.Basic
import Mathlib.Data.Nat.Digits.Defs

/-!
# Numbers in decimal

A number is written with zeros in front of it up to a width, and read back with an optional sign.
-/

namespace Decimal

/-- A number written with zeros in front of it, after its sign if it is negative. -/
def padded (width : ℕ) (n : ℤ) : List Char :=
  if n < 0 then '-' :: (Nat.toDigits 10 n.natAbs).leftpad (width - 1) '0'
  else (Nat.toDigits 10 n.natAbs).leftpad width '0'

/-- The number that digits stand for; `none` if there are none or something else is among them. -/
def readDigits (digits : List Char) : Option ℕ :=
  if digits ≠ [] ∧ digits.all Char.isDigit then some (Nat.ofDigitChars 10 digits 0) else none

/-- A number read after an optional sign, if it is within the bounds. -/
def readInt (lo hi : ℤ) (text : List Char) : Option ℤ := do
  let n ←
    match text with
    | '-' :: digits => (readDigits digits).map fun n => -(n : ℤ)
    | '+' :: digits => (readDigits digits).map fun n => (n : ℤ)
    | digits => (readDigits digits).map fun n => (n : ℤ)
  if lo ≤ n ∧ n ≤ hi then some n else none

theorem padded_natCast (width n : ℕ) :
    padded width n = (Nat.toDigits 10 n).leftpad width '0' := by
  simp [padded]

theorem isDigit_of_mem_padded {width n : ℕ} {c : Char} (h : c ∈ padded width n) :
    c.isDigit = true := by
  rw [padded_natCast, List.leftpad] at h
  rcases List.mem_append.1 h with h | h
  · rw [List.eq_of_mem_replicate h]
    rfl
  · exact Nat.isDigit_of_mem_toDigits (by norm_num) (by norm_num) h

theorem length_padded {width n : ℕ} (hpos : 0 < width) (h : n < 10 ^ width) :
    (padded width n).length = width := by
  have hlen : (Nat.toDigits 10 n).length ≤ width :=
    (Nat.length_toDigits_le_iff (by norm_num) hpos).2 h
  rw [padded_natCast, List.length_leftpad]
  exact max_eq_left hlen

theorem padded_ne_nil (width n : ℕ) : padded width n ≠ [] := by
  rw [padded_natCast, List.leftpad]
  exact List.append_ne_nil_of_right_ne_nil _ Nat.toDigits_ne_nil

theorem readDigits_padded (width n : ℕ) : readDigits (padded width n) = some n := by
  have hall : (padded width n).all Char.isDigit = true :=
    List.all_eq_true.2 fun c hc => isDigit_of_mem_padded hc
  have hvalue : Nat.ofDigitChars 10 (padded width n) 0 = n := by
    rw [padded_natCast, List.leftpad, Nat.ofDigitChars_append, Nat.ofDigitChars_replicate_zero,
      Nat.mul_zero]
    exact Nat.ofDigitChars_toDigits (by norm_num) (by norm_num)
  rw [readDigits, if_pos ⟨padded_ne_nil width n, hall⟩, hvalue]

/-- A number is read back from its digits. -/
theorem readInt_padded {lo hi : ℤ} {width n : ℕ} (hlo : lo ≤ n) (hhi : (n : ℤ) ≤ hi) :
    readInt lo hi (padded width n) = some (n : ℤ) := by
  have hread := readDigits_padded width n
  obtain ⟨c, digits, hcons⟩ := List.exists_cons_of_ne_nil (padded_ne_nil width n)
  have hmem : c ∈ padded width n := hcons ▸ List.mem_cons_self
  have hdigit : c.isDigit = true := isDigit_of_mem_padded hmem
  have hminus : c ≠ '-' := fun h => absurd hdigit (by rw [h]; decide)
  have hplus : c ≠ '+' := fun h => absurd hdigit (by rw [h]; decide)
  rw [hcons] at hread ⊢
  unfold readInt
  split
  · rename_i h
    exact absurd (List.cons.inj h).1 hminus
  · rename_i h
    exact absurd (List.cons.inj h).1 hplus
  · simp [hread, hlo, hhi]

/-- Digits are one byte each. -/
theorem len_padded {width n : ℕ} (hpos : 0 < width) (h : n < 10 ^ width) :
    Utf8.len (padded width n) = width := by
  have hone : ∀ l : List Char, (∀ c ∈ l, c.isDigit = true) → Utf8.len l = l.length := by
    intro l
    induction l with
    | nil => simp
    | cons c l ih =>
        intro hall
        obtain ⟨hc, hl⟩ := List.forall_mem_cons.1 hall
        have hsize : c.utf8Size = 1 := by
          have hle : c.val ≤ '9'.val := by
            simp only [Char.isDigit, Bool.and_eq_true, decide_eq_true_eq] at hc
            exact hc.2
          unfold Char.utf8Size
          exact if_pos (UInt32.le_trans hle (by decide))
        rw [Utf8.len_cons, hsize, ih hl, List.length_cons, Nat.add_comm]
  rw [hone _ fun c hc => isDigit_of_mem_padded hc, length_padded hpos h]

end Decimal
