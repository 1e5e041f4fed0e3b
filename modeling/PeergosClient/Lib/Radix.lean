import Mathlib

/-!
# Numbers by their digits

A number as its digits in some base, most significant first, and the long division of such a number
by a small one.  Digits without a leading zero are determined by the number they stand for
(`eq_of_value_eq`), so converting to another base and back gives them again.
-/

namespace Radix

variable {b d rem divisor : ℕ} {l l' : List ℕ}

/-- The number some digits stand for. -/
def value (b : ℕ) (l : List ℕ) : ℕ := Nat.ofDigits b l.reverse

@[simp] theorem value_nil : value b [] = 0 := rfl

theorem value_cons : value b (d :: l) = d * b ^ l.length + value b l := by
  rw [value, List.reverse_cons, Nat.ofDigits_append, Nat.ofDigits_singleton, List.length_reverse,
    value]
  ring

theorem value_append_singleton : value b (l ++ [d]) = value b l * b + d := by
  rw [value, List.reverse_append, List.reverse_singleton, List.singleton_append, Nat.ofDigits_cons,
    value]
  ring

theorem value_lt (h : ∀ x ∈ l, x < b) : value b l < b ^ l.length := by
  induction l with
  | nil => simp
  | cons x l ih =>
      rw [List.forall_mem_cons] at h
      have hx : (x + 1) * b ^ l.length ≤ b * b ^ l.length := Nat.mul_le_mul_right _ h.1
      have := ih h.2
      rw [value_cons, List.length_cons, pow_succ']
      rw [Nat.add_mul, one_mul] at hx
      omega

/-! ## Leading zeros -/

/-- No digit at all, or one that is not zero in front. -/
def Canonical (l : List ℕ) : Prop := l.head? ≠ some 0

theorem value_dropWhile : value b (l.dropWhile (· = 0)) = value b l := by
  induction l with
  | nil => rfl
  | cons x l ih =>
      by_cases hx : x = 0
      · subst hx
        rw [List.dropWhile_cons_of_pos (by simp), ih, value_cons, Nat.zero_mul, Nat.zero_add]
      · rw [List.dropWhile_cons_of_neg (by simpa using hx)]

theorem canonical_dropWhile : Canonical (l.dropWhile (· = 0)) := by
  intro h
  have := List.head?_dropWhile_not (fun x : ℕ => decide (x = 0)) l
  rw [h] at this
  simp at this

/-- Digits without a leading zero are determined by their number. -/
theorem eq_of_value_eq (hb : 1 < b) (hl : ∀ x ∈ l, x < b) (hl' : ∀ x ∈ l', x < b)
    (hc : Canonical l) (hc' : Canonical l') (h : value b l = value b l') : l = l' := by
  have hdigits : ∀ {k : List ℕ}, (∀ x ∈ k, x < b) → Canonical k →
      Nat.digits b (value b k) = k.reverse := by
    intro k hk hck
    refine Nat.digits_ofDigits b hb k.reverse (fun x hx => hk x (List.mem_reverse.1 hx)) ?_
    intro hne hzero
    rw [List.getLast_reverse] at hzero
    refine hck ?_
    rw [List.head?_eq_some_head (List.reverse_ne_nil_iff.1 hne), hzero]
  have heq := hdigits hl hc
  rw [h, hdigits hl' hc'] at heq
  exact (List.reverse_injective heq).symm

theorem value_pos (hb : 0 < b) (hc : Canonical l) (hne : l ≠ []) : 0 < value b l := by
  cases l with
  | nil => exact absurd rfl hne
  | cons x l =>
      have hx : 0 < x := Nat.pos_of_ne_zero fun h => hc (by rw [h]; rfl)
      rw [value_cons]
      have := Nat.mul_pos hx (Nat.pow_pos (n := l.length) hb)
      omega

/-- Digits that start with zeros: the zeros, then the rest. -/
theorem replicate_append_dropWhile {α : Type*} [DecidableEq α] (z : α) (k : List α) :
    List.replicate (k.takeWhile (· = z)).length z ++ k.dropWhile (· = z) = k := by
  have hzeros : k.takeWhile (· = z) = List.replicate (k.takeWhile (· = z)).length z :=
    List.eq_replicate_of_mem fun x hx => by simpa using List.mem_takeWhile_imp hx
  rw [← hzeros, List.takeWhile_append_dropWhile]

theorem drop_takeWhile_length {α : Type*} (p : α → Bool) (k : List α) :
    k.drop (k.takeWhile p).length = k.dropWhile p := by
  have h : (k.takeWhile p ++ k.dropWhile p).drop (k.takeWhile p).length = k.dropWhile p :=
    List.drop_left
  rwa [List.takeWhile_append_dropWhile] at h

/-! ## Long division -/

/-- Digits divided by a number, from a remainder on: the digits of the quotient, and what remains. -/
def divide (b divisor : ℕ) : ℕ → List ℕ → List ℕ × ℕ
  | rem, [] => ([], rem)
  | rem, d :: l =>
      let temp := rem * b + d
      let (q, r) := divide b divisor (temp % divisor) l
      (temp / divisor :: q, r)

theorem length_divide : (divide b divisor rem l).1.length = l.length := by
  induction l generalizing rem with
  | nil => rfl
  | cons d l ih => simp [divide, ih]

theorem divide_remainder_lt (h : rem < divisor) : (divide b divisor rem l).2 < divisor := by
  induction l generalizing rem with
  | nil => exact h
  | cons d l ih => exact ih (Nat.mod_lt _ (Nat.zero_lt_of_lt h))

/-- The quotient's digits are digits. -/
theorem divide_lt (hl : ∀ x ∈ l, x < b) (h : rem < divisor) :
    ∀ x ∈ (divide b divisor rem l).1, x < b := by
  induction l generalizing rem with
  | nil => simp [divide]
  | cons d l ih =>
      rw [List.forall_mem_cons] at hl
      have hpos : 0 < divisor := Nat.zero_lt_of_lt h
      simp only [divide, List.forall_mem_cons]
      refine ⟨?_, ih hl.2 (Nat.mod_lt _ hpos)⟩
      rw [Nat.div_lt_iff_lt_mul hpos]
      have hle : (rem + 1) * b ≤ divisor * b := Nat.mul_le_mul_right _ h
      rw [Nat.add_mul, one_mul] at hle
      have hcomm : b * divisor = divisor * b := Nat.mul_comm _ _
      omega

theorem divide_eq : value b (divide b divisor rem l).1 * divisor + (divide b divisor rem l).2 =
    rem * b ^ l.length + value b l := by
  induction l generalizing rem with
  | nil => simp [divide]
  | cons d l ih =>
      simp only [divide, value_cons, length_divide, List.length_cons]
      have hsplit := Nat.div_add_mod (rem * b + d) divisor
      calc _ = (rem * b + d) / divisor * b ^ l.length * divisor +
            (value b (divide b divisor ((rem * b + d) % divisor) l).1 * divisor +
              (divide b divisor ((rem * b + d) % divisor) l).2) := by ring
        _ = (divisor * ((rem * b + d) / divisor) + (rem * b + d) % divisor) * b ^ l.length +
            value b l := by rw [ih]; ring
        _ = rem * b ^ (l.length + 1) + (d * b ^ l.length + value b l) := by
            rw [hsplit]
            ring

/-- Division from nothing is division of the number. -/
theorem divide_zero (h : 0 < divisor) :
    value b (divide b divisor 0 l).1 = value b l / divisor ∧
      (divide b divisor 0 l).2 = value b l % divisor := by
  have heq : value b (divide b divisor 0 l).1 * divisor + (divide b divisor 0 l).2 = value b l := by
    rw [divide_eq]
    omega
  have hlt : (divide b divisor 0 l).2 < divisor := divide_remainder_lt h
  constructor
  · rw [← heq, Nat.mul_comm, Nat.mul_add_div h, Nat.div_eq_of_lt hlt, Nat.add_zero]
  · rw [← heq, Nat.mul_comm, Nat.mul_add_mod, Nat.mod_eq_of_lt hlt]

/-- The quotient by a number no larger than the base has at most one leading zero. -/
theorem canonical_divide (hb : divisor ≤ b) (h : 0 < divisor) (hc : Canonical l) :
    Canonical (if (divide b divisor 0 l).1.head? = some 0 then (divide b divisor 0 l).1.tail
      else (divide b divisor 0 l).1) := by
  cases l with
  | nil => simp [divide, Canonical]
  | cons d l =>
      have hd : 0 < d := Nat.pos_of_ne_zero fun hd => hc (by rw [hd]; rfl)
      split
      · next hzero =>
          have hsmall : d < divisor := by
            simp only [divide, List.head?_cons, Option.some.injEq, Nat.zero_mul, Nat.zero_add,
              Nat.div_eq_zero_iff] at hzero
            omega
          cases l with
          | nil => simp [divide, Canonical]
          | cons d' l =>
              simp only [divide, Nat.zero_mul, Nat.zero_add, List.tail_cons, Canonical,
                List.head?_cons, ne_eq, Option.some.injEq, Nat.div_eq_zero_iff,
                Nat.mod_eq_of_lt hsmall]
              have hmul : 1 * b ≤ d * b := Nat.mul_le_mul_right b hd
              omega
      · next hne => exact hne

/-- The quotient by a number no smaller than the base starts with a zero. -/
theorem head?_divide (hb : b ≤ divisor) (hl : ∀ x ∈ l, x < b) (hne : l ≠ []) :
    (divide b divisor 0 l).1.head? = some 0 := by
  cases l with
  | nil => exact absurd rfl hne
  | cons d l =>
      have hd : d < divisor := (hl d List.mem_cons_self).trans_le hb
      simp [divide, Nat.div_eq_of_lt hd]

theorem value_tail_of_head?_eq_zero (h : l.head? = some 0) : value b l.tail = value b l := by
  cases l with
  | nil => rfl
  | cons d l =>
      obtain rfl : d = 0 := by simpa using h
      rw [List.tail_cons, value_cons, Nat.zero_mul, Nat.zero_add]

end Radix
