import Mathlib

/-!
# Numbers as bytes

The low bytes of a number, least significant first, and the number bytes stand for.  Reading back
what was written gives the number up to what does not fit (`ofLe_leBytes`).  The most significant
byte first is the same list the other way round.
-/

namespace ByteOrder

/-- The `width` low bytes of a number, least significant first. -/
def leBytes : ℕ → ℕ → List UInt8
  | 0, _ => []
  | width + 1, n => UInt8.ofNat n :: leBytes width (n / 256)

/-- The number bytes stand for, least significant first. -/
def ofLe : List UInt8 → ℕ
  | [] => 0
  | b :: l => b.toNat + 256 * ofLe l

@[simp] theorem length_leBytes (width n : ℕ) : (leBytes width n).length = width := by
  induction width generalizing n with
  | zero => rfl
  | succ width ih => simp [leBytes, ih]

theorem ofLe_leBytes (width n : ℕ) : ofLe (leBytes width n) = n % 256 ^ width := by
  induction width generalizing n with
  | zero => simp [leBytes, ofLe, Nat.mod_one]
  | succ width ih =>
      have hbyte : n % 2 ^ 8 = n % 256 := rfl
      rw [leBytes, ofLe, ih, UInt8.toNat_ofNat', hbyte, pow_succ', Nat.mod_mul]

theorem ofLe_lt (l : List UInt8) : ofLe l < 256 ^ l.length := by
  induction l with
  | nil => simp [ofLe]
  | cons b l ih =>
      have hb := b.toNat_lt
      rw [ofLe, List.length_cons, pow_succ']
      omega

/-- A number that fits is read back. -/
theorem ofLe_leBytes_of_lt {width n : ℕ} (h : n < 256 ^ width) : ofLe (leBytes width n) = n := by
  rw [ofLe_leBytes, Nat.mod_eq_of_lt h]

/-! ## Signed numbers, most significant byte first -/

/-- A signed 64-bit number cast to an unsigned one. -/
def asU64 (v : ℤ) : ℕ := (v % 2 ^ 64).toNat

/-- The eight bytes of a signed 64-bit number. -/
def beI64 (v : ℤ) : List UInt8 := (leBytes 8 (asU64 v)).reverse

/-- The signed 64-bit number that eight bytes stand for. -/
def ofBeI64 (bytes : List UInt8) : ℤ := Int.bmod (ofLe bytes.reverse) (2 ^ 64)

@[simp] theorem length_beI64 (v : ℤ) : (beI64 v).length = 8 := by
  simp [beI64]

theorem asU64_of_nonneg {v : ℤ} (h : 0 ≤ v) (hlt : v < 2 ^ 64) : asU64 v = v.toNat := by
  rw [asU64, Int.emod_eq_of_lt h hlt]

theorem cast_asU64 (v : ℤ) : (asU64 v : ℤ) = v % 2 ^ 64 := by
  rw [asU64]
  omega

theorem ofLe_reverse_beI64 (v : ℤ) : ofLe (beI64 v).reverse = asU64 v := by
  have hfit : asU64 v < 256 ^ 8 := by
    rw [asU64]
    omega
  rw [beI64, List.reverse_reverse]
  exact ofLe_leBytes_of_lt hfit

theorem bmod_emod_of_lt {v : ℤ} (h : -2 ^ 63 ≤ v) (hlt : v < 2 ^ 63) :
    Int.bmod (v % 2 ^ 64) (2 ^ 64) = v := by
  rw [Int.bmod_def]
  split <;> omega

theorem ofBeI64_beI64 {v : ℤ} (h : -2 ^ 63 ≤ v) (hlt : v < 2 ^ 63) : ofBeI64 (beI64 v) = v := by
  unfold ofBeI64
  simp only [ofLe_reverse_beI64, cast_asU64]
  exact bmod_emod_of_lt h hlt

end ByteOrder
