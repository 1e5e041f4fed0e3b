import PeergosClient.Core.Storage
import PeergosClient.Lib.Rank

/-!
# Champ bitmaps

The two bitmaps of a champ node and the position of a hash in it: `mask`, `bitSet`, `bitClear`,
`bitGet` and `getIndex`.  A bitmap is kept without trailing zero bytes (`Trimmed`), so it is
determined by the bits it holds (`Trimmed.ext`); both updates keep it so.
-/

namespace Peergos

namespace Champ

/-- `BIT_WIDTH`. -/
def bitWidth : ℕ := 3

/-- `MAX_HASH_COLLISIONS_PER_LEVEL`. -/
def maxHashCollisionsPerLevel : ℕ := 4

/-- `HASH_CODE_LENGTH`. -/
def hashCodeLength : ℕ := 32

/-! ## The index of a hash -/

/-- `Champ::mask`.  Bytes are sign extended to an `i32` before they are shifted. -/
def mask (hash : Bytes) (depth nbits : ℕ) : ℕ :=
  let index := depth * nbits / 8
  let shift := depth * nbits % 8
  let lowBits := min nbits (8 - shift)
  let hiBits := nbits - lowBits
  let val1 : BitVec 32 := ((hash[index]?.getD 0).toBitVec).signExtend 32
  let val2 : BitVec 32 := ((hash[index + 1]?.getD 0).toBitVec).signExtend 32
  (((val1.sshiftRight shift) &&& ((1#32 <<< lowBits) - 1#32)) |||
    ((val2 &&& ((1#32 <<< hiBits) - 1#32)) <<< lowBits)).toNat

/-- The number of slots of a node. -/
def slots : ℕ := 8

theorem mask_lt (hash : Bytes) (depth : ℕ) : mask hash depth bitWidth < slots := by
  unfold mask bitWidth slots
  simp only
  have hshift : depth * 3 % 8 < 8 := Nat.mod_lt _ (by decide)
  generalize depth * 3 % 8 = shift at hshift
  generalize (hash[depth * 3 / 8]?.getD 0).toBitVec.signExtend 32 = v1
  generalize (hash[depth * 3 / 8 + 1]?.getD 0).toBitVec.signExtend 32 = v2
  generalize v1.sshiftRight shift = w1
  rw [BitVec.toNat_or]
  refine Nat.or_lt_two_pow (n := 3) ?_ ?_
  · rw [BitVec.toNat_and]
    refine lt_of_le_of_lt Nat.and_le_right ?_
    interval_cases shift <;> decide
  · rw [BitVec.toNat_shiftLeft, BitVec.toNat_and]
    refine lt_of_le_of_lt (Nat.mod_le _ _) ?_
    rw [Nat.shiftLeft_eq]
    refine lt_of_le_of_lt (Nat.mul_le_mul_right _ Nat.and_le_right) ?_
    interval_cases shift <;> decide

/-! ## Bits -/

/-- One bit of a byte, as `(b >> k) & 1 == 1`. -/
def byteBit (b : UInt8) (k : ℕ) : Bool := (b >>> UInt8.ofNat k) &&& 1 == 1

/-- `Champ::bit_get`. -/
def bitGet (bitmap : Bytes) (pos : ℕ) : Bool :=
  match bitmap[pos / 8]? with
  | some b => byteBit b (pos % 8)
  | none => false

/-- `Champ::get_index`: the set bits below `bitpos`. -/
def getIndex (bitmap : Bytes) (bitpos : ℕ) : ℕ :=
  ((List.range bitpos).filter fun i => bitGet bitmap i).length

/-- `bit_set`: the bitmap grows as needed. -/
def bitSet (bitmap : Bytes) (pos : ℕ) : Bytes :=
  let grown := bitmap ++ List.replicate (pos / 8 + 1 - bitmap.length) 0
  grown.modify (pos / 8) (· ||| ((1 : UInt8) <<< UInt8.ofNat (pos % 8)))

/-- Drop the trailing zero bytes. -/
def dropTrailingZeros (bitmap : Bytes) : Bytes := (bitmap.reverse.dropWhile (· = 0)).reverse

/-- `bit_clear`. -/
def bitClear (bitmap : Bytes) (pos : ℕ) : Bytes :=
  dropTrailingZeros (bitmap.modify (pos / 8) (· &&& ~~~((1 : UInt8) <<< UInt8.ofNat (pos % 8))))

/-- No trailing zero byte. -/
def Trimmed (bitmap : Bytes) : Prop := bitmap.getLast? ≠ some 0

theorem byteBit_eq (b : UInt8) {k : ℕ} (hk : k < 8) : byteBit b k = b.toBitVec.getLsbD k := by
  interval_cases k <;> (revert b; decide +kernel)

theorem getLsbD_one_shift {j k : ℕ} (hj : j < 8) (hk : k < 8) :
    ((1 : UInt8) <<< UInt8.ofNat k).toBitVec.getLsbD j = decide (j = k) := by
  interval_cases k <;> interval_cases j <;> decide

theorem byteBit_or (b : UInt8) {j k : ℕ} (hj : j < 8) (hk : k < 8) :
    byteBit (b ||| ((1 : UInt8) <<< UInt8.ofNat k)) j = (decide (j = k) || byteBit b j) := by
  rw [byteBit_eq _ hj, byteBit_eq _ hj, UInt8.toBitVec_or, BitVec.getLsbD_or,
    getLsbD_one_shift hj hk, Bool.or_comm]

theorem byteBit_andNot (b : UInt8) {j k : ℕ} (hj : j < 8) (hk : k < 8) :
    byteBit (b &&& ~~~((1 : UInt8) <<< UInt8.ofNat k)) j = (decide (j ≠ k) && byteBit b j) := by
  rw [byteBit_eq _ hj, byteBit_eq _ hj, UInt8.toBitVec_and, BitVec.getLsbD_and,
    UInt8.toBitVec_not, BitVec.getLsbD_not, getLsbD_one_shift hj hk, Bool.and_comm]
  simp [hj]

theorem byteBit_ext {a b : UInt8} (h : ∀ k < 8, byteBit a k = byteBit b k) : a = b := by
  refine UInt8.toBitVec_inj.1 (BitVec.eq_of_getLsbD_eq ?_)
  intro k hk
  rw [← byteBit_eq a hk, ← byteBit_eq b hk, h k hk]

@[simp] theorem byteBit_zero {k : ℕ} (hk : k < 8) : byteBit 0 k = false := by
  interval_cases k <;> decide

/-! ## Reading a bit after an update -/

theorem bitGet_append_zeros (bitmap : Bytes) (n pos : ℕ) :
    bitGet (bitmap ++ List.replicate n 0) pos = bitGet bitmap pos := by
  have hk : pos % 8 < 8 := Nat.mod_lt _ (by decide)
  unfold bitGet
  by_cases h : pos / 8 < bitmap.length
  · rw [List.getElem?_append_left h]
  · rw [List.getElem?_append_right (by omega), List.getElem?_eq_none (by omega : bitmap.length ≤ _)]
    by_cases hn : pos / 8 - bitmap.length < n
    · rw [List.getElem?_replicate_of_lt hn]
      simp [hk]
    · rw [List.getElem?_eq_none (by simpa using hn)]

theorem bitGet_dropTrailingZeros (bitmap : Bytes) (pos : ℕ) :
    bitGet (dropTrailingZeros bitmap) pos = bitGet bitmap pos := by
  have hsplit : bitmap = dropTrailingZeros bitmap ++
      List.replicate ((bitmap.reverse.takeWhile (· = 0)).length) 0 := by
    have h1 : bitmap.reverse.takeWhile (· = 0) =
        List.replicate (bitmap.reverse.takeWhile (· = 0)).length 0 := by
      rw [List.eq_replicate_iff]
      refine ⟨rfl, ?_⟩
      intro b hb
      simpa using List.mem_takeWhile_imp hb
    have h2 := List.takeWhile_append_dropWhile (p := fun b : UInt8 => decide (b = 0))
      (l := bitmap.reverse)
    calc bitmap = bitmap.reverse.reverse := (List.reverse_reverse _).symm
      _ = (bitmap.reverse.takeWhile (· = 0) ++ bitmap.reverse.dropWhile (· = 0)).reverse := by
        rw [h2]
      _ = dropTrailingZeros bitmap ++ (bitmap.reverse.takeWhile (· = 0)).reverse := by
        rw [List.reverse_append, dropTrailingZeros]
      _ = _ := by rw [h1, List.reverse_replicate, List.length_replicate]
  conv_rhs => rw [hsplit]
  rw [bitGet_append_zeros]

theorem bitGet_bitSet (bitmap : Bytes) (p q : ℕ) :
    bitGet (bitSet bitmap p) q = (decide (q = p) || bitGet bitmap q) := by
  have hp : p % 8 < 8 := Nat.mod_lt _ (by decide)
  have hq : q % 8 < 8 := Nat.mod_lt _ (by decide)
  rw [← bitGet_append_zeros bitmap (p / 8 + 1 - bitmap.length) q]
  unfold bitSet
  have hlen : p / 8 < (bitmap ++ List.replicate (p / 8 + 1 - bitmap.length) 0).length := by
    rw [List.length_append, List.length_replicate]
    omega
  revert hlen
  generalize bitmap ++ List.replicate (p / 8 + 1 - bitmap.length) 0 = grown
  intro hlen
  unfold bitGet
  by_cases hb : p / 8 = q / 8
  · obtain ⟨b, hget⟩ : ∃ b, grown[q / 8]? = some b :=
      ⟨_, List.getElem?_eq_getElem (by omega)⟩
    rw [hb, List.getElem?_modify_eq, hget]
    simp only [Option.map_eq_map, Option.map_some]
    rw [byteBit_or _ hq hp]
    congr 1
    rw [decide_eq_decide]
    omega
  · have hne : q ≠ p := by rintro rfl; exact hb rfl
    rw [List.getElem?_modify_ne _ _ hb]
    simp [hne]

theorem bitGet_bitClear (bitmap : Bytes) (p q : ℕ) :
    bitGet (bitClear bitmap p) q = (decide (q ≠ p) && bitGet bitmap q) := by
  have hp : p % 8 < 8 := Nat.mod_lt _ (by decide)
  have hq : q % 8 < 8 := Nat.mod_lt _ (by decide)
  rw [bitClear, bitGet_dropTrailingZeros]
  unfold bitGet
  by_cases hb : p / 8 = q / 8
  · rw [hb, List.getElem?_modify_eq]
    cases bitmap[q / 8]? with
    | none => simp
    | some b =>
        simp only [Option.map_eq_map, Option.map_some]
        rw [byteBit_andNot _ hq hp]
        congr 1
        rw [decide_eq_decide]
        omega
  · have hne : q ≠ p := by rintro rfl; exact hb rfl
    rw [List.getElem?_modify_ne _ _ hb]
    simp [hne]

/-! ## Canonical bitmaps -/

theorem trimmed_nil : Trimmed [] := by simp [Trimmed]

theorem trimmed_bitClear (bitmap : Bytes) (pos : ℕ) : Trimmed (bitClear bitmap pos) := by
  unfold Trimmed bitClear dropTrailingZeros
  rw [List.getLast?_reverse]
  intro h
  have := List.head?_dropWhile_not (p := fun b : UInt8 => decide (b = 0))
    (l := (bitmap.modify (pos / 8) (· &&& ~~~((1 : UInt8) <<< UInt8.ofNat (pos % 8)))).reverse)
  rw [h] at this
  simp at this

theorem trimmed_bitSet {bitmap : Bytes} (h : Trimmed bitmap) (pos : ℕ) :
    Trimmed (bitSet bitmap pos) := by
  have hk : pos % 8 < 8 := Nat.mod_lt _ (by decide)
  intro hlast
  have hlen : (bitSet bitmap pos).length = max bitmap.length (pos / 8 + 1) := by
    simp only [bitSet, List.length_modify, List.length_append, List.length_replicate]
    omega
  have hidx : (bitSet bitmap pos)[max bitmap.length (pos / 8 + 1) - 1]? = some 0 := by
    rw [← hlen, ← List.getLast?_eq_getElem?, hlast]
  by_cases hc : pos / 8 + 1 < bitmap.length
  · -- the last byte is one the update does not reach
    have h2 : (bitSet bitmap pos)[bitmap.length - 1]? = bitmap[bitmap.length - 1]? := by
      rw [bitSet, List.getElem?_modify_ne _ _ (by omega), List.getElem?_append_left (by omega)]
    rw [show max bitmap.length (pos / 8 + 1) - 1 = bitmap.length - 1 by omega, h2,
      ← List.getLast?_eq_getElem?] at hidx
    exact h hidx
  · -- the last byte is the one that got the bit
    have hbit : bitGet (bitSet bitmap pos) pos = true := by
      rw [bitGet_bitSet]
      simp
    rw [show max bitmap.length (pos / 8 + 1) - 1 = pos / 8 by omega] at hidx
    rw [bitGet, hidx] at hbit
    simp [hk] at hbit

theorem Trimmed.getElem?_eq_none {a b : Bytes} (hb : Trimmed b)
    (h : ∀ q, bitGet a q = bitGet b q) : b.length ≤ a.length := by
  by_contra hc
  have hpos : 0 < b.length := by omega
  obtain ⟨z, hz⟩ : ∃ z, b[b.length - 1]? = some z := by
    rw [List.getElem?_eq_getElem (by omega)]
    exact ⟨_, rfl⟩
  have hne : z ≠ 0 := by
    rintro rfl
    exact hb (by rw [List.getLast?_eq_getElem?, hz])
  refine hne (byteBit_ext ?_)
  intro k hk
  have h1 := h ((b.length - 1) * 8 + k)
  have hdiv : ((b.length - 1) * 8 + k) / 8 = b.length - 1 := by omega
  have hmod : ((b.length - 1) * 8 + k) % 8 = k := by omega
  unfold bitGet at h1
  rw [hdiv, hmod, hz, List.getElem?_eq_none (by omega : a.length ≤ _)] at h1
  rw [byteBit_zero hk]
  exact h1.symm

/-- A trimmed bitmap is determined by its bits. -/
theorem Trimmed.ext {a b : Bytes} (ha : Trimmed a) (hb : Trimmed b)
    (h : ∀ q, bitGet a q = bitGet b q) : a = b := by
  have hlen : a.length = b.length := le_antisymm (ha.getElem?_eq_none fun q => (h q).symm)
    (hb.getElem?_eq_none h)
  refine List.ext_getElem hlen ?_
  intro i hia hib
  refine byteBit_ext ?_
  intro k hk
  have h1 := h (i * 8 + k)
  have hdiv : (i * 8 + k) / 8 = i := by omega
  have hmod : (i * 8 + k) % 8 = k := by omega
  unfold bitGet at h1
  rw [hdiv, hmod, List.getElem?_eq_getElem hia, List.getElem?_eq_getElem hib] at h1
  exact h1

end Champ

end Peergos
