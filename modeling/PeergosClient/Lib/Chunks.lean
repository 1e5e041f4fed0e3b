import Mathlib

/-!
# Lists in chunks

A list cut into chunks of a fixed size `c`, the last one possibly short.  `chunkAt c i l` is chunk
`i`, and `splice l offset data` is `l` with `data` written over it from `offset` on, growing at the
end if need be.  The lemmas say what a chunk of a spliced or cut list is, and how the chunks make up
the list.  `slice l a b` is what is from `a` up to `b`.
-/

namespace Chunks

variable {α : Type*}

/-- Chunk `i` of a list. -/
def chunkAt (c i : ℕ) (l : List α) : List α := (l.drop (i * c)).take c

/-- A list with `data` written over it from `offset` on. -/
def splice (l : List α) (offset : ℕ) (data : List α) : List α :=
  l.take offset ++ data ++ l.drop (offset + data.length)

/-- The elements from `a` up to `b`. -/
def slice (l : List α) (a b : ℕ) : List α := (l.take b).drop a

theorem getElem?_chunkAt (c i k : ℕ) (l : List α) :
    (chunkAt c i l)[k]? = if k < c then l[i * c + k]? else none := by
  unfold chunkAt
  by_cases h : k < c
  · rw [List.getElem?_take_of_lt h, List.getElem?_drop, if_pos h]
  · rw [List.getElem?_take_eq_none (not_lt.1 h), if_neg h]

theorem length_chunkAt (c i : ℕ) (l : List α) :
    (chunkAt c i l).length = min c (l.length - i * c) := by
  simp [chunkAt]

theorem length_splice (l : List α) (offset : ℕ) (data : List α) (h : offset ≤ l.length) :
    (splice l offset data).length = max l.length (offset + data.length) := by
  simp only [splice, List.length_append, List.length_take, List.length_drop]
  omega

theorem getElem?_splice {l : List α} {offset : ℕ} (data : List α) (h : offset ≤ l.length) (k : ℕ) :
    (splice l offset data)[k]? =
      if k < offset then l[k]?
      else if k < offset + data.length then data[k - offset]? else l[k]? := by
  have htake : (l.take offset).length = offset := List.length_take_of_le h
  unfold splice
  split
  · next hk =>
      rw [List.append_assoc, List.getElem?_append_left (by omega), List.getElem?_take_of_lt hk]
  · split
    · next hk hk' =>
        rw [List.getElem?_append_left (by simp; omega), List.getElem?_append_right (by omega), htake]
    · next hk hk' =>
        rw [List.getElem?_append_right (by simp; omega), List.getElem?_drop]
        congr 1
        simp only [List.length_append, htake]
        omega

theorem splice_nil (l : List α) (offset : ℕ) : splice l offset [] = l := by
  simp [splice]

/-- The chunks of a prefix. -/
theorem chunkAt_take (c i n : ℕ) (l : List α) :
    chunkAt c i (l.take n) = (chunkAt c i l).take (n - i * c) := by
  unfold chunkAt
  rw [List.drop_take, List.take_take, List.take_take, Nat.min_comm]

/-- A chunk that the written range does not reach is as it was. -/
theorem chunkAt_splice_of_disjoint {c i offset : ℕ} {l data : List α} (h : offset ≤ l.length)
    (hi : (i + 1) * c ≤ offset ∨ offset + data.length ≤ i * c) :
    chunkAt c i (splice l offset data) = chunkAt c i l := by
  refine List.ext_getElem? fun k => ?_
  rw [getElem?_chunkAt, getElem?_chunkAt]
  split
  · next hk =>
      rw [getElem?_splice data h]
      rw [Nat.succ_mul] at hi
      split
      · rfl
      · rw [if_neg (by omega)]
  · rfl

/-- A chunk with the part of `data` written over it that falls into it, padded first if it is too
short. -/
def patch (zero : α) (chunk : List α) (chunkStart c offset : ℕ) (data : List α) : List α :=
  let first := max offset chunkStart
  let last := min (offset + data.length) (chunkStart + c)
  let localEnd := last - chunkStart
  let padded := chunk ++ List.replicate (localEnd - chunk.length) zero
  padded.take (first - chunkStart) ++ (data.drop (first - offset)).take (last - first) ++
    padded.drop localEnd

/-- Patching chunk by chunk is writing over the whole. -/
theorem patch_chunkAt (zero : α) {c i offset : ℕ} {l data : List α} (h : offset ≤ l.length)
    (hstart : offset < (i + 1) * c) (hstop : i * c < offset + data.length) :
    patch zero (chunkAt c i l) (i * c) c offset data = chunkAt c i (splice l offset data) := by
  rw [Nat.succ_mul] at hstart
  have hlen := length_chunkAt c i l
  -- the patched chunk has the length of a chunk of the spliced list, and agrees with it pointwise
  refine List.ext_getElem? fun k => ?_
  rw [getElem?_chunkAt]
  unfold patch
  dsimp only
  set first := max offset (i * c) with hfirst
  set last := min (offset + data.length) (i * c + c) with hlast
  set padded := chunkAt c i l ++ List.replicate (last - i * c - (chunkAt c i l).length) zero
    with hpadded
  have hpaddedLen : padded.length = max (chunkAt c i l).length (last - i * c) := by
    rw [hpadded, List.length_append, List.length_replicate]
    omega
  have htake : (padded.take (first - i * c)).length = first - i * c := by
    rw [List.length_take, hpaddedLen]
    omega
  have hpiece : ((data.drop (first - offset)).take (last - first)).length = last - first := by
    rw [List.length_take, List.length_drop]
    omega
  -- the chunk itself, below its own length
  have hbelow : ∀ m, m < (chunkAt c i l).length → padded[m]? = l[i * c + m]? := by
    intro m hm
    rw [hpadded, List.getElem?_append_left hm, getElem?_chunkAt, if_pos (by omega)]
  by_cases hk : k < first - i * c
  · rw [List.append_assoc, List.getElem?_append_left (by omega), List.getElem?_take_of_lt hk,
      hbelow k (by omega), if_pos (by omega), getElem?_splice data h, if_pos (by omega)]
  · by_cases hk' : k < last - i * c
    · rw [List.getElem?_append_left (by rw [List.length_append]; omega),
        List.getElem?_append_right (by omega), htake, List.getElem?_take_of_lt (by omega),
        List.getElem?_drop, if_pos (by omega), getElem?_splice data h, if_neg (by omega),
        if_pos (by omega)]
      congr 1
      omega
    · rw [List.getElem?_append_right (by rw [List.length_append]; omega), List.getElem?_drop]
      have hidx : last - i * c + (k - (padded.take (first - i * c) ++
          (data.drop (first - offset)).take (last - first)).length) = k := by
        rw [List.length_append]
        omega
      rw [hidx]
      by_cases hkc : k < (chunkAt c i l).length
      · rw [hbelow k hkc, if_pos (by omega), getElem?_splice data h, if_neg (by omega),
          if_neg (by omega)]
      · rw [List.getElem?_eq_none (by omega)]
        split
        · rw [getElem?_splice data h, if_neg (by omega), if_neg (by omega),
            List.getElem?_eq_none (by omega)]
        · rfl

/-! ## Slices -/

theorem length_slice (l : List α) (a b : ℕ) : (slice l a b).length = min b l.length - a := by
  simp [slice]

theorem slice_eq_nil {l : List α} {a b : ℕ} (h : b ≤ a) : slice l a b = [] := by
  rw [← List.length_eq_zero_iff, length_slice]
  omega

/-- Two slices that meet. -/
theorem slice_append {l : List α} {a b d : ℕ} (hab : a ≤ b) (hbd : b ≤ d) :
    slice l a b ++ slice l b d = slice l a d := by
  unfold slice
  have hsplit : l.take d = l.take b ++ (l.take d).drop b := by
    conv_lhs => rw [← List.take_append_drop b (l.take d), List.take_take, min_eq_left hbd]
  rcases le_or_gt b l.length with hb | hb
  · conv_rhs => rw [hsplit]
    rw [List.drop_append_of_le_length (by rw [List.length_take]; omega)]
  · rw [List.take_of_length_le hb.le, List.take_of_length_le (by omega : l.length ≤ d),
      List.drop_eq_nil_of_le hb.le, List.append_nil]

/-- A slice within a chunk is a slice of the chunk. -/
theorem slice_chunkAt {c i a b : ℕ} {l : List α} (ha : i * c ≤ a) (hb : b ≤ i * c + c) :
    slice (chunkAt c i l) (a - i * c) (b - i * c) = slice l a b := by
  unfold slice chunkAt
  rw [List.take_take, min_eq_left (by omega), ← List.drop_take, List.drop_drop,
    Nat.add_sub_cancel' ha]

/-! ## All chunks -/

theorem toChunks_go_append (n : ℕ) (xs : List α) (acc₁ : Array α) (acc₂ : Array (List α)) :
    List.toChunks.go n xs acc₁ acc₂ = acc₂.toList ++ List.toChunks.go n xs acc₁ #[] := by
  induction xs generalizing acc₁ acc₂ with
  | nil => simp [List.toChunks.go]
  | cons x xs ih =>
      rw [List.toChunks.go, List.toChunks.go]
      split
      · rw [ih _ (acc₂.push acc₁.toList), ih _ (#[].push acc₁.toList)]
        simp
      · exact ih _ _

theorem toChunks_go_eq {n : ℕ} (xs : List α) {acc : Array α} (hpos : 0 < acc.size)
    (hle : acc.size ≤ n) :
    List.toChunks.go n xs acc #[] =
      (acc.toList ++ xs).take n :: ((acc.toList ++ xs).drop n).toChunks n := by
  induction xs generalizing acc with
  | nil =>
      rw [List.append_nil, List.take_of_length_le (by simpa using hle),
        List.drop_of_length_le (by simpa using hle)]
      simp [List.toChunks.go, List.toChunks]
  | cons x xs ih =>
      rw [List.toChunks.go]
      by_cases hfull : acc.size = n
      · have hlen : acc.toList.length = n := by simpa using hfull
        rw [if_pos (by simpa using hfull), toChunks_go_append, List.take_left' hlen,
          List.drop_left' hlen]
        obtain ⟨m, rfl⟩ : ∃ m, n = m + 1 := ⟨n - 1, by omega⟩
        simp [List.toChunks]
      · rw [if_neg (by simpa using hfull), ih (by simp) (by rw [Array.size_push]; omega)]
        simp

/-- The first chunk, then those of the rest. -/
theorem toChunks_eq_cons {n : ℕ} (hn : 0 < n) {l : List α} (hl : l ≠ []) :
    l.toChunks n = l.take n :: (l.drop n).toChunks n := by
  cases l with
  | nil => exact absurd rfl hl
  | cons x xs =>
      obtain ⟨m, rfl⟩ : ∃ m, n = m + 1 := ⟨n - 1, by omega⟩
      exact toChunks_go_eq xs (by simp) (by simp)

@[simp] theorem toChunks_nil (n : ℕ) : ([] : List α).toChunks n = [] := by
  simp [List.toChunks]

theorem toChunks_of_length_le {n : ℕ} {l : List α} (hl : l ≠ []) (h : l.length ≤ n) :
    l.toChunks n = [l] := by
  have hpos := List.length_pos_iff.2 hl
  rw [toChunks_eq_cons (by omega) hl, List.take_of_length_le h, List.drop_of_length_le h,
    toChunks_nil]

theorem drop_toChunks {n : ℕ} (hn : 0 < n) (k : ℕ) (l : List α) :
    (l.toChunks n).drop k = (l.drop (k * n)).toChunks n := by
  induction k generalizing l with
  | zero => simp
  | succ k ih =>
      by_cases hl : l = []
      · simp [hl]
      · rw [toChunks_eq_cons hn hl, List.drop_succ_cons, ih, List.drop_drop, Nat.succ_mul,
          Nat.add_comm]

/-- The chunks are those at the multiples of their length. -/
theorem getElem_toChunks {n : ℕ} (hn : 0 < n) {l : List α} {i : ℕ}
    (h : i < (l.toChunks n).length) : (l.toChunks n)[i] = chunkAt n i l := by
  have hdrop := drop_toChunks hn i l
  rw [List.drop_eq_getElem_cons h] at hdrop
  have hne : l.drop (i * n) ≠ [] := by
    intro hnil
    rw [hnil, toChunks_nil] at hdrop
    cases hdrop
  rw [toChunks_eq_cons hn hne] at hdrop
  exact (List.cons.inj hdrop).1

theorem take_toChunks {n : ℕ} (hn : 0 < n) (k : ℕ) (l : List α) :
    (l.toChunks n).take k = (l.take (k * n)).toChunks n := by
  induction k generalizing l with
  | zero => simp
  | succ k ih =>
      by_cases hl : l = []
      · simp [hl]
      · have hne : l.take ((k + 1) * n) ≠ [] := by
          rw [Ne, List.take_eq_nil_iff]
          rintro (h | h)
          · rcases Nat.mul_eq_zero.1 h with h | h <;> omega
          · exact hl h
        rw [toChunks_eq_cons hn hl, toChunks_eq_cons hn hne, List.take_succ_cons, ih,
          List.take_take, List.drop_take, Nat.succ_mul, Nat.add_sub_cancel]
        congr 2
        omega

theorem length_toChunks {n : ℕ} (hn : 0 < n) (l : List α) :
    (l.toChunks n).length = (l.length + n - 1) / n := by
  induction hlen : l.length using Nat.strong_induction_on generalizing l with
  | _ k ih =>
      by_cases hl : l = []
      · subst hl
        rw [toChunks_nil, List.length_nil, ← hlen, List.length_nil, Nat.zero_add,
          Nat.div_eq_of_lt (by omega)]
      · have hpos := List.length_pos_iff.2 hl
        rw [toChunks_eq_cons hn hl, List.length_cons,
          ih (l.drop n).length (by rw [List.length_drop]; omega) _ rfl, List.length_drop, hlen]
        by_cases hle : k ≤ n
        · have hone : (k + n - 1) / n = 1 := Nat.div_eq_of_lt_le (by omega) (by omega)
          rw [Nat.sub_eq_zero_of_le hle, Nat.zero_add, Nat.div_eq_of_lt (by omega), hone]
        · have hsum : k + n - 1 = (k - n + n - 1) + n := by omega
          rw [hsum, Nat.add_div_right _ hn]

theorem mem_toChunks {n : ℕ} (hn : 0 < n) {l g : List α} (h : g ∈ l.toChunks n) :
    g ≠ [] ∧ g.length ≤ n ∧ ∀ x ∈ g, x ∈ l := by
  induction hlen : l.length using Nat.strong_induction_on generalizing l with
  | _ k ih =>
      by_cases hl : l = []
      · rw [hl, toChunks_nil] at h
        cases h
      · have hpos := List.length_pos_iff.2 hl
        rw [toChunks_eq_cons hn hl, List.mem_cons] at h
        rcases h with rfl | h
        · refine ⟨?_, List.length_take_le _ _, fun x hx => List.mem_of_mem_take hx⟩
          rw [Ne, List.take_eq_nil_iff]
          rintro (h | h)
          · omega
          · exact hl h
        · obtain ⟨h1, h2, h3⟩ := ih (l.drop n).length (by rw [List.length_drop]; omega) h rfl
          exact ⟨h1, h2, fun x hx => List.mem_of_mem_drop (h3 x hx)⟩

theorem toChunks_map {β : Type*} {n : ℕ} (hn : 0 < n) (f : α → β) (l : List α) :
    (l.map f).toChunks n = (l.toChunks n).map (List.map f) := by
  induction hlen : l.length using Nat.strong_induction_on generalizing l with
  | _ k ih =>
      by_cases hl : l = []
      · simp [hl]
      · have hpos := List.length_pos_iff.2 hl
        have hl' : l.map f ≠ [] := fun h => hl (List.map_eq_nil_iff.1 h)
        rw [toChunks_eq_cons hn hl, toChunks_eq_cons hn hl', List.map_cons, List.map_take,
          ← List.map_drop, ih (l.drop n).length (by rw [List.length_drop]; omega) _ rfl]

/-- Pieces of one size joined and cut again. -/
theorem flatten_toChunks {n : ℕ} (hn : 0 < n) (l : List α) : (l.toChunks n).flatten = l := by
  induction hlen : l.length using Nat.strong_induction_on generalizing l with
  | _ k ih =>
      by_cases hl : l = []
      · rw [hl, toChunks_nil, List.flatten_nil]
      · have hpos := List.length_pos_iff.2 hl
        rw [toChunks_eq_cons hn hl, List.flatten_cons,
          ih (l.drop n).length (by rw [List.length_drop]; omega) _ rfl, List.take_append_drop]

theorem toChunks_flatten {n : ℕ} (hn : 0 < n) {ls : List (List α)} (h : ∀ l ∈ ls, l.length = n) :
    ls.flatten.toChunks n = ls := by
  induction ls with
  | nil => simp
  | cons l ls ih =>
      rw [List.forall_mem_cons] at h
      have hne : (l :: ls).flatten ≠ [] := by
        intro hnil
        rw [List.flatten_cons, List.append_eq_nil_iff] at hnil
        rw [hnil.1, List.length_nil] at h
        omega
      rw [toChunks_eq_cons hn hne, List.flatten_cons, List.take_left' h.1, List.drop_left' h.1,
        ih h.2]

end Chunks
