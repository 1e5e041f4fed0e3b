import Mathlib

/-!
# Compressed arrays addressed by rank

A sparse array over the positions `0 … n-1` can be stored without its gaps: keep only the values
that are there, in order of position, and find the value at `i` by counting how many positions
below `i` are taken.  `compress` is the stored list and `rank` the count.  The three laws
`compress_getElem?`, `compress_set` and `compress_eraseIdx` say that reading, overwriting and
dropping one position of the sparse array is the list operation at its rank.

`twoEnded` keeps two sparse arrays in one list, the first from the front and the second from the
back, so that an index into the second counts down from the end.  The laws about it say what the
list operations do when a position is updated in either array, or moves from one to the other.
-/

namespace Rank

variable {α β : Type*}

/-! ## One sparse array -/

/-- The values present at positions below `n`, in order of position. -/
def compress (n : ℕ) (f : ℕ → Option α) : List α := (List.range n).filterMap f

/-- How many positions below `i` are taken. -/
def rank (p : ℕ → Bool) (i : ℕ) : ℕ := ((List.range i).filter p).length

theorem rank_congr {p q : ℕ → Bool} {i : ℕ} (h : ∀ j < i, p j = q j) : rank p i = rank q i := by
  unfold rank
  rw [List.filter_congr]
  intro j hj
  exact h j (List.mem_range.1 hj)

theorem rank_succ (p : ℕ → Bool) (i : ℕ) : rank p (i + 1) = rank p i + (p i).toNat := by
  unfold rank
  rw [List.range_succ, List.filter_append, List.length_append]
  cases h : p i <;> simp [h]

theorem length_compress (n : ℕ) (f : ℕ → Option α) :
    (compress n f).length = rank (fun j => (f j).isSome) n := by
  unfold compress rank
  rw [List.length_filterMap_eq_countP, List.countP_eq_length_filter]

theorem compress_congr {n : ℕ} {f g : ℕ → Option α} (h : ∀ j < n, f j = g j) :
    compress n f = compress n g := by
  unfold compress
  refine List.filterMap_congr ?_
  intro j hj
  exact h j (List.mem_range.1 hj)

/-- Cutting the compressed array at position `i`: what stands before and after does not depend on
what is stored at `i`. -/
theorem exists_split {n i : ℕ} (hi : i < n) (f : ℕ → Option α) :
    ∃ pre post, pre.length = rank (fun j => (f j).isSome) i ∧
      compress n f = pre ++ ((f i).toList ++ post) ∧
      ∀ v : Option α, compress n (Function.update f i v) = pre ++ (v.toList ++ post) := by
  have hrange : List.range n = List.range i ++ (i :: List.range' (i + 1) (n - (i + 1))) := by
    obtain ⟨k, rfl⟩ : ∃ k, n = i + (k + 1) := ⟨n - (i + 1), by omega⟩
    rw [List.range_add, ← List.range'_eq_map_range, List.range'_succ,
      show i + (k + 1) - (i + 1) = k by omega]
  have hcut : ∀ g : ℕ → Option α, compress n g = compress i g ++
      ((g i).toList ++ (List.range' (i + 1) (n - (i + 1))).filterMap g) := by
    intro g
    unfold compress
    rw [hrange, List.filterMap_append, List.filterMap_cons]
    cases g i <;> simp
  refine ⟨compress i f, (List.range' (i + 1) (n - (i + 1))).filterMap f, length_compress i f,
    hcut f, ?_⟩
  intro v
  have hpre : compress i (Function.update f i v) = compress i f := by
    refine compress_congr ?_
    intro j hj
    rw [Function.update_of_ne (by omega)]
  have hpost : (List.range' (i + 1) (n - (i + 1))).filterMap (Function.update f i v) =
      (List.range' (i + 1) (n - (i + 1))).filterMap f := by
    refine List.filterMap_congr ?_
    intro j hj
    rw [Function.update_of_ne]
    have := (List.mem_range'_1.1 hj).1
    omega
  rw [hcut, Function.update_self, hpre, hpost]

theorem compress_getElem? {n i : ℕ} (hi : i < n) {f : ℕ → Option α} {x : α} (hx : f i = some x) :
    (compress n f)[rank (fun j => (f j).isSome) i]? = some x := by
  obtain ⟨pre, post, hlen, hf, -⟩ := exists_split hi f
  rw [hf, ← hlen, hx]
  simp

theorem compress_set {n i : ℕ} (hi : i < n) {f : ℕ → Option α} {x : α} (hx : f i = some x)
    (y : α) : (compress n f).set (rank (fun j => (f j).isSome) i) y =
      compress n (Function.update f i (some y)) := by
  obtain ⟨pre, post, hlen, hf, hup⟩ := exists_split hi f
  rw [hf, hup, ← hlen, hx]
  simp

theorem compress_eraseIdx {n i : ℕ} (hi : i < n) {f : ℕ → Option α} {x : α} (hx : f i = some x) :
    (compress n f).eraseIdx (rank (fun j => (f j).isSome) i) =
      compress n (Function.update f i none) := by
  obtain ⟨pre, post, hlen, hf, hup⟩ := exists_split hi f
  rw [hf, hup, ← hlen, hx, List.eraseIdx_append_of_length_le (le_refl _)]
  simp

theorem rank_lt_length {n i : ℕ} (hi : i < n) {f : ℕ → Option α} {x : α} (hx : f i = some x) :
    rank (fun j => (f j).isSome) i < (compress n f).length := by
  obtain ⟨pre, post, hlen, hf, -⟩ := exists_split hi f
  rw [hf, ← hlen, hx]
  simp

theorem rank_le_length {n i : ℕ} (hi : i < n) (f : ℕ → Option α) :
    rank (fun j => (f j).isSome) i ≤ (compress n f).length := by
  obtain ⟨pre, post, hlen, hf, -⟩ := exists_split hi f
  rw [hf, ← hlen]
  simp

/-! ## Two sparse arrays in one list -/

/-- Two sparse arrays in one list: `f` from the front, `g` from the back. -/
def twoEnded (n : ℕ) (f g : ℕ → Option α) : List α := compress n f ++ (compress n g).reverse

theorem length_twoEnded (n : ℕ) (f g : ℕ → Option α) :
    (twoEnded n f g).length = (compress n f).length + (compress n g).length := by
  simp [twoEnded]

section Front

variable {n i : ℕ} (hi : i < n) {f : ℕ → Option α} (g : ℕ → Option α)
include hi

theorem twoEnded_front_getElem? {x : α} (hx : f i = some x) :
    (twoEnded n f g)[rank (fun j => (f j).isSome) i]? = some x := by
  unfold twoEnded
  rw [List.getElem?_append_left (rank_lt_length hi hx), compress_getElem? hi hx]

theorem twoEnded_front_set {x : α} (hx : f i = some x) (y : α) :
    (twoEnded n f g).set (rank (fun j => (f j).isSome) i) y =
      twoEnded n (Function.update f i (some y)) g := by
  unfold twoEnded
  rw [List.set_append_left _ _ (rank_lt_length hi hx), compress_set hi hx]

theorem twoEnded_front_insertIdx (hx : f i = none) (y : α) :
    (twoEnded n f g).insertIdx (rank (fun j => (f j).isSome) i) y =
      twoEnded n (Function.update f i (some y)) g := by
  unfold twoEnded
  obtain ⟨pre, post, hlen, hf, hup⟩ := exists_split hi f
  rw [hf, hup, ← hlen, hx]
  clear hlen hf hup
  induction pre with
  | nil => simp
  | cons a pre ih => simpa using ih

theorem twoEnded_front_eraseIdx {x : α} (hx : f i = some x) :
    (twoEnded n f g).eraseIdx (rank (fun j => (f j).isSome) i) =
      twoEnded n (Function.update f i none) g := by
  unfold twoEnded
  rw [List.eraseIdx_append_of_lt_length (rank_lt_length hi hx), compress_eraseIdx hi hx]

end Front

section Back

variable {n i : ℕ} (hi : i < n) (f : ℕ → Option α) {g : ℕ → Option α}
include hi

/-- The index from the back of a position taken in the second array, with what surrounds it. -/
theorem twoEnded_back_split {x : α} (hx : g i = some x) :
    ∃ pre post, (twoEnded n f g).length - 1 - rank (fun j => (g j).isSome) i =
        ((compress n f) ++ pre).length ∧
      rank (fun j => (g j).isSome) i + 1 ≤ (twoEnded n f g).length ∧
      twoEnded n f g = (compress n f ++ pre) ++ x :: post ∧
      ∀ v : Option α, twoEnded n f (Function.update g i v) =
        (compress n f ++ pre) ++ (v.toList ++ post) := by
  obtain ⟨pre, post, hlen, hg, hup⟩ := exists_split hi g
  refine ⟨post.reverse, pre.reverse, ?_, ?_, ?_, ?_⟩
  · rw [length_twoEnded, hg, ← hlen, hx]
    simp only [Option.toList_some, List.length_append, List.length_cons, List.length_nil,
      List.length_reverse]
    omega
  · rw [length_twoEnded, hg, ← hlen, hx]
    simp only [Option.toList_some, List.length_append, List.length_cons, List.length_nil]
    omega
  · rw [twoEnded, hg, hx]
    simp
  · intro v
    rw [twoEnded, hup]
    cases v <;> simp

theorem twoEnded_back_getElem? {x : α} (hx : g i = some x) :
    (twoEnded n f g)[(twoEnded n f g).length - 1 - rank (fun j => (g j).isSome) i]? = some x := by
  obtain ⟨pre, post, hidx, -, hc, -⟩ := twoEnded_back_split hi f hx
  rw [hidx, hc]
  simp

theorem twoEnded_back_set {x : α} (hx : g i = some x) (y : α) :
    (twoEnded n f g).set ((twoEnded n f g).length - 1 - rank (fun j => (g j).isSome) i) y =
      twoEnded n f (Function.update g i (some y)) := by
  obtain ⟨pre, post, hidx, -, hc, hup⟩ := twoEnded_back_split hi f hx
  rw [hidx, hup, hc]
  simp

theorem twoEnded_back_eraseIdx {x : α} (hx : g i = some x) :
    (twoEnded n f g).eraseIdx ((twoEnded n f g).length - 1 - rank (fun j => (g j).isSome) i) =
      twoEnded n f (Function.update g i none) := by
  obtain ⟨pre, post, hidx, -, hc, hup⟩ := twoEnded_back_split hi f hx
  rw [hidx, hup, hc, List.eraseIdx_append_of_length_le (le_refl _)]
  simp

theorem back_index_lt {x : α} (hx : g i = some x) :
    (twoEnded n f g).length - 1 - rank (fun j => (g j).isSome) i < (twoEnded n f g).length := by
  obtain ⟨pre, post, -, hle, -, -⟩ := twoEnded_back_split hi f hx
  omega

/-- Adding a position to the second array: counted in the list before the insertion, its index is
one past the position's rank from the end. -/
theorem twoEnded_back_insertIdx (hx : g i = none) (y : α) :
    (twoEnded n f g).insertIdx ((twoEnded n f g).length - rank (fun j => (g j).isSome) i) y =
      twoEnded n f (Function.update g i (some y)) := by
  obtain ⟨pre, post, hlen, hg, hup⟩ := exists_split hi g
  have hidx : (twoEnded n f g).length - rank (fun j => (g j).isSome) i =
      (compress n f ++ post.reverse).length := by
    rw [length_twoEnded, hg, ← hlen, hx]
    simp only [Option.toList_none, List.nil_append, List.length_append, List.length_reverse]
    omega
  rw [hidx]
  have hc : twoEnded n f g = (compress n f ++ post.reverse) ++ pre.reverse := by
    rw [twoEnded, hg, hx]
    simp
  have hc' : twoEnded n f (Function.update g i (some y)) =
      (compress n f ++ post.reverse) ++ y :: pre.reverse := by
    rw [twoEnded, hup]
    simp
  rw [hc, hc']
  generalize compress n f ++ post.reverse = front
  induction front with
  | nil => simp
  | cons a front ih => simpa using ih

theorem back_rank_le : rank (fun j => (g j).isSome) i ≤ (twoEnded n f g).length := by
  rw [length_twoEnded]
  have := rank_le_length hi g
  omega

end Back

end Rank
