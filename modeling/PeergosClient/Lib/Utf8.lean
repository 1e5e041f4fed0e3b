import Mathlib

/-!
# Offsets into UTF-8 text

A text is the list of its characters.  Positions in it count bytes of its encoding, and a slice is
taken between two positions that are character boundaries.  Where a pattern occurs is such a
position, and so is where it ends.
-/

namespace Utf8

/-- The number of bytes. -/
def len (s : List Char) : ℕ := (s.map Char.utf8Size).sum

/-- The text before and from a position, if it is a character boundary. -/
def splitAt : List Char → ℕ → Option (List Char × List Char)
  | s, 0 => some ([], s)
  | [], _ + 1 => none
  | c :: s, n + 1 =>
      if c.utf8Size ≤ n + 1 then
        (splitAt s (n + 1 - c.utf8Size)).map fun p => (c :: p.1, p.2)
      else none

/-- The text between two positions, if both are character boundaries in the right order. -/
def slice (s : List Char) (start stop : ℕ) : Option (List Char) := do
  let (front, _) ← splitAt s stop
  let (_, middle) ← splitAt front start
  pure middle

/-- The position of the first occurrence of a pattern. -/
def find (pat : List Char) : List Char → Option ℕ
  | [] => if pat = [] then some 0 else none
  | c :: s => if pat <+: c :: s then some 0 else (find pat s).map (c.utf8Size + ·)

/-- The position of the last occurrence of a character. -/
def rfind (ch : Char) : List Char → Option ℕ
  | [] => none
  | c :: s =>
      match rfind ch s with
      | some i => some (c.utf8Size + i)
      | none => if c = ch then some 0 else none

@[simp] theorem len_nil : len [] = 0 := rfl

@[simp] theorem len_cons (c : Char) (s : List Char) : len (c :: s) = c.utf8Size + len s := by
  simp [len]

@[simp] theorem len_append (x y : List Char) : len (x ++ y) = len x + len y := by
  simp [len]

theorem len_pos {s : List Char} (h : s ≠ []) : 0 < len s := by
  cases s with
  | nil => exact absurd rfl h
  | cons c s =>
      rw [len_cons]
      exact Nat.add_pos_left c.utf8Size_pos _

@[simp] theorem splitAt_append (x y : List Char) : splitAt (x ++ y) (len x) = some (x, y) := by
  induction x with
  | nil => cases y <;> rfl
  | cons c x ih =>
      obtain ⟨n, hn⟩ := Nat.exists_eq_add_one_of_ne_zero c.utf8Size_pos.ne'
      have hlen : len (c :: x) = (n + len x) + 1 := by
        rw [len_cons, hn]
        omega
      rw [List.cons_append, hlen, splitAt, if_pos (by omega), hn,
        show n + len x + 1 - (n + 1) = len x by omega, ih]
      rfl

/-- A position past the end is no boundary. -/
theorem splitAt_of_lt {s : List Char} {n : ℕ} (h : len s < n) : splitAt s n = none := by
  induction s generalizing n with
  | nil =>
      obtain ⟨m, rfl⟩ := Nat.exists_eq_add_one_of_ne_zero (Nat.ne_of_gt (by simpa using h))
      rfl
  | cons c s ih =>
      rw [len_cons] at h
      obtain ⟨m, rfl⟩ := Nat.exists_eq_add_one_of_ne_zero (show n ≠ 0 by omega)
      rw [splitAt, if_pos (by omega), ih (by omega)]
      rfl

/-- The text in the middle. -/
theorem slice_append (x y z : List Char) :
    slice (x ++ (y ++ z)) (len x) (len x + len y) = some y := by
  have h := splitAt_append (x ++ y) z
  rw [len_append, List.append_assoc] at h
  simp [slice, h]

/-- The text from the start. -/
theorem slice_front (x y : List Char) : slice (x ++ y) 0 (len x) = some x := by
  simpa using slice_append [] x y

/-- The text up to the end. -/
theorem slice_back (x y : List Char) : slice (x ++ y) (len x) (len (x ++ y)) = some y := by
  simpa using slice_append x y []

/-- A slice from a position past the end. -/
theorem slice_of_lt {s : List Char} {start : ℕ} (h : len s < start) :
    slice s start (len s) = none := by
  have hs := splitAt_append s []
  rw [List.append_nil] at hs
  simp [slice, hs, splitAt_of_lt h]

/-- Where a pattern is found it occurs. -/
theorem find_eq_some {pat s : List Char} {i : ℕ} (h : find pat s = some i) :
    ∃ x y, s = x ++ (pat ++ y) ∧ i = len x := by
  induction s generalizing i with
  | nil =>
      rw [find] at h
      split at h
      · next hpat =>
          cases h
          exact ⟨[], [], by rw [hpat]; rfl, rfl⟩
      · cases h
  | cons c s ih =>
      rw [find] at h
      split at h
      · next hpre =>
          cases h
          obtain ⟨y, hy⟩ := hpre
          exact ⟨[], y, hy.symm, rfl⟩
      · obtain ⟨j, hj, rfl⟩ := Option.map_eq_some_iff.1 h
        obtain ⟨x, y, rfl, rfl⟩ := ih hj
        exact ⟨c :: x, y, rfl, by simp⟩

/-- A pattern that is not found does not occur. -/
theorem find_eq_none {pat s : List Char} (h : find pat s = none) : ¬pat <:+: s := by
  induction s with
  | nil =>
      rw [find] at h
      split at h
      · cases h
      · next hpat => exact fun hin => hpat (List.eq_nil_of_infix_nil hin)
  | cons c s ih =>
      rw [find] at h
      split at h
      · cases h
      · next hpre =>
          rw [List.infix_cons_iff, not_or]
          exact ⟨hpre, ih (Option.map_eq_none_iff.1 h)⟩

/-- Where a character is found last it occurs. -/
theorem rfind_eq_some {ch : Char} {s : List Char} {i : ℕ} (h : rfind ch s = some i) :
    ∃ x y, s = x ++ ch :: y ∧ i = len x := by
  induction s generalizing i with
  | nil => cases h
  | cons c s ih =>
      rw [rfind] at h
      split at h
      · next j hj =>
          cases h
          obtain ⟨x, y, rfl, rfl⟩ := ih hj
          exact ⟨c :: x, y, rfl, by simp⟩
      · split at h
        · next hc =>
            cases h
            exact ⟨[], s, by rw [hc]; rfl, rfl⟩
        · cases h

end Utf8
