import Mathlib

/-!
# Record streams

A file of records that only grows: the encodings of the records, one after another.  A reader
remembers the byte offset it has come to, and a position of the file that a reader can come to is
the offset of some record.
-/

namespace RecordStream

variable {α β : Type*} (enc : α → List β)

/-- The file that holds some records. -/
def concat (records : List α) : List β := records.flatMap enc

/-- Where a record starts. -/
def offset (records : List α) (n : ℕ) : ℕ := (concat enc (records.take n)).length

variable {enc} {a : α} {l l' : List α} {n m : ℕ}

@[simp] theorem concat_nil : concat enc [] = [] := rfl

@[simp] theorem concat_cons : concat enc (a :: l) = enc a ++ concat enc l := rfl

@[simp] theorem concat_append : concat enc (l ++ l') = concat enc l ++ concat enc l' := by
  simp [concat]

@[simp] theorem offset_zero : offset enc l 0 = 0 := rfl

@[simp] theorem offset_length : offset enc l l.length = (concat enc l).length := by
  simp [offset]

theorem offset_le : offset enc l n ≤ (concat enc l).length := by
  have h : concat enc l = concat enc (l.take n) ++ concat enc (l.drop n) := by
    rw [← concat_append, List.take_append_drop]
  rw [h, List.length_append]
  exact Nat.le_add_right _ _

/-- From a record's offset on, the file is that record and those after it. -/
theorem drop_offset : (concat enc l).drop (offset enc l n) = concat enc (l.drop n) := by
  have h : concat enc l = concat enc (l.take n) ++ concat enc (l.drop n) := by
    rw [← concat_append, List.take_append_drop]
  rw [h, offset, List.drop_left]

/-- Offsets stay what they are when the file grows. -/
theorem offset_append (h : n ≤ l.length) : offset enc (l ++ l') n = offset enc l n := by
  rw [offset, offset, List.take_append_of_le_length h]

/-- The records from a byte offset on. -/
def recordsAfter (enc : α → List β) : List α → ℕ → List α
  | l, 0 => l
  | [], _ + 1 => []
  | a :: l, off + 1 => recordsAfter enc l (off + 1 - (enc a).length)

@[simp] theorem recordsAfter_zero : recordsAfter enc l 0 = l := by cases l <;> rfl

/-- No record is empty, so an offset belongs to one record. -/
theorem recordsAfter_offset (henc : ∀ a, enc a ≠ []) (h : n ≤ l.length) :
    recordsAfter enc l (offset enc l n) = l.drop n := by
  induction l generalizing n with
  | nil =>
      obtain rfl : n = 0 := by simpa using h
      simp
  | cons a l ih =>
      cases n with
      | zero => simp
      | succ n =>
          have hoff : offset enc (a :: l) (n + 1) = (enc a).length + offset enc l n := by
            simp [offset]
          have hpos : 0 < (enc a).length := List.length_pos_iff.2 (henc a)
          obtain ⟨k, hk⟩ : ∃ k, (enc a).length + offset enc l n = k + 1 :=
            ⟨_, (Nat.succ_pred_eq_of_pos (by omega)).symm⟩
          have hsub : k + 1 - (enc a).length = offset enc l n := by omega
          rw [hoff, hk, recordsAfter, hsub, List.drop_succ_cons]
          exact ih (by simpa using h)

/-- A reader that has not read every record has not come to the end of the file. -/
theorem offset_lt_length (henc : ∀ a, enc a ≠ []) (h : n < l.length) :
    offset enc l n < (concat enc l).length := by
  refine lt_of_le_of_ne offset_le fun heq => ?_
  have hdrop : (concat enc l).drop (offset enc l n) = concat enc (l.drop n) := drop_offset
  rw [heq, List.drop_length, List.drop_eq_getElem_cons h, concat_cons] at hdrop
  exact henc _ (List.append_eq_nil_iff.1 hdrop.symm).1

end RecordStream
