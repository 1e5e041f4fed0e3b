import Mathlib.Data.List.Sort
import Mathlib.Data.Nat.Basic
import Mathlib.Tactic.Ring

/-!
# Dividing a range between workers

The numbers below `n` are dealt out in shares of `per` consecutive ones; worker `i` has share `i`,
and the last shares may be short or empty.  The shares one after another are the whole range.  What
the workers produce arrives in any order, tagged with the worker, and is put back in order by its
tag.
-/

namespace Workers

/-- The share of worker `i`. -/
def share (n per i : ℕ) : List ℕ := List.range' (i * per) (min n ((i + 1) * per) - i * per)

/-- The shares of the first `k` workers. -/
theorem flatMap_share (n per k : ℕ) :
    (List.range k).flatMap (share n per) = List.range (min n (k * per)) := by
  induction k with
  | zero => simp
  | succ k ih =>
      rw [List.range_succ, List.flatMap_append, ih, List.flatMap_singleton, share,
        List.range_eq_range', List.range_eq_range']
      by_cases hle : k * per ≤ n
      · have hsplit : min n ((k + 1) * per) = k * per + (min n ((k + 1) * per) - k * per) := by
          have : k * per ≤ (k + 1) * per := Nat.mul_le_mul_right _ (Nat.le_succ k)
          omega
        have hrange : List.range' 0 (k * per) ++
            List.range' (0 + k * per) (min n ((k + 1) * per) - k * per) =
              List.range' 0 (k * per + (min n ((k + 1) * per) - k * per)) := List.range'_append_1
        rw [Nat.zero_add] at hrange
        rw [min_eq_right hle, hrange, ← hsplit]
      · have : k * per ≤ (k + 1) * per := Nat.mul_le_mul_right _ (Nat.le_succ k)
        rw [min_eq_left (by omega), min_eq_left (by omega), show n - k * per = 0 by omega]
        simp

/-- With enough workers nothing is left over. -/
theorem flatMap_share_eq_range {n per k : ℕ} (h : n ≤ k * per) :
    (List.range k).flatMap (share n per) = List.range n := by
  rw [flatMap_share, min_eq_left h]

/-- Shares of the ceiling of the average are enough. -/
theorem le_mul_div_ceil (n : ℕ) {k : ℕ} (hk : 0 < k) : n ≤ k * ((n + k - 1) / k) := by
  have h := Nat.div_add_mod (n + k - 1) k
  have hlt := Nat.mod_lt (n + k - 1) hk
  omega

variable {α : Type*}

/-- What the workers that produce anything produce together. -/
theorem flatMap_filterMap {f : ℕ → Option (ℕ × List α)} {g : ℕ → List α}
    (h : ∀ i, (f i).elim [] Prod.snd = g i) (l : List ℕ) :
    (l.filterMap f).flatMap Prod.snd = l.flatMap g := by
  induction l with
  | nil => rfl
  | cons i l ih =>
      have hi := h i
      cases hf : f i with
      | none => simp_all
      | some r => simp_all

/-- Put in the order of the tags. -/
def sortByKey (l : List (ℕ × α)) : List (ℕ × α) := l.mergeSort fun a b => a.1 ≤ b.1

/-- However the results of the workers arrive, they are put back in order. -/
theorem sortByKey_of_perm {l arrived : List (ℕ × α)} (hl : l.Pairwise fun a b => a.1 < b.1)
    (h : arrived.Perm l) : sortByKey arrived = l := by
  have hsorted : (sortByKey arrived).Pairwise fun a b => decide (a.1 ≤ b.1) = true := by
    refine List.pairwise_mergeSort (fun a b c hab hbc => ?_) (fun a b => ?_) arrived
    · exact decide_eq_true (le_trans (of_decide_eq_true hab) (of_decide_eq_true hbc))
    · rcases le_total a.1 b.1 with hab | hab
      · simp [hab]
      · simp [hab]
  have hperm : (sortByKey arrived).Perm l := (List.mergeSort_perm arrived _).trans h
  have hsorted' : (sortByKey arrived).Pairwise fun a b => a.1 ≤ b.1 := hsorted.imp of_decide_eq_true
  refine List.Perm.eq_of_pairwise (fun a b ha hb hab hba => ?_) hsorted' (hl.imp le_of_lt) hperm
  have hnodup : (l.map Prod.fst).Nodup := List.pairwise_map.2 (hl.imp ne_of_lt)
  exact List.inj_on_of_nodup_map hnodup (hperm.subset ha) hb (le_antisymm hab hba)

end Workers
