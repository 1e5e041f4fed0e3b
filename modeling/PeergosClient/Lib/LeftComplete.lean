import PeergosClient.Lib.Chunks

/-!
# Left-complete binary trees

A list folded into a binary tree whose left part is, at every node, the largest power of two of
leaves below all of them, as in BLAKE3.  Folding groups of a power of two first, and then the
results, gives the same tree (`merge_toChunks`): the left part of a tree over more than one group is
a whole number of groups, and as a number of groups it is again the largest power of two.
-/

namespace LeftComplete

open Chunks

variable {α : Type*}

/-- The largest power of two below `n`. -/
def leftCount (n : ℕ) : ℕ := 2 ^ Nat.log2 (n - 1)

theorem leftCount_pos (n : ℕ) : 0 < leftCount n := Nat.two_pow_pos _

theorem leftCount_lt {n : ℕ} (h : 2 ≤ n) : leftCount n < n := by
  have := Nat.log2_self_le (show n - 1 ≠ 0 by omega)
  unfold leftCount
  omega

/-- Between a half of `n` and all of it, and the only power of two there. -/
theorem leftCount_eq_iff {n k : ℕ} (h : 2 ≤ n) :
    leftCount n = 2 ^ k ↔ 2 ^ k < n ∧ n ≤ 2 ^ (k + 1) := by
  have hne : n - 1 ≠ 0 := by omega
  have hiff : Nat.log2 (n - 1) = k ↔ 2 ^ k ≤ n - 1 ∧ n - 1 < 2 ^ (k + 1) := Nat.log2_eq_iff hne
  unfold leftCount
  rw [Nat.pow_right_inj (by norm_num), hiff]
  omega

/-- The tree over a list, folded with `node`; there is none over no leaves. -/
def merge (node : α → α → α) (l : List α) : Option α :=
  match l with
  | [] => none
  | [a] => some a
  | a :: b :: rest => do
      let left ← merge node ((a :: b :: rest).take (leftCount (rest.length + 2)))
      let right ← merge node ((a :: b :: rest).drop (leftCount (rest.length + 2)))
      some (node left right)
termination_by l.length
decreasing_by
  · have := leftCount_lt (show 2 ≤ rest.length + 2 by omega)
    simp only [List.length_take, List.length_cons]
    omega
  · have := leftCount_pos (rest.length + 2)
    simp only [List.length_drop, List.length_cons]
    omega

variable {node : α → α → α} {l : List α}

@[simp] theorem merge_singleton (a : α) : merge node [a] = some a := by
  rw [merge]

theorem merge_split (h : 2 ≤ l.length) :
    merge node l = (do
      let left ← merge node (l.take (leftCount l.length))
      let right ← merge node (l.drop (leftCount l.length))
      some (node left right)) := by
  match l, h with
  | a :: b :: rest, _ => rw [merge]; rfl

theorem merge_isSome (h : l ≠ []) : (merge node l).isSome := by
  induction hlen : l.length using Nat.strong_induction_on generalizing l with
  | _ n ih =>
      match l, h with
      | [a], _ => simp
      | a :: b :: rest, _ =>
          have h2 : 2 ≤ (a :: b :: rest).length := by simp
          have hlt := leftCount_lt h2
          have hpos := leftCount_pos (a :: b :: rest).length
          have hleft := ih _ (by rw [List.length_take]; omega)
            (show (a :: b :: rest).take (leftCount (a :: b :: rest).length) ≠ [] by
              intro hnil
              have := congrArg List.length hnil
              rw [List.length_take, List.length_nil] at this
              omega) rfl
          have hright := ih _ (by rw [List.length_drop]; omega)
            (show (a :: b :: rest).drop (leftCount (a :: b :: rest).length) ≠ [] by
              intro hnil
              have := congrArg List.length hnil
              rw [List.length_drop, List.length_nil] at this
              omega) rfl
          obtain ⟨x, hx⟩ := Option.isSome_iff_exists.1 hleft
          obtain ⟨y, hy⟩ := Option.isSome_iff_exists.1 hright
          rw [merge_split h2, hx, hy]
          rfl

/-- The left part of a tree over more than one group of `2 ^ j` leaves is as many groups as the left
part of a tree over the groups. -/
theorem leftCount_groups {n j : ℕ} (h : 2 ^ j < n) :
    leftCount n = leftCount ((n + 2 ^ j - 1) / 2 ^ j) * 2 ^ j := by
  obtain ⟨k, hk⟩ : ∃ k, leftCount n = 2 ^ k := ⟨_, rfl⟩
  have hg : 0 < 2 ^ j := Nat.two_pow_pos j
  have hn : 2 ≤ n := by omega
  obtain ⟨hlow, hhigh⟩ := (leftCount_eq_iff hn).1 hk
  have hjk : j ≤ k := by
    by_contra hlt
    have : 2 ^ (k + 1) ≤ 2 ^ j := Nat.pow_le_pow_right (by norm_num) (by omega)
    omega
  obtain ⟨i, rfl⟩ : ∃ i, k = i + j := ⟨k - j, by omega⟩
  have hm : 2 ≤ (n + 2 ^ j - 1) / 2 ^ j := by
    rw [Nat.le_div_iff_mul_le hg]
    omega
  have hgroups : leftCount ((n + 2 ^ j - 1) / 2 ^ j) = 2 ^ i := by
    rw [leftCount_eq_iff hm]
    have hsucc : i + j + 1 = i + 1 + j := by omega
    rw [hsucc, pow_add] at hhigh
    rw [pow_add] at hlow
    constructor
    · rw [Nat.lt_iff_add_one_le, Nat.le_div_iff_mul_le hg, Nat.add_mul, one_mul]
      omega
    · rw [← Nat.lt_succ_iff, Nat.div_lt_iff_lt_mul hg, Nat.succ_mul]
      omega
  rw [hk, hgroups, pow_add]

/-- The values of a tree's groups of `2 ^ j` leaves. -/
def GroupsOf (node : α → α → α) (j : ℕ) (l groups : List α) : Prop :=
  (l.toChunks (2 ^ j)).map (merge node) = groups.map some

theorem GroupsOf.length_eq {j : ℕ} {groups : List α} (h : GroupsOf node j l groups) :
    groups.length = (l.length + 2 ^ j - 1) / 2 ^ j := by
  have hlen := congrArg List.length h
  rw [List.length_map, List.length_map, length_toChunks (Nat.two_pow_pos j)] at hlen
  exact hlen.symm

theorem GroupsOf.two_le {j : ℕ} {groups : List α} (h : GroupsOf node j l groups)
    (hlong : 2 ^ j < l.length) : 2 ≤ groups.length := by
  rw [h.length_eq, Nat.le_div_iff_mul_le (Nat.two_pow_pos j)]
  omega

/-- The two parts of a tree over more than one group, and their groups. -/
theorem GroupsOf.parts {j : ℕ} {groups : List α} (h : GroupsOf node j l groups)
    (hlong : 2 ^ j < l.length) :
    GroupsOf node j (l.take (leftCount l.length)) (groups.take (leftCount groups.length)) ∧
      GroupsOf node j (l.drop (leftCount l.length)) (groups.drop (leftCount groups.length)) := by
  have hg : 0 < 2 ^ j := Nat.two_pow_pos j
  unfold GroupsOf at h ⊢
  rw [leftCount_groups hlong, ← GroupsOf.length_eq h, ← take_toChunks hg, ← drop_toChunks hg,
    List.map_take, List.map_drop, List.map_take, List.map_drop, h]
  exact ⟨rfl, rfl⟩

/-- Groups of a power of two merged first give the same tree. -/
theorem merge_groups {j : ℕ} {groups : List α} (hl : l ≠ []) (h : GroupsOf node j l groups) :
    merge node groups = merge node l := by
  induction hlen : l.length using Nat.strong_induction_on generalizing l groups with
  | _ n ih =>
      by_cases hlong : 2 ^ j < l.length
      · have htwo := h.two_le hlong
        have hn : 2 ≤ l.length := by
          have := Nat.two_pow_pos j
          omega
        have hlt := leftCount_lt hn
        have hpos := leftCount_pos l.length
        obtain ⟨hleft, hright⟩ := h.parts hlong
        have hl1 : l.take (leftCount l.length) ≠ [] :=
          List.ne_nil_of_length_pos (by rw [List.length_take]; omega)
        have hl2 : l.drop (leftCount l.length) ≠ [] :=
          List.ne_nil_of_length_pos (by rw [List.length_drop]; omega)
        rw [merge_split htwo, merge_split hn,
          ih _ (by rw [List.length_take]; omega) hl1 hleft rfl,
          ih _ (by rw [List.length_drop]; omega) hl2 hright rfl]
      · -- one group: the list itself
        rw [GroupsOf, toChunks_of_length_le hl (not_lt.1 hlong), List.map_singleton] at h
        obtain ⟨v, rfl⟩ : ∃ v, groups = [v] := by
          have hone := congrArg List.length h
          rw [List.length_map, List.length_singleton] at hone
          exact List.length_eq_one_iff.1 hone.symm
        rw [List.map_singleton] at h
        rw [merge_singleton]
        exact (List.singleton_inj.1 h).symm

/-- A tree of at least two leaves whose topmost node is folded with `root`. -/
def mergeRoot (node root : α → α → α) (l : List α) : Option α := do
  let left ← merge node (l.take (leftCount l.length))
  let right ← merge node (l.drop (leftCount l.length))
  some (root left right)

/-- More than one group of a power of two merged first, and their values at the root, give the same
root. -/
theorem mergeRoot_groups {root : α → α → α} {j : ℕ} {groups : List α} (hlong : 2 ^ j < l.length)
    (h : GroupsOf node j l groups) : mergeRoot node root groups = mergeRoot node root l := by
  have hn : 2 ≤ l.length := by
    have := Nat.two_pow_pos j
    omega
  have hlt := leftCount_lt hn
  have hpos := leftCount_pos l.length
  obtain ⟨hleft, hright⟩ := h.parts hlong
  have hl1 : l.take (leftCount l.length) ≠ [] :=
    List.ne_nil_of_length_pos (by rw [List.length_take]; omega)
  have hl2 : l.drop (leftCount l.length) ≠ [] :=
    List.ne_nil_of_length_pos (by rw [List.length_drop]; omega)
  rw [mergeRoot, mergeRoot, merge_groups hl1 hleft, merge_groups hl2 hright]

/-- Every list has groups. -/
theorem exists_groupsOf (node : α → α → α) (j : ℕ) (l : List α) :
    ∃ groups, GroupsOf node j l groups := by
  have hsome : ∀ g ∈ l.toChunks (2 ^ j), ∃ v, merge node g = some v := fun g hg =>
    Option.isSome_iff_exists.1 (merge_isSome (mem_toChunks (Nat.two_pow_pos j) hg).1)
  unfold GroupsOf
  generalize l.toChunks (2 ^ j) = chunks at hsome ⊢
  induction chunks with
  | nil => exact ⟨[], rfl⟩
  | cons g gs ih =>
      rw [List.forall_mem_cons] at hsome
      obtain ⟨v, hv⟩ := hsome.1
      obtain ⟨vs, hvs⟩ := ih hsome.2
      exact ⟨v :: vs, by rw [List.map_cons, List.map_cons, hv, hvs]⟩

end LeftComplete
