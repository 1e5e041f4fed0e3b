import Mathlib

/-!
# Grouping by a key

`push` adds an element to the group of its key, which it opens if there is none.  A list pushed one
by one ends up in groups with different keys, each element once under its own key.
-/

namespace Grouping

variable {κ α : Type*} [DecidableEq κ]

/-- Add an element to the group of its key. -/
def push (groups : List (κ × List α)) (k : κ) (a : α) : List (κ × List α) :=
  if groups.any fun g => g.1 = k then
    groups.map fun g => if g.1 = k then (g.1, g.2 ++ [a]) else g
  else groups ++ [(k, [a])]

/-- The elements of the groups, each with its key. -/
def entries (groups : List (κ × List α)) : List (κ × α) :=
  groups.flatMap fun g => g.2.map fun a => (g.1, a)

/-- Group a list by a key. -/
def groupBy {β : Type*} (key : β → κ) (value : β → α) (l : List β) : List (κ × List α) :=
  l.foldl (fun groups b => push groups (key b) (value b)) []

omit [DecidableEq κ] in
@[simp] theorem entries_nil : entries ([] : List (κ × List α)) = [] := rfl

omit [DecidableEq κ] in
@[simp] theorem entries_cons (g : κ × List α) (groups : List (κ × List α)) :
    entries (g :: groups) = (g.2.map fun a => (g.1, a)) ++ entries groups := rfl

omit [DecidableEq κ] in
@[simp] theorem entries_append (groups groups' : List (κ × List α)) :
    entries (groups ++ groups') = entries groups ++ entries groups' := by
  simp [entries]

/-- Where the key has no group none is changed. -/
theorem map_of_forall_ne {groups : List (κ × List α)} {k : κ} (h : ∀ g ∈ groups, g.1 ≠ k) (a : α) :
    (groups.map fun g => if g.1 = k then (g.1, g.2 ++ [a]) else g) = groups := by
  induction groups with
  | nil => rfl
  | cons g groups ih =>
      rw [List.forall_mem_cons] at h
      rw [List.map_cons, if_neg h.1, ih h.2]

/-- The keys stay apart. -/
theorem nodup_push {groups : List (κ × List α)} (h : (groups.map Prod.fst).Nodup) (k : κ) (a : α) :
    ((push groups k a).map Prod.fst).Nodup := by
  unfold push
  split
  · have hkeys : (groups.map fun g => if g.1 = k then (g.1, g.2 ++ [a]) else g).map Prod.fst =
        groups.map Prod.fst := by
      rw [List.map_map]
      refine List.map_congr_left fun g _ => ?_
      by_cases hg : g.1 = k <;> simp [hg]
    rwa [hkeys]
  · rename_i hnew
    rw [List.map_append, List.map_singleton]
    refine List.nodup_append.2 ⟨h, List.nodup_singleton _, ?_⟩
    rintro x hx y hy rfl
    obtain ⟨g, hg, hgx⟩ := List.mem_map.1 hx
    refine hnew (List.any_eq_true.2 ⟨g, hg, decide_eq_true ?_⟩)
    rw [hgx, List.mem_singleton.1 hy]

/-- A push adds its element under its key and moves no other to another key. -/
theorem entries_push {groups : List (κ × List α)} (h : (groups.map Prod.fst).Nodup) (k : κ) (a : α) :
    (entries (push groups k a)).Perm (entries groups ++ [(k, a)]) := by
  unfold push
  split
  · rename_i hold
    induction groups with
    | nil => simp at hold
    | cons g groups ih =>
        rw [List.map_cons, List.nodup_cons] at h
        by_cases hg : g.1 = k
        · have hne : ∀ g' ∈ groups, g'.1 ≠ k := by
            rintro g' hg' rfl
            exact h.1 (List.mem_map.2 ⟨g', hg', hg.symm⟩)
          rw [List.map_cons, if_pos hg, map_of_forall_ne hne, entries_cons, entries_cons,
            List.map_append, List.map_singleton, hg, List.append_assoc, List.append_assoc]
          exact List.perm_append_comm.append_left _
        · have hrest : (groups.any fun g => g.1 = k) = true := by
            simpa [hg] using hold
          rw [List.map_cons, if_neg hg, entries_cons, entries_cons, List.append_assoc]
          exact (ih h.2 hrest).append_left _
  · simp

theorem foldl_push_spec {β : Type*} (key : β → κ) (value : β → α) (l : List β)
    {groups : List (κ × List α)} (h : (groups.map Prod.fst).Nodup) :
    (entries (l.foldl (fun groups b => push groups (key b) (value b)) groups)).Perm
      (entries groups ++ l.map fun b => (key b, value b)) := by
  induction l generalizing groups with
  | nil => simp
  | cons b l ih =>
      rw [List.foldl_cons, List.map_cons]
      refine (ih (nodup_push h _ _)).trans ?_
      refine ((entries_push h (key b) (value b)).append_right _).trans ?_
      rw [List.append_assoc]
      rfl

/-- Grouping loses no element and gives each its own key. -/
theorem entries_groupBy {β : Type*} (key : β → κ) (value : β → α) (l : List β) :
    (entries (groupBy key value l)).Perm (l.map fun b => (key b, value b)) :=
  foldl_push_spec key value l List.nodup_nil

end Grouping
