import Mathlib

/-!
# Trees given by parents

Elements are filed under the key of their parent, and have a place: the list of names on the way
from the root.  If the parent of an element, unless it is the root, is an element that may have
children, then the walk from the root comes by every element once (`walk_perm`).
-/

namespace ParentTree

variable {V K N : Type}

/-- What is below a key, `n` levels deep: each element, followed by what is below it. -/
def walk (kids : K → List V) (key : V → K) (dir : V → Bool) : ℕ → K → List V
  | 0, _ => []
  | n + 1, k => (kids k).flatMap fun v => v :: if dir v then walk kids key dir n (key v) else []

/-- The elements `all` are a tree: `kids` files them under their parents, no two are at one place,
and every parent but the root is a directory among them. -/
structure IsTree (all : List V) (kids : K → List V) (key : V → K) (dir : V → Bool)
    (place : K → List N) : Prop where
  nodup_kids : ∀ k, (kids k).Nodup
  mem_kids : ∀ k v, v ∈ kids k ↔
    v ∈ all ∧ place (key v) ≠ [] ∧ (place (key v)).dropLast = place k
  injective : ∀ v ∈ all, ∀ w ∈ all, place (key v) = place (key w) → v = w
  closed : ∀ v ∈ all, (place (key v)).dropLast = [] ∨
    ∃ d ∈ all, place (key d) = (place (key v)).dropLast ∧ dir d = true

namespace IsTree

variable {all : List V} {kids : K → List V} {key : V → K} {dir : V → Bool} {place : K → List N}

/-- Not only the parent, every ancestor is a directory of the tree. -/
theorem ancestor (h : IsTree all kids key dir place) {v : V} (hv : v ∈ all) {q : List N}
    (hne : q ≠ []) (hinit : q <+: place (key v)) (hproper : q ≠ place (key v)) :
    ∃ d ∈ all, place (key d) = q ∧ dir d = true := by
  obtain ⟨rest, hrest⟩ := hinit
  induction rest using List.reverseRecOn generalizing v with
  | nil =>
      rw [List.append_nil] at hrest
      exact absurd hrest hproper
  | append_singleton rest last ih =>
      have hdrop : (place (key v)).dropLast = q ++ rest := by
        rw [← hrest, ← List.append_assoc, List.dropLast_concat]
      rcases h.closed v hv with hroot | ⟨d, hd, hplace, hdir⟩
      · rw [hdrop, List.append_eq_nil_iff] at hroot
        exact absurd hroot.1 hne
      · by_cases hq : rest = []
        · rw [hq, List.append_nil] at hdrop
          exact ⟨d, hd, hplace.trans hdrop, hdir⟩
        · refine ih hd ?_ (by rw [hplace, hdrop])
          rw [hplace, hdrop]
          intro heq
          exact hq (List.self_eq_append_right.1 heq)

theorem mem_walk (h : IsTree all kids key dir place) (n : ℕ) (k : K) (v : V) :
    v ∈ walk kids key dir n k ↔ v ∈ all ∧ place k <+: place (key v) ∧ place k ≠ place (key v) ∧
      (place (key v)).length ≤ (place k).length + n := by
  induction n generalizing k with
  | zero =>
      refine iff_of_false (by simp [walk]) ?_
      rintro ⟨-, hinit, hproper, hlen⟩
      exact hproper (hinit.eq_of_length_le hlen)
  | succ n ih =>
      rw [walk, List.mem_flatMap]
      constructor
      · rintro ⟨c, hc, hv⟩
        obtain ⟨hall, hne, hparent⟩ := (h.mem_kids k c).1 hc
        have hlast := List.dropLast_concat_getLast hne
        have hlen : (place (key c)).length = (place k).length + 1 := by
          rw [← hlast, hparent, List.length_append, List.length_singleton]
        have hpre : place k <+: place (key c) := ⟨_, hparent ▸ hlast⟩
        rcases List.mem_cons.1 hv with rfl | hv
        · refine ⟨hall, hpre, ?_, by omega⟩
          intro heq
          rw [heq] at hlen
          omega
        · split at hv
          · obtain ⟨hvall, hvpre, -, hvlen⟩ := (ih (key c)).1 hv
            refine ⟨hvall, hpre.trans hvpre, ?_, by omega⟩
            intro heq
            have hle := hvpre.length_le
            rw [← heq] at hle
            omega
          · cases hv
      · rintro ⟨hv, hinit, hproper, hlen⟩
        obtain ⟨rest, hrest⟩ := hinit
        cases rest with
        | nil => exact absurd (by simpa using hrest) hproper
        | cons x rest =>
            have hstep : place k ++ [x] <+: place (key v) := ⟨rest, by rw [← hrest]; simp⟩
            by_cases hend : rest = []
            · -- the element itself is filed under the key
              refine ⟨v, (h.mem_kids k v).2 ⟨hv, ?_, ?_⟩, List.mem_cons_self⟩
              · rw [← hrest]
                simp
              · rw [← hrest, hend, List.dropLast_concat]
            · have hproper' : place k ++ [x] ≠ place (key v) := by
                rw [← hrest]
                intro heq
                have := congrArg List.length heq
                simp only [List.length_append, List.length_cons, List.length_nil] at this
                exact hend (List.length_eq_zero_iff.1 (by omega))
              obtain ⟨d, hd, hplace, hdir⟩ := h.ancestor hv (by simp) hstep hproper'
              refine ⟨d, (h.mem_kids k d).2 ⟨hd, ?_, ?_⟩, ?_⟩
              · rw [hplace]
                simp
              · rw [hplace, List.dropLast_concat]
              · rw [if_pos hdir]
                refine List.mem_cons_of_mem _ ((ih (key d)).2 ⟨hv, ?_, ?_, ?_⟩)
                · rw [hplace]
                  exact hstep
                · rw [hplace]
                  exact hproper'
                · rw [hplace, List.length_append, List.length_singleton]
                  omega

theorem nodup_walk (h : IsTree all kids key dir place) (n : ℕ) (k : K) :
    (walk kids key dir n k).Nodup := by
  induction n generalizing k with
  | zero => exact List.nodup_nil
  | succ n ih =>
      rw [walk, List.nodup_flatMap]
      constructor
      · intro c _
        rw [List.nodup_cons]
        constructor
        · intro hc
          split at hc
          · exact ((h.mem_walk n (key c) c).1 hc).2.2.1 rfl
          · cases hc
        · split
          · exact ih (key c)
          · exact List.nodup_nil
      · -- what is below one child is not below another
        refine List.Pairwise.imp_of_mem ?_ (h.nodup_kids k)
        intro c d hc hd hne v hvc hvd
        have hbelow : ∀ {e}, e ∈ kids k → v ∈ (e :: if dir e then walk kids key dir n (key e) else []) →
            v ∈ all ∧ place (key e) = (place (key v)).take ((place k).length + 1) := by
          intro e he hve
          obtain ⟨heall, hene, heparent⟩ := (h.mem_kids k e).1 he
          have hlen : (place (key e)).length = (place k).length + 1 := by
            rw [← List.dropLast_concat_getLast hene, heparent, List.length_append,
              List.length_singleton]
          rcases List.mem_cons.1 hve with rfl | hve
          · exact ⟨heall, by rw [← hlen, List.take_length]⟩
          · split at hve
            · obtain ⟨hvall, hvpre, -⟩ := (h.mem_walk n (key e) v).1 hve
              exact ⟨hvall, by rw [← hlen]; exact List.prefix_iff_eq_take.1 hvpre⟩
            · cases hve
        obtain ⟨-, hplacec⟩ := hbelow hc hvc
        obtain ⟨-, hplaced⟩ := hbelow hd hvd
        exact hne (h.injective c ((h.mem_kids k c).1 hc).1 d ((h.mem_kids k d).1 hd).1
          (hplacec.trans hplaced.symm))

/-- A walk that is deep enough comes by every element once. -/
theorem walk_perm (h : IsTree all kids key dir place) (hnodup : all.Nodup) {root : K}
    (hroot : place root = []) {n : ℕ}
    (hall : ∀ v ∈ all, place (key v) ≠ [] ∧ (place (key v)).length ≤ n) :
    (walk kids key dir n root).Perm all := by
  rw [List.perm_ext_iff_of_nodup (h.nodup_walk n root) hnodup]
  intro v
  rw [h.mem_walk n root v, hroot]
  constructor
  · exact fun hv => hv.1
  · intro hv
    refine ⟨hv, List.nil_prefix, (hall v hv).1.symm, ?_⟩
    rw [List.length_nil, Nat.zero_add]
    exact (hall v hv).2

end IsTree

end ParentTree
