import Mathlib

/-!
# Lists as maps

A list of elements that carry their key represents a map from keys to elements if no two elements
share a key and the map has just these.  The order of the list is of no account.
-/

namespace KeyedMap

variable {α κ : Type} {key : α → κ} {m : κ → Option α} {l l' : List α}

/-- The list holds the elements of the map, one for each key. -/
structure Represents (key : α → κ) (m : κ → Option α) (l : List α) : Prop where
  nodup : (l.map key).Nodup
  some_iff : ∀ k a, m k = some a ↔ a ∈ l ∧ key a = k

theorem Represents.perm (h : Represents key m l) (hp : l.Perm l') : Represents key m l' :=
  ⟨(hp.map key).nodup_iff.1 h.nodup,
    fun k a => (h.some_iff k a).trans (and_congr_left fun _ => hp.mem_iff)⟩

/-- The map is empty at the keys of no element. -/
theorem Represents.eq_none (h : Represents key m l) {k : κ} (hk : k ∉ l.map key) : m k = none := by
  cases hm : m k with
  | none => rfl
  | some a =>
      obtain ⟨ha, hkey⟩ := (h.some_iff k a).1 hm
      exact absurd (hkey ▸ List.mem_map_of_mem ha) hk

variable [DecidableEq κ]

/-- The map with these elements put in one after the other. -/
def insertAll (key : α → κ) (m : κ → Option α) (new : List α) : κ → Option α :=
  new.foldl (fun m a => Function.update m (key a) (some a)) m

theorem insertAll_of_not_mem {new : List α} {k : κ} (h : k ∉ new.map key) :
    insertAll key m new k = m k := by
  unfold insertAll
  induction new generalizing m with
  | nil => rfl
  | cons a new ih =>
      rw [List.map_cons, List.mem_cons, not_or] at h
      rw [List.foldl_cons, ih h.2, Function.update_of_ne h.1]

theorem insertAll_of_mem {new : List α} (hnodup : (new.map key).Nodup) {a : α} (h : a ∈ new) :
    insertAll key m new (key a) = some a := by
  unfold insertAll
  induction new generalizing m with
  | nil => cases h
  | cons b new ih =>
      rw [List.map_cons, List.nodup_cons] at hnodup
      rw [List.foldl_cons]
      rcases List.mem_cons.1 h with rfl | h
      · exact (insertAll_of_not_mem hnodup.1).trans (Function.update_self _ _ _)
      · exact ih hnodup.2 h

namespace Represents

/-- Taking an element out. -/
theorem erase {a : α} (h : Represents key m (a :: l)) :
    Represents key (Function.update m (key a) none) l := by
  have hnodup := h.nodup
  rw [List.map_cons, List.nodup_cons] at hnodup
  refine ⟨hnodup.2, fun k b => ?_⟩
  by_cases hk : k = key a
  · subst hk
    rw [Function.update_self]
    refine iff_of_false (by simp) fun hb => ?_
    exact hnodup.1 (hb.2 ▸ List.mem_map_of_mem hb.1)
  · rw [Function.update_of_ne hk, h.some_iff, List.mem_cons]
    refine and_congr_left fun hkey => ⟨fun hb => hb.resolve_left fun heq => ?_, Or.inr⟩
    exact hk (hkey.symm.trans (congrArg key heq))

/-- Putting an element with a new key in. -/
theorem insert {a : α} (h : Represents key m l) (ha : key a ∉ l.map key) :
    Represents key (Function.update m (key a) (some a)) (a :: l) := by
  refine ⟨List.nodup_cons.2 ⟨ha, h.nodup⟩, fun k b => ?_⟩
  by_cases hk : k = key a
  · subst hk
    rw [Function.update_self, List.mem_cons, Option.some.injEq]
    refine ⟨fun hb => ⟨Or.inl hb.symm, congrArg key hb.symm⟩, fun hb => ?_⟩
    rcases hb.1 with rfl | hmem
    · rfl
    · exact absurd (hb.2 ▸ List.mem_map_of_mem hmem) ha
  · rw [Function.update_of_ne hk, h.some_iff, List.mem_cons]
    refine and_congr_left fun hkey => ⟨Or.inr, fun hb => hb.resolve_left fun heq => ?_⟩
    exact hk (hkey.symm.trans (congrArg key heq))

/-- Putting a batch in, over the elements with the same keys. -/
theorem overwrite (h : Represents key m l) {new : List α} (hnew : (new.map key).Nodup) :
    Represents key (insertAll key m new) (l.filter (fun a => key a ∉ new.map key) ++ new) := by
  have hold : ∀ a, a ∈ l.filter (fun a => key a ∉ new.map key) ↔
      a ∈ l ∧ key a ∉ new.map key := by
    intro a
    rw [List.mem_filter, decide_eq_true_iff]
  constructor
  · rw [List.map_append, List.nodup_append]
    refine ⟨(List.Sublist.map key List.filter_sublist).nodup h.nodup, hnew, ?_⟩
    rintro k hk k' hk' rfl
    obtain ⟨a, ha, rfl⟩ := List.mem_map.1 hk
    exact ((hold a).1 ha).2 hk'
  · intro k a
    rw [List.mem_append, hold]
    by_cases hk : k ∈ new.map key
    · obtain ⟨b, hb, rfl⟩ := List.mem_map.1 hk
      rw [insertAll_of_mem hnew hb, Option.some.injEq]
      refine ⟨fun ha => ⟨Or.inr (ha ▸ hb), congrArg key ha.symm⟩, fun ha => ?_⟩
      rcases ha.1 with hmem | hmem
      · exact absurd (ha.2 ▸ hk) hmem.2
      · exact List.inj_on_of_nodup_map hnew hb hmem ha.2.symm
    · rw [insertAll_of_not_mem hk, h.some_iff]
      refine and_congr_left fun hkey => ⟨fun ha => Or.inl ⟨ha, hkey ▸ hk⟩, fun ha => ?_⟩
      rcases ha with ha | ha
      · exact ha.1
      · exact absurd (hkey ▸ List.mem_map_of_mem ha) hk

end Represents

end KeyedMap
