import Mathlib

/-!
# Lists of entries sorted by a key

A finite map kept as a list: entries of a type `α` carry a key, and the list is strictly sorted by
a comparison of keys.  Such a list is determined by its members (`Sorted.ext`), so an operation is
specified by saying which entries the result holds; `upsert` and `erase` are the two updates, and
`lookup` the read.  `sortByKey` is the stable sort used to restore the order after an append.
-/

namespace Keyed

variable {α K : Type*} (cmp : K → K → Ordering) (key : α → K)

/-- Strictly sorted by key. -/
def Sorted (l : List α) : Prop := l.Pairwise fun a b => cmp (key a) (key b) = .lt

/-- Stable sort by key. -/
def sortByKey (l : List α) : List α :=
  l.insertionSort fun a b => cmp (key a) (key b) ≠ .gt

variable {cmp key}

theorem mem_sortByKey {l : List α} {x : α} : x ∈ sortByKey cmp key l ↔ x ∈ l :=
  List.mem_insertionSort _

theorem length_sortByKey (l : List α) : (sortByKey cmp key l).length = l.length :=
  List.length_insertionSort _ _

section Order

variable [Std.TransCmp cmp] [Std.LawfulEqCmp cmp]

omit [Std.LawfulEqCmp cmp] in
theorem Sorted.nodup_keys {l : List α} (h : Sorted cmp key l) : (l.map key).Nodup := by
  rw [List.Nodup, List.pairwise_map]
  refine List.Pairwise.imp ?_ h
  intro a b hab heq
  have hself : cmp (key b) (key b) = .eq := Std.ReflCmp.compare_self
  rw [heq, hself] at hab
  cases hab

omit [Std.LawfulEqCmp cmp] in
theorem Sorted.eq_of_key_eq {l : List α} (h : Sorted cmp key l) {a b : α} (ha : a ∈ l)
    (hb : b ∈ l) (hk : key a = key b) : a = b :=
  List.inj_on_of_nodup_map h.nodup_keys ha hb hk

/-- Two sorted lists with the same members are equal. -/
theorem Sorted.ext {l l' : List α} (h : Sorted cmp key l) (h' : Sorted cmp key l')
    (hmem : ∀ x, x ∈ l ↔ x ∈ l') : l = l' := by
  have hd : l.Nodup := List.Nodup.of_map key h.nodup_keys
  have hd' : l'.Nodup := List.Nodup.of_map key h'.nodup_keys
  refine List.Perm.eq_of_pairwise ?_ h h' ((List.perm_ext_iff_of_nodup hd hd').2 hmem)
  intro a b _ _ hab hba
  have hself : cmp (key a) (key a) = .eq := Std.ReflCmp.compare_self
  rw [Std.TransCmp.lt_trans hab hba] at hself
  cases hself

/-- Sorting entries with distinct keys gives a strictly sorted list. -/
theorem sorted_sortByKey {l : List α} (h : (l.map key).Nodup) :
    Sorted cmp key (sortByKey cmp key l) := by
  have : IsTrans α fun a b => cmp (key a) (key b) ≠ .gt :=
    ⟨fun a b c hab hbc => Ordering.ne_gt_iff_isLE.2 (Std.TransCmp.isLE_trans
      (Ordering.ne_gt_iff_isLE.1 hab) (Ordering.ne_gt_iff_isLE.1 hbc))⟩
  have : Std.Total fun a b : α => cmp (key a) (key b) ≠ .gt :=
    ⟨fun a b => by
      by_cases hab : cmp (key a) (key b) = .gt
      · right
        rw [Std.OrientedCmp.gt_iff_lt] at hab
        rw [hab]
        decide
      · exact Or.inl hab⟩
  have hle := List.pairwise_insertionSort (fun a b : α => cmp (key a) (key b) ≠ .gt) l
  have hnd : ((sortByKey cmp key l).map key).Nodup :=
    ((List.perm_insertionSort _ l).map key).nodup_iff.2 h
  rw [List.Nodup, List.pairwise_map] at hnd
  refine (hle.and hnd).imp ?_
  rintro a b ⟨hgt, hne⟩
  cases hc : cmp (key a) (key b) with
  | lt => rfl
  | eq => exact absurd (Std.LawfulEqCmp.eq_of_compare hc) hne
  | gt => exact absurd hc hgt

omit [Std.LawfulEqCmp cmp] [Std.TransCmp cmp] in
theorem Sorted.filter {l : List α} (h : Sorted cmp key l) (p : α → Bool) :
    Sorted cmp key (l.filter p) :=
  List.Pairwise.filter p h

/-! ## The two updates -/

variable [DecidableEq K]

/-- Drop the entry for `k`. -/
def erase (key : α → K) (k : K) (l : List α) : List α := l.filter fun x => key x ≠ k

/-- Add the entry `a`, replacing the one with its key. -/
def upsert (cmp : K → K → Ordering) (key : α → K) (a : α) (l : List α) : List α :=
  sortByKey cmp key (a :: erase key (key a) l)

/-- The entry for `k`. -/
def lookup (key : α → K) (k : K) (l : List α) : Option α := l.find? fun x => key x = k

omit [Std.LawfulEqCmp cmp] [Std.TransCmp cmp] in
@[simp] theorem mem_erase {k : K} {l : List α} {x : α} :
    x ∈ erase key k l ↔ x ∈ l ∧ key x ≠ k := by
  simp [erase]

omit [Std.LawfulEqCmp cmp] [Std.TransCmp cmp] in
@[simp] theorem mem_upsert {a : α} {l : List α} {x : α} :
    x ∈ upsert cmp key a l ↔ x = a ∨ (x ∈ l ∧ key x ≠ key a) := by
  rw [upsert, mem_sortByKey, List.mem_cons, mem_erase]

omit [Std.LawfulEqCmp cmp] [Std.TransCmp cmp] in
theorem sorted_erase {l : List α} (h : Sorted cmp key l) (k : K) :
    Sorted cmp key (erase key k l) :=
  h.filter _

theorem nodup_keys_cons_erase {l : List α} (h : (l.map key).Nodup) (a : α) :
    ((a :: erase key (key a) l).map key).Nodup := by
  rw [List.map_cons, List.nodup_cons]
  refine ⟨?_, List.Nodup.sublist (List.filter_sublist.map key) h⟩
  intro hmem
  obtain ⟨x, hx, hk⟩ := List.mem_map.1 hmem
  exact (mem_erase.1 hx).2 hk

theorem sorted_upsert {l : List α} (h : Sorted cmp key l) (a : α) :
    Sorted cmp key (upsert cmp key a l) :=
  sorted_sortByKey (nodup_keys_cons_erase h.nodup_keys a)

omit [Std.LawfulEqCmp cmp] [Std.TransCmp cmp] in
theorem erase_of_forall_ne {l : List α} {k : K} (h : ∀ x ∈ l, key x ≠ k) :
    erase key k l = l := by
  rw [erase, List.filter_eq_self]
  intro x hx
  simpa using h x hx

omit [Std.LawfulEqCmp cmp] [Std.TransCmp cmp] in
theorem lookup_eq_none {k : K} {l : List α} : lookup key k l = none ↔ ∀ x ∈ l, key x ≠ k := by
  simp [lookup, List.find?_eq_none]

omit [Std.LawfulEqCmp cmp] [Std.TransCmp cmp] in
theorem mem_of_lookup {k : K} {l : List α} {a : α} (h : lookup key k l = some a) :
    a ∈ l ∧ key a = k :=
  ⟨List.mem_of_find?_eq_some h, by simpa using List.find?_some h⟩

omit [Std.LawfulEqCmp cmp] in
theorem lookup_eq_some {k : K} {l : List α} (h : Sorted cmp key l) {a : α} :
    lookup key k l = some a ↔ a ∈ l ∧ key a = k := by
  refine ⟨mem_of_lookup, ?_⟩
  rintro ⟨ha, hk⟩
  cases hl : lookup key k l with
  | none => exact absurd hk (lookup_eq_none.1 hl a ha)
  | some b =>
      obtain ⟨hb, hkb⟩ := mem_of_lookup hl
      rw [h.eq_of_key_eq hb ha (hkb.trans hk.symm)]

omit [Std.LawfulEqCmp cmp] [Std.TransCmp cmp] in
theorem lookup_erase (k k' : K) (l : List α) :
    lookup key k' (erase key k l) = if k' = k then none else lookup key k' l := by
  by_cases hk : k' = k
  · subst hk
    rw [if_pos rfl, lookup_eq_none]
    intro x hx
    exact (mem_erase.1 hx).2
  · rw [if_neg hk, lookup, erase, List.find?_filter, lookup]
    congr 1
    funext x
    by_cases hx : key x = k'
    · simp [hx, hk]
    · simp [hx]

theorem lookup_upsert {l : List α} (h : Sorted cmp key l) (a : α) (k' : K) :
    lookup key k' (upsert cmp key a l) = if k' = key a then some a else lookup key k' l := by
  have hs := sorted_upsert h a
  by_cases hk : k' = key a
  · rw [if_pos hk, lookup_eq_some hs, mem_upsert]
    exact ⟨Or.inl rfl, hk.symm⟩
  · rw [if_neg hk]
    cases hl : lookup key k' l with
    | none =>
        rw [lookup_eq_none] at hl ⊢
        intro x hx
        rcases mem_upsert.1 hx with rfl | ⟨hx, -⟩
        · exact fun hc => hk hc.symm
        · exact hl x hx
    | some b =>
        rw [lookup_eq_some h] at hl
        rw [lookup_eq_some hs, mem_upsert]
        refine ⟨Or.inr ⟨hl.1, ?_⟩, hl.2⟩
        rw [hl.2]
        exact hk

omit [Std.LawfulEqCmp cmp] [Std.TransCmp cmp] in
theorem length_upsert {l : List α} {a : α} (ha : lookup key (key a) l = none) :
    (upsert cmp key a l).length = l.length + 1 := by
  rw [upsert, length_sortByKey, erase_of_forall_ne (lookup_eq_none.1 ha), List.length_cons]

/-- Replacing an entry in place by one with its key. -/
theorem set_eq_upsert {l : List α} (h : Sorted cmp key l) {j : ℕ} {b a : α} (hj : l[j]? = some b)
    (hk : key a = key b) : l.set j a = upsert cmp key a l := by
  obtain ⟨hlt, hb⟩ := List.getElem?_eq_some_iff.1 hj
  have hkeys : (l.set j a).map key = l.map key := by
    rw [List.map_set, hk, ← hb, ← List.getElem_map key (h := by simpa using hlt),
      List.set_getElem_self]
  have hs : Sorted cmp key (l.set j a) := by
    rw [Sorted] at h ⊢
    rw [← List.pairwise_map (f := key) (R := fun x y => cmp x y = .lt)] at h ⊢
    rw [hkeys]
    exact h
  refine hs.ext (sorted_upsert h a) ?_
  intro x
  rw [mem_upsert]
  have hmem : b ∈ l := hb ▸ List.getElem_mem hlt
  have ha : a ∈ l.set j a := List.mem_set hlt a
  constructor
  · intro hx
    by_cases hxa : x = a
    · exact Or.inl hxa
    · right
      rcases List.mem_or_eq_of_mem_set hx with hx' | hx'
      · refine ⟨hx', fun hkx => hxa ?_⟩
        exact hs.eq_of_key_eq hx ha hkx
      · exact absurd hx' hxa
  · rintro (rfl | ⟨hx, hne⟩)
    · exact ha
    · obtain ⟨i, hi, rfl⟩ := List.mem_iff_getElem.1 hx
      have hij : j ≠ i := by
        rintro rfl
        rw [hb, hk] at hne
        exact hne rfl
      have : (l.set j a)[i]? = some l[i] := by
        rw [List.getElem?_set_ne hij]
        exact List.getElem?_eq_getElem hi
      exact List.mem_of_getElem? this

theorem length_upsert_of_mem {l : List α} (h : Sorted cmp key l) {a b : α} (hb : b ∈ l)
    (hk : key a = key b) : (upsert cmp key a l).length = l.length := by
  obtain ⟨j, hj⟩ := List.mem_iff_getElem?.1 hb
  rw [← set_eq_upsert h hj hk, List.length_set]

theorem length_le_upsert {l : List α} (h : Sorted cmp key l) (a : α) :
    l.length ≤ (upsert cmp key a l).length := by
  cases hl : lookup key (key a) l with
  | none => rw [length_upsert hl]; omega
  | some b =>
      obtain ⟨hb, hk⟩ := mem_of_lookup hl
      rw [length_upsert_of_mem h hb hk.symm]

/-- Dropping an entry in place. -/
theorem eraseIdx_eq_erase {l : List α} (h : Sorted cmp key l) {j : ℕ} {b : α}
    (hj : l[j]? = some b) : l.eraseIdx j = erase key (key b) l := by
  obtain ⟨hlt, hb⟩ := List.getElem?_eq_some_iff.1 hj
  have hs : Sorted cmp key (l.eraseIdx j) := List.Pairwise.sublist (List.eraseIdx_sublist l j) h
  refine hs.ext (sorted_erase h _) ?_
  intro x
  rw [mem_erase, List.mem_eraseIdx_iff_getElem]
  have hnd := h.nodup_keys
  constructor
  · rintro ⟨i, hi, hij, rfl⟩
    refine ⟨List.getElem_mem hi, fun hk => hij ?_⟩
    rw [← hb] at hk
    have hi' : i < (l.map key).length := by simpa using hi
    have hj' : j < (l.map key).length := by simpa using hlt
    have hinj : (l.map key)[i] = (l.map key)[j] ↔ i = j := hnd.getElem_inj_iff
    exact hinj.1 (by simpa using hk)
  · rintro ⟨hx, hne⟩
    obtain ⟨i, hi, rfl⟩ := List.mem_iff_getElem.1 hx
    refine ⟨i, hi, ?_, rfl⟩
    rintro rfl
    exact hne (by rw [hb])

theorem length_erase_of_mem {l : List α} (h : Sorted cmp key l) {b : α} (hb : b ∈ l) :
    (erase key (key b) l).length + 1 = l.length := by
  obtain ⟨j, hj⟩ := List.mem_iff_getElem?.1 hb
  obtain ⟨hlt, -⟩ := List.getElem?_eq_some_iff.1 hj
  rw [← eraseIdx_eq_erase h hj, List.length_eraseIdx_of_lt hlt]
  omega

/-- Appending an entry with a new key and sorting again. -/
theorem sortByKey_append_singleton {l : List α} (h : Sorted cmp key l) {a : α}
    (ha : lookup key (key a) l = none) : sortByKey cmp key (l ++ [a]) = upsert cmp key a l := by
  have hne := lookup_eq_none.1 ha
  have hnd : ((l ++ [a]).map key).Nodup := by
    rw [List.map_append, List.nodup_append]
    refine ⟨h.nodup_keys, by simp, ?_⟩
    intro x hx y hy
    obtain ⟨z, hz, rfl⟩ := List.mem_map.1 hx
    simp only [List.map_cons, List.map_nil, List.mem_singleton] at hy
    rw [hy]
    exact hne z hz
  refine (sorted_sortByKey hnd).ext (sorted_upsert h a) ?_
  intro x
  rw [mem_sortByKey, mem_upsert, List.mem_append, List.mem_singleton]
  constructor
  · rintro (hx | rfl)
    · exact Or.inr ⟨hx, hne x hx⟩
    · exact Or.inl rfl
  · rintro (rfl | ⟨hx, -⟩)
    · exact Or.inr rfl
    · exact Or.inl hx

end Order

end Keyed
