import Mathlib

/-!
# Least-recently-used maps

`Lru K V` is a map that holds at most `cap` entries.  Each entry carries the tick of its last
access, and a full map makes room for a new key by dropping the entry with the least tick.  Which
entries that leaves is said by `Represents`: the map is the list of its entries, the latest access
first, and every operation is one on that list.
-/

/-- A map that drops the entry whose last access is the longest ago. -/
structure Lru (K V : Type) where
  map : List (K × ℕ × V)
  tick : ℕ
  cap : ℕ

namespace Lru

variable {K V α : Type} [DecidableEq K]

/-! ## Operations -/

/-- An empty map for at least one entry. -/
def new (cap : ℕ) : Lru K V := ⟨[], 0, max cap 1⟩

/-- Look at the entry of a key and change it. -/
def access (c : Lru K V) (k : K) (f : V → α × V) : Option α × Lru K V :=
  ((c.map.find? fun e => e.1 = k).map fun e => (f e.2.2).1,
    { c with
      map := c.map.map fun e => if e.1 = k then (k, c.tick + 1, (f e.2.2).2) else e
      tick := c.tick + 1 })

/-- Look at the entry of a key. -/
def get (c : Lru K V) (k : K) : Option V × Lru K V := c.access k fun v => (v, v)

/-- The entries without the oldest. -/
def evict (c : Lru K V) : List (K × ℕ × V) :=
  match c.map.argmin fun e => e.2.1 with
  | some e => c.map.filter fun e' => e'.1 ≠ e.1
  | none => c.map

/-- Give a key a value, and make room for it if need be. -/
def insert (c : Lru K V) (k : K) (v : V) : Lru K V :=
  let map := if (∀ e ∈ c.map, e.1 ≠ k) ∧ c.cap ≤ c.map.length then c.evict else c.map
  { c with map := (map.filter fun e => e.1 ≠ k) ++ [(k, c.tick + 1, v)], tick := c.tick + 1 }

/-- Take a key out. -/
def remove (c : Lru K V) (k : K) : Option V × Lru K V :=
  ((c.map.find? fun e => e.1 = k).map (·.2.2),
    { c with map := c.map.filter fun e => e.1 ≠ k })

@[simp] theorem access_cap (c : Lru K V) (k : K) (f : V → α × V) :
    (c.access k f).2.cap = c.cap := rfl

@[simp] theorem insert_cap (c : Lru K V) (k : K) (v : V) : (c.insert k v).cap = c.cap := rfl

@[simp] theorem remove_cap (c : Lru K V) (k : K) : (c.remove k).2.cap = c.cap := rfl

/-! ## The list of entries by last access -/

/-- The value of a key in a list of entries. -/
def lookup (l : List (K × V)) (k : K) : Option V := (l.find? fun e => e.1 = k).map (·.2)

/-- An access moves an entry to the front. -/
def touch (l : List (K × V)) (k : K) (f : V → V) : List (K × V) :=
  match lookup l k with
  | some v => (k, f v) :: l.filter fun e => e.1 ≠ k
  | none => l

/-- An insertion puts an entry in front, and what is then too much goes from the end. -/
def push (cap : ℕ) (l : List (K × V)) (k : K) (v : V) : List (K × V) :=
  ((k, v) :: l.filter fun e => e.1 ≠ k).take cap

/-- The map holds the entries of the list, the latest access first. -/
structure Represents (c : Lru K V) (l : List (K × V)) : Prop where
  ticked : ∃ m : List (K × ℕ × V), m.Perm c.map ∧ m.Pairwise (fun e e' => e'.2.1 < e.2.1) ∧
    (∀ e ∈ m, e.2.1 ≤ c.tick) ∧ l = m.map fun e => (e.1, e.2.2)
  nodup : (l.map Prod.fst).Nodup
  length_le : l.length ≤ c.cap
  cap_pos : 0 < c.cap

omit [DecidableEq K] in
theorem represents_new (cap : ℕ) : (new cap : Lru K V).Represents [] where
  ticked := ⟨[], List.Perm.refl _, List.Pairwise.nil, by simp, rfl⟩
  nodup := List.nodup_nil
  length_le := Nat.zero_le _
  cap_pos := by simp [new]

section Lists

variable {l : List (K × V)} {k k' : K} {v : V}

theorem lookup_eq_some (hnodup : (l.map Prod.fst).Nodup) : lookup l k = some v ↔ (k, v) ∈ l := by
  unfold lookup
  constructor
  · intro h
    obtain ⟨e, he, rfl⟩ := Option.map_eq_some_iff.1 h
    obtain rfl : e.1 = k := by simpa using List.find?_some he
    exact List.mem_of_find?_eq_some he
  · intro hmem
    cases h : l.find? fun e => e.1 = k with
    | none =>
        have := List.find?_eq_none.1 h _ hmem
        simp at this
    | some e =>
        have hk : e.1 = k := by simpa using List.find?_some h
        have he := List.mem_of_find?_eq_some h
        have : e = (k, v) := List.inj_on_of_nodup_map hnodup he hmem hk
        rw [this]
        rfl

theorem lookup_eq_none : lookup l k = none ↔ ∀ e ∈ l, e.1 ≠ k := by
  simp [lookup, List.find?_eq_none]

theorem lookup_cons (e : K × V) :
    lookup (e :: l) k = if e.1 = k then some e.2 else lookup l k := by
  by_cases h : e.1 = k <;> simp [lookup, h]

theorem lookup_filter_ne (h : k ≠ k') :
    lookup (l.filter fun e => e.1 ≠ k') k = lookup l k := by
  induction l with
  | nil => rfl
  | cons e l ih =>
      by_cases he : e.1 = k'
      · rw [List.filter_cons_of_neg (by simpa using he), ih, lookup_cons,
          if_neg (by rw [he]; exact h.symm)]
      · rw [List.filter_cons_of_pos (by simpa using he), lookup_cons, lookup_cons, ih]

theorem lookup_touch (f : V → V) :
    lookup (touch l k f) k' = if k' = k then (lookup l k).map f else lookup l k' := by
  unfold touch
  cases hv : lookup l k with
  | none =>
      by_cases h : k' = k
      · simp [h, hv]
      · simp [h]
  | some v =>
      by_cases h : k' = k
      · simp [h, lookup_cons]
      · rw [if_neg h, lookup_cons, if_neg (Ne.symm h), lookup_filter_ne h]

theorem mem_touch {f : V → V} {e : K × V} (h : e ∈ touch l k f) :
    (e ∈ l ∧ e.1 ≠ k) ∨ ∃ v, lookup l k = some v ∧ e = (k, f v) := by
  unfold touch at h
  split at h
  · rename_i v hv
    rcases List.mem_cons.1 h with rfl | h
    · exact Or.inr ⟨v, hv, rfl⟩
    · obtain ⟨h, hne⟩ := List.mem_filter.1 h
      exact Or.inl ⟨h, by simpa using hne⟩
  · rename_i hnone
    exact Or.inl ⟨h, lookup_eq_none.1 hnone e h⟩

theorem length_filter_ne (hnodup : (l.map Prod.fst).Nodup) (hmem : (k, v) ∈ l) :
    (l.filter fun e => e.1 ≠ k).length + 1 = l.length := by
  induction l with
  | nil => cases hmem
  | cons e l ih =>
      obtain ⟨hhead, hrest⟩ := List.nodup_cons.1 hnodup
      by_cases he : e.1 = k
      · have hall : l.filter (fun e => e.1 ≠ k) = l := by
          refine List.filter_eq_self.2 fun e' he' => ?_
          simp only [ne_eq, decide_not, Bool.not_eq_true', decide_eq_false_iff_not]
          rintro rfl
          exact hhead (he ▸ List.mem_map_of_mem he')
        rw [List.filter_cons_of_neg (by simpa using he), hall, List.length_cons]
      · rw [List.filter_cons_of_pos (by simpa using he), List.length_cons, List.length_cons]
        have hmem' : (k, v) ∈ l := (List.mem_cons.1 hmem).resolve_left fun h => he (by rw [← h])
        rw [ih hrest hmem']

theorem nodup_touch (hnodup : (l.map Prod.fst).Nodup) (f : V → V) :
    ((touch l k f).map Prod.fst).Nodup := by
  unfold touch
  split
  · refine List.nodup_cons.2 ⟨?_, hnodup.sublist (List.Sublist.map _ List.filter_sublist)⟩
    simp
  · exact hnodup

theorem length_touch (hnodup : (l.map Prod.fst).Nodup) (f : V → V) :
    (touch l k f).length = l.length := by
  unfold touch
  split
  · rename_i v hv
    rw [List.length_cons, length_filter_ne hnodup ((lookup_eq_some hnodup).1 hv)]
  · rfl

theorem nodup_push {cap : ℕ} (hnodup : (l.map Prod.fst).Nodup) :
    ((push cap l k v).map Prod.fst).Nodup := by
  refine List.Nodup.sublist (List.Sublist.map _ (List.take_sublist _ _)) ?_
  refine List.nodup_cons.2 ⟨by simp, hnodup.sublist (List.Sublist.map _ List.filter_sublist)⟩

theorem mem_push {cap : ℕ} {e : K × V} (h : e ∈ push cap l k v) :
    e = (k, v) ∨ (e ∈ l ∧ e.1 ≠ k) := by
  rcases List.mem_cons.1 (List.mem_of_mem_take h) with h | h
  · exact Or.inl h
  · obtain ⟨h, hne⟩ := List.mem_filter.1 h
    exact Or.inr ⟨h, by simpa using hne⟩

theorem mem_push_self {cap : ℕ} (hcap : 0 < cap) : (k, v) ∈ push cap l k v := by
  obtain ⟨n, rfl⟩ := Nat.exists_eq_succ_of_ne_zero hcap.ne'
  simp [push]

end Lists

/-! ## Entries with their ticks -/

section Ticked

variable {m : List (K × ℕ × V)} {k : K} {t : ℕ} {v : V}

theorem map_update_of_absent (h : ∀ e ∈ m, e.1 ≠ k) (n : ℕ) (g : V → V) :
    m.map (fun e => if e.1 = k then (k, n, g e.2.2) else e) = m := by
  induction m with
  | nil => rfl
  | cons e m ih =>
      obtain ⟨hhead, hrest⟩ := List.forall_mem_cons.1 h
      rw [List.map_cons, if_neg hhead, ih hrest]

theorem filter_ne_of_absent (h : ∀ e ∈ m, e.1 ≠ k) : m.filter (fun e => e.1 ≠ k) = m :=
  List.filter_eq_self.2 fun e he => by simpa using h e he

/-- Changing the one entry of a key takes it out and puts it in anew. -/
theorem map_update_perm (hnodup : (m.map Prod.fst).Nodup) (hmem : (k, t, v) ∈ m) (n : ℕ)
    (g : V → V) :
    (m.map fun e => if e.1 = k then (k, n, g e.2.2) else e).Perm
      ((k, n, g v) :: m.filter fun e => e.1 ≠ k) := by
  induction m with
  | nil => cases hmem
  | cons e m ih =>
      obtain ⟨hhead, hrest⟩ := List.nodup_cons.1 hnodup
      rcases List.mem_cons.1 hmem with rfl | hmem
      · have habsent : ∀ e ∈ m, e.1 ≠ k := fun e he hk =>
          hhead (List.mem_map.2 ⟨e, he, hk⟩)
        rw [List.map_cons, if_pos rfl, map_update_of_absent habsent,
          List.filter_cons_of_neg (by simp), filter_ne_of_absent habsent]
      · have hne : e.1 ≠ k := by
          rintro rfl
          exact hhead (List.mem_map.2 ⟨_, hmem, rfl⟩)
        rw [List.map_cons, if_neg hne, List.filter_cons_of_pos (by simpa using hne)]
        exact ((ih hrest hmem).cons e).trans (List.Perm.swap _ _ _)

theorem map_filter_ne :
    (m.filter fun e => e.1 ≠ k).map (fun e => (e.1, e.2.2)) =
      (m.map fun e => (e.1, e.2.2)).filter fun e => e.1 ≠ k := by
  rw [List.filter_map]
  rfl

omit [DecidableEq K] in
/-- The entry with the least tick is the last. -/
theorem argmin_eq_getLast (hne : m ≠ []) (hticks : m.Pairwise fun e e' => e'.2.1 < e.2.1)
    {m' : List (K × ℕ × V)} (hperm : m.Perm m') :
    m'.argmin (fun e => e.2.1) = some (m.getLast hne) := by
  have hlast : m.getLast hne ∈ m' := hperm.mem_iff.1 (List.getLast_mem hne)
  cases hmin : m'.argmin fun e => e.2.1 with
  | none =>
      rw [List.argmin_eq_none.1 hmin] at hlast
      cases hlast
  | some e =>
      have hle := List.le_of_mem_argmin hlast hmin
      have he : e ∈ m := hperm.mem_iff.2 (List.argmin_mem hmin)
      rw [← List.dropLast_append_getLast hne] at he hticks
      rcases List.mem_append.1 he with he | he
      · have := (List.pairwise_append.1 hticks).2.2 e he _ (List.mem_singleton_self _)
        omega
      · rw [List.mem_singleton.1 he]

/-- Without the key of the last entry the others remain. -/
theorem filter_getLast (hne : m ≠ []) (hnodup : (m.map Prod.fst).Nodup) :
    m.filter (fun e => e.1 ≠ (m.getLast hne).1) = m.dropLast := by
  obtain ⟨pre, e, rfl⟩ : ∃ pre e, m = pre ++ [e] :=
    ⟨_, _, (List.dropLast_append_getLast hne).symm⟩
  simp only [List.getLast_append_singleton, List.dropLast_concat, List.filter_append]
  have habsent : ∀ e' ∈ pre, e'.1 ≠ e.1 := by
    rw [List.map_append, List.map_singleton] at hnodup
    intro e' he' heq
    exact (List.nodup_append.1 hnodup).2.2 _ (List.mem_map_of_mem he') _
      (List.mem_singleton_self _) heq
  rw [filter_ne_of_absent habsent, List.filter_cons_of_neg (by simp), List.filter_nil,
    List.append_nil]

end Ticked

/-! ## What the operations do -/

namespace Represents

variable {c : Lru K V} {l : List (K × V)} {k : K} {v : V}

omit [DecidableEq K] in
/-- The entries of the map are those of the list. -/
theorem mem_iff (h : c.Represents l) : (k, v) ∈ l ↔ ∃ t, (k, t, v) ∈ c.map := by
  obtain ⟨m, hperm, -, -, rfl⟩ := h.ticked
  simp only [List.mem_map, ← hperm.mem_iff, Prod.mk.injEq]
  constructor
  · rintro ⟨⟨k', t, v'⟩, hm, rfl, rfl⟩
    exact ⟨t, hm⟩
  · rintro ⟨t, hm⟩
    exact ⟨(k, t, v), hm, rfl, rfl⟩

omit [DecidableEq K] in
theorem length_eq (h : c.Represents l) : c.map.length = l.length := by
  obtain ⟨m, hperm, -, -, rfl⟩ := h.ticked
  rw [List.length_map, hperm.length_eq]

theorem find_eq (h : c.Represents l) :
    (c.map.find? fun e => e.1 = k).map (·.2.2) = lookup l k := by
  cases hfind : c.map.find? fun e => e.1 = k with
  | none =>
      symm
      rw [Option.map_none, lookup_eq_none]
      rintro ⟨k', v'⟩ he rfl
      obtain ⟨t, ht⟩ := h.mem_iff.1 he
      have := List.find?_eq_none.1 hfind _ ht
      simp at this
  | some e =>
      obtain ⟨k', t, v'⟩ := e
      obtain rfl : k' = k := by simpa using List.find?_some hfind
      symm
      exact (lookup_eq_some h.nodup).2 (h.mem_iff.2 ⟨t, List.mem_of_find?_eq_some hfind⟩)

/-- What an access returns. -/
theorem access_fst (h : c.Represents l) (f : V → α × V) :
    (c.access k f).1 = (lookup l k).map fun v => (f v).1 := by
  rw [← h.find_eq, Option.map_map]
  rfl

/-- An access moves the entry to the front. -/
theorem access_snd (h : c.Represents l) (f : V → α × V) :
    (c.access k f).2.Represents (touch l k fun v => (f v).2) := by
  refine ⟨?_, nodup_touch h.nodup _, ?_, h.cap_pos⟩
  swap
  · rw [length_touch h.nodup]
    exact h.length_le
  have hnodup := h.nodup
  obtain ⟨m, hperm, hticks, hle, rfl⟩ := h.ticked
  have hkeys : (m.map Prod.fst).Nodup := by
    rw [List.map_map] at hnodup
    exact hnodup
  have hmap := hperm.map fun e => if e.1 = k then (k, c.tick + 1, (f e.2.2).2) else e
  cases hv : lookup (m.map fun e => (e.1, e.2.2)) k with
  | none =>
      have habsent : ∀ e ∈ m, e.1 ≠ k := fun e he =>
        lookup_eq_none.1 hv _ (List.mem_map_of_mem he)
      rw [map_update_of_absent habsent _ fun v => (f v).2] at hmap
      refine ⟨m, hmap, hticks, fun e he => (hle e he).trans (Nat.le_succ _), ?_⟩
      simp only [touch, hv]
  | some v =>
      obtain ⟨⟨k', t, v'⟩, hmem, heq⟩ := List.mem_map.1 ((lookup_eq_some hnodup).1 hv)
      cases heq
      have hupdate := map_update_perm hkeys hmem (c.tick + 1) fun v => (f v).2
      refine ⟨_, hupdate.symm.trans hmap, ?_, ?_, ?_⟩
      · refine List.pairwise_cons.2 ⟨fun e he => ?_, hticks.sublist List.filter_sublist⟩
        exact Nat.lt_succ_of_le (hle e (List.mem_of_mem_filter he))
      · intro e he
        rcases List.mem_cons.1 he with rfl | he
        · exact le_refl _
        · exact (hle e (List.mem_of_mem_filter he)).trans (Nat.le_succ _)
      · simp only [touch, hv, List.map_cons, map_filter_ne]

/-- Taking a key out takes its entry out. -/
theorem remove_snd (h : c.Represents l) (k : K) :
    (c.remove k).2.Represents (l.filter fun e => e.1 ≠ k) := by
  refine ⟨?_, h.nodup.sublist (List.Sublist.map _ List.filter_sublist), ?_, h.cap_pos⟩
  · obtain ⟨m, hperm, hticks, hle, rfl⟩ := h.ticked
    exact ⟨m.filter fun e => e.1 ≠ k, hperm.filter _, hticks.sublist List.filter_sublist,
      fun e he => hle e (List.mem_of_mem_filter he), map_filter_ne.symm⟩
  · exact (List.length_filter_le _ _).trans h.length_le

/-- What taking a key out returns. -/
theorem remove_fst (h : c.Represents l) (k : K) : (c.remove k).1 = lookup l k := h.find_eq

/-- Without its oldest entry the map holds all but the last. -/
theorem evict_perm (h : c.Represents l) (hne : l ≠ []) :
    ∃ m : List (K × ℕ × V), m.Perm c.evict ∧ m.Pairwise (fun e e' => e'.2.1 < e.2.1) ∧
      (∀ e ∈ m, e.2.1 ≤ c.tick) ∧ l.dropLast = m.map fun e => (e.1, e.2.2) := by
  have hnodup := h.nodup
  obtain ⟨m, hperm, hticks, hle, rfl⟩ := h.ticked
  have hm : m ≠ [] := by
    rintro rfl
    exact hne rfl
  have hkeys : (m.map Prod.fst).Nodup := by
    rw [List.map_map] at hnodup
    exact hnodup
  refine ⟨m.dropLast, ?_, hticks.sublist (List.dropLast_sublist _),
    fun e he => hle e (List.mem_of_mem_dropLast he), by rw [List.map_dropLast]⟩
  rw [evict, argmin_eq_getLast hm hticks hperm, ← filter_getLast hm hkeys]
  exact hperm.filter _

/-- An insertion puts an entry in front and drops what is then too much. -/
theorem insert (h : c.Represents l) (k : K) (v : V) :
    (c.insert k v).Represents (push c.cap l k v) := by
  refine ⟨?_, nodup_push h.nodup, ?_, h.cap_pos⟩
  swap
  · exact List.length_take_le _ _
  have hpush : ∀ m : List (K × ℕ × V), m.Pairwise (fun e e' => e'.2.1 < e.2.1) →
      (∀ e ∈ m, e.2.1 ≤ c.tick) →
      ((k, c.tick + 1, v) :: m.filter fun e => e.1 ≠ k).Pairwise (fun e e' => e'.2.1 < e.2.1) ∧
        ∀ e ∈ (k, c.tick + 1, v) :: m.filter fun e => e.1 ≠ k, e.2.1 ≤ c.tick + 1 := by
    intro m hticks hle
    constructor
    · refine List.pairwise_cons.2 ⟨fun e he => ?_, hticks.sublist List.filter_sublist⟩
      exact Nat.lt_succ_of_le (hle e (List.mem_of_mem_filter he))
    · intro e he
      rcases List.mem_cons.1 he with rfl | he
      · exact le_refl _
      · exact (hle e (List.mem_of_mem_filter he)).trans (Nat.le_succ _)
  have hperm' : ∀ m m' : List (K × ℕ × V), m.Perm m' →
      ((k, c.tick + 1, v) :: m.filter fun e => e.1 ≠ k).Perm
        ((m'.filter fun e => e.1 ≠ k) ++ [(k, c.tick + 1, v)]) := fun m m' hm =>
    ((hm.filter _).cons _).trans (List.perm_append_singleton _ _).symm
  by_cases hfull : (∀ e ∈ c.map, e.1 ≠ k) ∧ c.cap ≤ c.map.length
  · -- the key is new and there is no room: the last entry goes
    have hlen : l.length = c.cap :=
      le_antisymm h.length_le (by rw [← h.length_eq]; exact hfull.2)
    have hne : l ≠ [] := by
      rintro rfl
      exact absurd hlen.symm h.cap_pos.ne'
    obtain ⟨m, hperm, hticks, hle, hl⟩ := h.evict_perm hne
    obtain ⟨hticks', hle'⟩ := hpush m hticks hle
    refine ⟨_, by rw [Lru.insert, if_pos hfull]; exact hperm' _ _ hperm, hticks', hle', ?_⟩
    have habsent : ∀ e ∈ l, e.1 ≠ k := by
      rintro ⟨k', v'⟩ he rfl
      obtain ⟨t, ht⟩ := h.mem_iff.1 he
      exact hfull.1 _ ht rfl
    rw [List.map_cons, map_filter_ne, ← hl, push,
      List.filter_eq_self.2 (fun e he => by simpa using habsent e he),
      List.filter_eq_self.2
        (fun e he => by simpa using habsent e (List.mem_of_mem_dropLast he)),
      ← hlen, List.length_pos_iff.2 hne |> Nat.succ_pred_eq_of_pos |>.symm, List.take_succ_cons,
      List.dropLast_eq_take]
    rfl
  · obtain ⟨m, hperm, hticks, hle, hl⟩ := h.ticked
    obtain ⟨hticks', hle'⟩ := hpush m hticks hle
    refine ⟨_, by rw [Lru.insert, if_neg hfull]; exact hperm' _ _ hperm, hticks', hle', ?_⟩
    rw [List.map_cons, map_filter_ne, ← hl, push, List.take_of_length_le]
    rw [List.length_cons]
    by_cases hmem : ∃ e ∈ l, e.1 = k
    · obtain ⟨⟨k', v'⟩, he, rfl⟩ := hmem
      rw [length_filter_ne h.nodup he]
      exact h.length_le
    · have hroom : ¬c.cap ≤ c.map.length := fun hcap => hfull ⟨by
        rintro ⟨k', t, v'⟩ he rfl
        exact hmem ⟨(k', v'), h.mem_iff.2 ⟨t, he⟩, rfl⟩, hcap⟩
      rw [h.length_eq] at hroom
      have := List.length_filter_le (fun e : K × V => decide (e.1 ≠ k)) l
      omega

end Represents

end Lru
