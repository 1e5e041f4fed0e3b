import PeergosClient.Lib.Keyed

/-!
# Finite maps in key order

A finite map as its entries in strictly increasing order of their keys.  Two maps with the same
`get` are equal (`SortedMap.ext_get`), so an operation is specified by what `get` returns after it.
-/

/-- A finite map: its entries, sorted by key. -/
structure SortedMap (K V : Type) [Ord K] where
  entries : List (K × V)
  sorted : Keyed.Sorted compare Prod.fst entries
  deriving DecidableEq

namespace SortedMap

variable {K V W : Type} [Ord K]

/-- The map with no entries. -/
def empty : SortedMap K V := ⟨[], List.Pairwise.nil⟩

instance : EmptyCollection (SortedMap K V) := ⟨empty⟩

instance : Inhabited (SortedMap K V) := ⟨empty⟩

/-- The values, in the order of their keys. -/
def values (m : SortedMap K V) : List V := m.entries.map Prod.snd

/-- The keys, in order. -/
def keys (m : SortedMap K V) : List K := m.entries.map Prod.fst

variable [DecidableEq K]

/-- The value at a key. -/
def get (m : SortedMap K V) (k : K) : Option V := (Keyed.lookup Prod.fst k m.entries).map Prod.snd

/-- The key has a value. -/
def contains (m : SortedMap K V) (k : K) : Bool := (m.get k).isSome

@[simp] theorem get_empty (k : K) : (∅ : SortedMap K V).get k = none := rfl

theorem contains_eq_true {m : SortedMap K V} {k : K} : m.contains k = true ↔ ∃ v, m.get k = some v :=
  Option.isSome_iff_exists

theorem contains_eq_false {m : SortedMap K V} {k : K} : m.contains k = false ↔ m.get k = none := by
  rw [contains, Option.isSome_eq_false_iff, Option.isNone_iff_eq_none]

variable [Std.TransOrd K] [Std.LawfulEqOrd K]

/-- Set the value at a key. -/
def insert (m : SortedMap K V) (k : K) (v : V) : SortedMap K V :=
  ⟨Keyed.upsert compare Prod.fst (k, v) m.entries, Keyed.sorted_upsert m.sorted _⟩

/-- Drop a key. -/
def erase (m : SortedMap K V) (k : K) : SortedMap K V :=
  ⟨Keyed.erase Prod.fst k m.entries, Keyed.sorted_erase m.sorted k⟩

omit [Std.LawfulEqOrd K] in
theorem mem_entries {m : SortedMap K V} {k : K} {v : V} :
    (k, v) ∈ m.entries ↔ m.get k = some v := by
  rw [get, Option.map_eq_some_iff]
  constructor
  · intro h
    exact ⟨(k, v), (Keyed.lookup_eq_some m.sorted).2 ⟨h, rfl⟩, rfl⟩
  · rintro ⟨⟨k', v'⟩, h, rfl⟩
    obtain ⟨hmem, rfl⟩ := (Keyed.lookup_eq_some m.sorted).1 h
    exact hmem

omit [Std.LawfulEqOrd K] in
theorem mem_values {m : SortedMap K V} {v : V} : v ∈ m.values ↔ ∃ k, m.get k = some v := by
  rw [values, List.mem_map]
  constructor
  · rintro ⟨⟨k, v'⟩, h, rfl⟩
    exact ⟨k, mem_entries.1 h⟩
  · rintro ⟨k, h⟩
    exact ⟨(k, v), mem_entries.2 h, rfl⟩

theorem get_insert (m : SortedMap K V) (k k' : K) (v : V) :
    (m.insert k v).get k' = if k' = k then some v else m.get k' := by
  rw [get, insert, Keyed.lookup_upsert m.sorted]
  by_cases h : k' = k
  · rw [if_pos h, if_pos h]
    rfl
  · rw [if_neg h, if_neg h]
    rfl

@[simp] theorem get_insert_self (m : SortedMap K V) (k : K) (v : V) :
    (m.insert k v).get k = some v := by
  rw [get_insert, if_pos rfl]

theorem get_insert_of_ne (m : SortedMap K V) {k k' : K} (h : k' ≠ k) (v : V) :
    (m.insert k v).get k' = m.get k' := by
  rw [get_insert, if_neg h]

/-- Maps with the same values are equal. -/
theorem ext_get {m m' : SortedMap K V} (h : ∀ k, m.get k = m'.get k) : m = m' := by
  obtain ⟨l, hl⟩ := m
  obtain ⟨l', hl'⟩ := m'
  have hmem : ∀ e, e ∈ l ↔ e ∈ l' := by
    rintro ⟨k, v⟩
    have hk : (k, v) ∈ l ↔ (⟨l, hl⟩ : SortedMap K V).get k = some v := mem_entries (m := ⟨l, hl⟩)
    rw [hk, h k]
    exact (mem_entries (m := ⟨l', hl'⟩)).symm
  have := hl.ext hl' hmem
  subst this
  rfl

/-- Entries of different keys put in one after another: each is found, and what was there before is
where none of them is. -/
theorem get_foldl_insert {l : List (K × V)} (hnodup : (l.map Prod.fst).Nodup)
    (m : SortedMap K V) (k : K) :
    (l.foldl (fun m e => m.insert e.1 e.2) m).get k =
      ((Keyed.lookup Prod.fst k l).map Prod.snd).or (m.get k) := by
  induction l generalizing m with
  | nil => rfl
  | cons e l ih =>
      rw [List.map_cons, List.nodup_cons] at hnodup
      rw [List.foldl_cons, ih hnodup.2, get_insert]
      by_cases hk : k = e.1
      · subst hk
        have hnone : Keyed.lookup Prod.fst e.1 l = none :=
          Keyed.lookup_eq_none.2 fun x hx heq => hnodup.1 (List.mem_map.2 ⟨x, hx, heq⟩)
        rw [hnone, if_pos rfl]
        simp [Keyed.lookup]
      · have hne : e.1 ≠ k := fun h => hk h.symm
        simp [hk, hne, Keyed.lookup]

/-- A map is its entries put into the empty one. -/
theorem foldl_insert_entries (m : SortedMap K V) :
    m.entries.foldl (fun m e => m.insert e.1 e.2) ∅ = m := by
  apply ext_get
  intro k
  rw [get_foldl_insert m.sorted.nodup_keys, get_empty, Option.or_none]
  rfl

/-! ## Maps that develop entry by entry -/

/-- Every entry of the first map has one in the second, related by `R`. -/
def Relates (R : V → V → Prop) (m m' : SortedMap K V) : Prop :=
  ∀ k v, m.get k = some v → ∃ v', m'.get k = some v' ∧ R v v'

namespace Relates

variable {R : V → V → Prop} {m m' m'' : SortedMap K V}

omit [Std.TransOrd K] [Std.LawfulEqOrd K] in
theorem refl [Std.Refl R] (m : SortedMap K V) : Relates R m m :=
  fun _ v h => ⟨v, h, Std.Refl.refl v⟩

omit [Std.TransOrd K] [Std.LawfulEqOrd K] in
theorem trans [IsTrans V R] (h : Relates R m m') (h' : Relates R m' m'') : Relates R m m'' := by
  intro k v hv
  obtain ⟨v', hv', hR⟩ := h k v hv
  obtain ⟨v'', hv'', hR'⟩ := h' k v' hv'
  exact ⟨v'', hv'', IsTrans.trans _ _ _ hR hR'⟩

/-- Replacing a value by one it is related to. -/
theorem insert [Std.Refl R] {k : K} {v v' : V} (hv : m.get k = some v) (hR : R v v') :
    Relates R m (m.insert k v') := by
  intro k' w hw
  rw [get_insert]
  by_cases hk : k' = k
  · subst hk
    rw [hv] at hw
    cases hw
    exact ⟨v', if_pos rfl, hR⟩
  · exact ⟨w, by rw [if_neg hk, hw], Std.Refl.refl w⟩

/-- Adding an entry. -/
theorem insert_new [Std.Refl R] {k : K} (v : V) (hk : m.get k = none) :
    Relates R m (m.insert k v) := by
  intro k' w hw
  have hne : k' ≠ k := by
    rintro rfl
    rw [hk] at hw
    cases hw
  exact ⟨w, by rw [get_insert_of_ne _ hne, hw], Std.Refl.refl w⟩

end Relates

end SortedMap
