import Mathlib.Data.List.Nodup
import Mathlib.Data.List.Perm.Basic

/-!
# Maps in the order of the last write

A map as a list of entries without two for one key.  A write puts its entry at the end, and takes
the one before out, so the entries stand in the order in which they were written last.
-/

/-- A map, listed in the order of the last write to each key. -/
structure InsertionMap (K V : Type*) where
  entries : List (K × V)
  nodup : (entries.map Prod.fst).Nodup
  deriving DecidableEq

namespace InsertionMap

variable {K V : Type*}

/-- The map with nothing in it. -/
def empty : InsertionMap K V := ⟨[], List.nodup_nil⟩

instance : EmptyCollection (InsertionMap K V) := ⟨empty⟩

/-- The keys, in order. -/
def keys (m : InsertionMap K V) : List K := m.entries.map Prod.fst

/-- The values, in order. -/
def values (m : InsertionMap K V) : List V := m.entries.map Prod.snd

variable [DecidableEq K]

/-- The value of a key. -/
def get (m : InsertionMap K V) (k : K) : Option V :=
  (m.entries.find? fun e => e.1 = k).map Prod.snd

/-- The map without a key. -/
def erase (m : InsertionMap K V) (k : K) : InsertionMap K V :=
  ⟨m.entries.filter fun e => e.1 ≠ k, (List.filter_sublist.map _).nodup m.nodup⟩

/-- The map with a value written for a key. -/
def insert (m : InsertionMap K V) (k : K) (v : V) : InsertionMap K V where
  entries := (m.erase k).entries ++ [(k, v)]
  nodup := by
    rw [List.map_append, List.map_singleton, List.nodup_append]
    refine ⟨(m.erase k).nodup, by simp, ?_⟩
    intro a ha b hb
    rw [List.mem_singleton.1 hb]
    obtain ⟨e, he, rfl⟩ := List.mem_map.1 ha
    simpa [erase] using (List.mem_filter.1 he).2

variable {m : InsertionMap K V} {k k' : K} {v v' : V}

@[simp] theorem get_empty (k : K) : (∅ : InsertionMap K V).get k = none := rfl

/-- A map is known by its entries. -/
theorem get_eq_some : m.get k = some v ↔ (k, v) ∈ m.entries := by
  rw [get, Option.map_eq_some_iff]
  constructor
  · rintro ⟨⟨k', v'⟩, hfind, rfl⟩
    have hkey := List.find?_some hfind
    rw [decide_eq_true_iff] at hkey
    subst hkey
    exact List.mem_of_find?_eq_some hfind
  · intro hmem
    cases hfind : m.entries.find? fun e => e.1 = k with
    | none => simpa using List.find?_eq_none.1 hfind _ hmem
    | some e =>
        have hkey := List.find?_some hfind
        rw [decide_eq_true_iff] at hkey
        have heq := List.inj_on_of_nodup_map m.nodup (List.mem_of_find?_eq_some hfind) hmem hkey
        exact ⟨e, rfl, by rw [heq]⟩

theorem get_eq_none : m.get k = none ↔ ∀ v, (k, v) ∉ m.entries := by
  rw [Option.eq_none_iff_forall_ne_some]
  exact forall_congr' fun v => not_congr get_eq_some

theorem mem_keys : k ∈ m.keys ↔ m.get k ≠ none := by
  rw [keys, List.mem_map, Ne, get_eq_none]
  constructor
  · rintro ⟨⟨k', v⟩, hmem, rfl⟩ hnone
    exact hnone v hmem
  · intro h
    push Not at h
    obtain ⟨v, hv⟩ := h
    exact ⟨(k, v), hv, rfl⟩

theorem mem_values : v ∈ m.values ↔ ∃ k, m.get k = some v := by
  rw [values, List.mem_map]
  constructor
  · rintro ⟨⟨k, v'⟩, hmem, rfl⟩
    exact ⟨k, get_eq_some.2 hmem⟩
  · rintro ⟨k, hk⟩
    exact ⟨(k, v), get_eq_some.1 hk, rfl⟩

theorem get_erase (m : InsertionMap K V) (k k' : K) :
    (m.erase k).get k' = if k' = k then none else m.get k' := by
  refine Option.ext fun v => ?_
  rw [get_eq_some]
  by_cases h : k' = k <;> simp [erase, h, get_eq_some]

theorem get_insert (m : InsertionMap K V) (k k' : K) (v : V) :
    (m.insert k v).get k' = if k' = k then some v else m.get k' := by
  refine Option.ext fun v' => ?_
  rw [get_eq_some]
  by_cases h : k' = k
  · simp [insert, erase, h, eq_comm]
  · simp [insert, erase, h, get_eq_some]

@[simp] theorem get_insert_self (m : InsertionMap K V) (k : K) (v : V) :
    (m.insert k v).get k = some v := by
  rw [get_insert, if_pos rfl]

theorem get_insert_of_ne (m : InsertionMap K V) (h : k' ≠ k) (v : V) :
    (m.insert k v).get k' = m.get k' := by
  rw [get_insert, if_neg h]

@[simp] theorem get_erase_self (m : InsertionMap K V) (k : K) : (m.erase k).get k = none := by
  rw [get_erase, if_pos rfl]

theorem get_erase_of_ne (m : InsertionMap K V) (h : k' ≠ k) : (m.erase k).get k' = m.get k' := by
  rw [get_erase, if_neg h]

/-- The map without the keys for which `p` holds. -/
def eraseWhere (m : InsertionMap K V) (p : K → Bool) : InsertionMap K V :=
  ⟨m.entries.filter fun e => !p e.1, (List.filter_sublist.map _).nodup m.nodup⟩

theorem get_eraseWhere (m : InsertionMap K V) (p : K → Bool) (k : K) :
    (m.eraseWhere p).get k = if p k then none else m.get k := by
  refine Option.ext fun v => ?_
  rw [get_eq_some]
  by_cases h : p k = true <;> simp [eraseWhere, h, get_eq_some]

end InsertionMap
