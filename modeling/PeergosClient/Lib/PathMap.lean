import Mathlib

/-!
# Trees addressed by path

A tree of named entries as the map from the paths of its entries to what stands there.  Putting
something at a path replaces whatever stood at the path or below it, and removing a path takes the
whole subtree.  The root itself has no entry.
-/

/-- What stands at each path. -/
structure PathMap (N V : Type) where
  entries : List (List N × V)
  nodup : (entries.map Prod.fst).Nodup

namespace PathMap

variable {N V : Type}

/-- The tree with nothing below its root. -/
def empty : PathMap N V := ⟨[], List.nodup_nil⟩

instance : EmptyCollection (PathMap N V) := ⟨empty⟩

variable [DecidableEq N]

/-- What stands at a path. -/
def get (m : PathMap N V) (p : List N) : Option V :=
  (m.entries.find? fun e => e.1 = p).map Prod.snd

/-- Take away what stands at a path or below it. -/
def remove (m : PathMap N V) (p : List N) : PathMap N V :=
  ⟨m.entries.filter fun e => ¬ p <+: e.1, m.nodup.sublist (List.filter_sublist.map _)⟩

theorem not_prefix_of_mem_remove {m : PathMap N V} {p : List N} {e : List N × V}
    (h : e ∈ (m.remove p).entries) : ¬ p <+: e.1 := by
  simpa using (List.mem_filter.1 h).2

/-- Put something at a path, in place of what stood there. -/
def put (m : PathMap N V) (p : List N) (v : V) : PathMap N V where
  entries := (m.remove p).entries ++ [(p, v)]
  nodup := by
    rw [List.map_append, List.nodup_append]
    refine ⟨(m.remove p).nodup, List.nodup_singleton p, ?_⟩
    intro a ha b hb hab
    obtain ⟨e, he, rfl⟩ := List.mem_map.1 ha
    rw [List.map_singleton, List.mem_singleton] at hb
    apply not_prefix_of_mem_remove he
    rw [hab, hb]

/-- The name of an entry right below `dir`. -/
def nameBelow (dir : List N) (p : List N) : Option N :=
  if p.dropLast = dir then p.getLast? else none

theorem nameBelow_eq_some {dir p : List N} {n : N} :
    nameBelow dir p = some n ↔ p = dir ++ [n] := by
  rcases List.eq_nil_or_concat p with rfl | ⟨q, a, rfl⟩
  · simp [nameBelow]
  · simp [nameBelow]

/-- The entries right below a path, with their names. -/
def children (m : PathMap N V) (dir : List N) : List (N × V) :=
  m.entries.filterMap fun e => (nameBelow dir e.1).map fun n => (n, e.2)

@[simp] theorem get_empty (p : List N) : (∅ : PathMap N V).get p = none := rfl

theorem get_eq_some {m : PathMap N V} {p : List N} {v : V} :
    m.get p = some v ↔ (p, v) ∈ m.entries := by
  constructor
  · intro h
    obtain ⟨e, he, rfl⟩ := Option.map_eq_some_iff.1 h
    have hp : e.1 = p := by simpa using List.find?_some he
    rw [← hp]
    exact List.mem_of_find?_eq_some he
  · intro h
    cases hf : m.entries.find? fun e => e.1 = p with
    | none =>
        have hne := List.find?_eq_none.1 hf _ h
        simp at hne
    | some e =>
        have hp : e.1 = p := by simpa using List.find?_some hf
        have he : e = (p, v) :=
          List.inj_on_of_nodup_map m.nodup (List.mem_of_find?_eq_some hf) h hp
        simp [get, hf, he]

theorem get_eq_none {m : PathMap N V} {p : List N} :
    m.get p = none ↔ ∀ e ∈ m.entries, e.1 ≠ p := by
  simp [get]

theorem get_remove (m : PathMap N V) (p q : List N) :
    (m.remove p).get q = if p <+: q then none else m.get q := by
  split
  · rename_i hpq
    rw [get_eq_none]
    rintro e he rfl
    exact not_prefix_of_mem_remove he hpq
  · rename_i hpq
    apply Option.ext
    intro v
    rw [get_eq_some, get_eq_some]
    simp [remove, hpq]

theorem get_put (m : PathMap N V) (p q : List N) (v : V) :
    (m.put p v).get q = if q = p then some v else if p <+: q then none else m.get q := by
  rw [← get_remove]
  split
  · rename_i hqp
    rw [hqp, get_eq_some]
    simp [put]
  · rename_i hqp
    apply Option.ext
    intro w
    rw [get_eq_some, get_eq_some]
    simp [put, hqp]

theorem get_put_self (m : PathMap N V) (p : List N) (v : V) : (m.put p v).get p = some v := by
  rw [get_put, if_pos rfl]

/-- What lies elsewhere in the tree stays. -/
theorem get_put_of_not_prefix (m : PathMap N V) {p q : List N} (v : V) (h : ¬ p <+: q) :
    (m.put p v).get q = m.get q := by
  have hne : q ≠ p := by
    rintro rfl
    exact h List.prefix_rfl
  rw [get_put, if_neg hne, if_neg h]

theorem mem_children {m : PathMap N V} {dir : List N} {n : N} {v : V} :
    (n, v) ∈ m.children dir ↔ m.get (dir ++ [n]) = some v := by
  simp [get_eq_some, children, nameBelow_eq_some]

/-- No two children share a name. -/
theorem nodup_children (m : PathMap N V) (dir : List N) :
    ((m.children dir).map Prod.fst).Nodup := by
  have hnodup : (m.children dir).Nodup := by
    refine List.Nodup.filterMap ?_ (List.Nodup.of_map _ m.nodup)
    rintro ⟨p, v⟩ ⟨q, w⟩ ⟨n, u⟩ hp hq
    simp only [Option.mem_def, Option.map_eq_some_iff, nameBelow_eq_some, Prod.mk.injEq] at hp hq
    obtain ⟨_, rfl, rfl, rfl⟩ := hp
    obtain ⟨_, rfl, rfl, rfl⟩ := hq
    rfl
  rw [List.nodup_map_iff_inj_on hnodup]
  rintro ⟨n, v⟩ hv ⟨n', w⟩ hw hn
  cases hn
  rw [mem_children] at hv hw
  rw [hv] at hw
  cases hw
  rfl

end PathMap
