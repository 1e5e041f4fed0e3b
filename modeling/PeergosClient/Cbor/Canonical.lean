import PeergosClient.Cbor.RoundTrip

/-!
# Canonical CBOR

A map is put together entry by entry and kept in the order of its keys, so that the bytes of a value
depend on the value only.  Every value that can be put together reads back from its bytes.
-/

namespace Peergos

namespace CborObject

/-! ## Maps that are built -/

theorem cborStringCmp_trans {a b c : String} (hab : cborStringCmp a b = .lt)
    (hbc : cborStringCmp b c = .lt) : cborStringCmp a c = .lt := by
  unfold cborStringCmp at *
  rw [Ordering.then_eq_lt] at *
  rcases hab with hab | ⟨hab, hab'⟩
  · rcases hbc with hbc | ⟨hbc, -⟩
    · exact .inl (Std.TransCmp.lt_trans hab hbc)
    · exact .inl (Std.TransCmp.lt_of_lt_of_eq hab hbc)
  · rcases hbc with hbc | ⟨hbc, hbc'⟩
    · exact .inl (Std.TransCmp.lt_of_eq_of_lt hab hbc)
    · exact .inr ⟨Std.TransCmp.eq_trans hab hbc, Std.TransCmp.lt_trans hab' hbc'⟩

theorem mem_mapInsert {k : String} {v : CborObject} {entries : List (String × CborObject)}
    {e : String × CborObject} (h : e ∈ mapInsert k v entries) : e.1 = k ∧ e.2 = v ∨ e ∈ entries := by
  induction entries with
  | nil => simp_all [mapInsert]
  | cons e' entries ih =>
      obtain ⟨k', v'⟩ := e'
      unfold mapInsert at h
      cases hcmp : cborStringCmp k k' with
      | lt =>
          rw [hcmp] at h
          rcases List.mem_cons.1 h with rfl | h
          · exact .inl ⟨rfl, rfl⟩
          · exact .inr h
      | eq =>
          rw [hcmp] at h
          rcases List.mem_cons.1 h with rfl | h
          · exact .inl ⟨(cborStringCmp_eq_iff.1 hcmp).symm, rfl⟩
          · exact .inr (List.mem_cons_of_mem _ h)
      | gt =>
          rw [hcmp] at h
          rcases List.mem_cons.1 h with rfl | h
          · exact .inr List.mem_cons_self
          · exact (ih h).imp id (List.mem_cons_of_mem _)

theorem keysAscend_mapInsert {k : String} {v : CborObject} {entries : List (String × CborObject)}
    (h : KeysAscend entries) : KeysAscend (mapInsert k v entries) := by
  induction entries with
  | nil => exact List.pairwise_singleton _ _
  | cons e entries ih =>
      obtain ⟨k', v'⟩ := e
      obtain ⟨hhead, htail⟩ := List.pairwise_cons.1 h
      unfold mapInsert
      cases hcmp : cborStringCmp k k' with
      | lt =>
          refine List.pairwise_cons.2 ⟨fun e he => ?_, h⟩
          rcases List.mem_cons.1 he with rfl | he
          · exact hcmp
          · exact cborStringCmp_trans hcmp (hhead e he)
      | eq => exact List.pairwise_cons.2 ⟨hhead, htail⟩
      | gt =>
          have hlt : cborStringCmp k' k = .lt := by
            unfold cborStringCmp at hcmp ⊢
            rw [Std.OrientedOrd.eq_swap (a := (utf16 k).length), Std.OrientedOrd.eq_swap (a := utf16 k),
              ← Ordering.swap_then, Ordering.swap_eq_gt] at hcmp
            exact hcmp
          refine List.pairwise_cons.2 ⟨fun e he => ?_, ih htail⟩
          rcases mem_mapInsert he with ⟨hk, -⟩ | he
          · rw [hk]
            exact hlt
          · exact hhead e he

theorem orderedEntries_iff {entries : List (String × CborObject)} :
    OrderedEntries entries ↔ ∀ e ∈ entries, e.2.Ordered := by
  induction entries with
  | nil => simp [OrderedEntries]
  | cons e entries ih =>
      obtain ⟨k, v⟩ := e
      simp [OrderedEntries, ih]

theorem ordered_mapInsert {k : String} {v : CborObject} {entries : List (String × CborObject)}
    (hv : v.Ordered) (h : (map entries).Ordered) : (map (mapInsert k v entries)).Ordered := by
  refine ⟨keysAscend_mapInsert h.1, orderedEntries_iff.2 fun e he => ?_⟩
  rcases mem_mapInsert he with ⟨-, he⟩ | he
  · rw [he]
    exact hv
  · exact orderedEntries_iff.1 h.2 e he

/-- A map put together from values that can be encoded can be encoded. -/
theorem ordered_build {entries : List (String × CborObject)} (h : ∀ e ∈ entries, e.2.Ordered) :
    (build entries).Ordered := by
  have hfold : ∀ (entries acc : List (String × CborObject)), (∀ e ∈ entries, e.2.Ordered) →
      (map acc).Ordered →
      (map (entries.foldl (fun m e => mapInsert e.1 e.2 m) acc)).Ordered := by
    intro entries
    induction entries with
    | nil => exact fun acc _ hacc => hacc
    | cons e entries ih =>
        intro acc hall hacc
        exact ih _ (fun e' he' => hall e' (List.mem_cons_of_mem _ he'))
          (ordered_mapInsert (hall e List.mem_cons_self) hacc)
  exact hfold entries [] h ⟨List.Pairwise.nil, trivial⟩

/-- A field of a map put together: the last value put under that name. -/
theorem get_build_append (entries : List (String × CborObject)) (k : String) (v : CborObject)
    (field : String) : get (build (entries ++ [(k, v)])) field =
      if field = k then some v else get (build entries) field := by
  simp only [build, List.foldl_append, List.foldl_cons, List.foldl_nil]
  exact get_map_mapInsert k v _ field

/-- A field of a map that was put under its name and no other. -/
theorem get_build_of_mem {puts : List (String × CborObject)} (hnodup : (puts.map Prod.fst).Nodup)
    {k : String} {v : CborObject} (h : (k, v) ∈ puts) : (build puts).get k = some v := by
  induction puts using List.reverseRecOn with
  | nil => cases h
  | append_singleton puts e ih =>
      obtain ⟨k', v'⟩ := e
      rw [List.map_append, List.map_singleton, List.nodup_append] at hnodup
      rw [get_build_append]
      rcases List.mem_append.1 h with h | h
      · have hne : k ≠ k' :=
          hnodup.2.2 k (List.mem_map.2 ⟨_, h, rfl⟩) k' (List.mem_singleton_self k')
        rw [if_neg hne]
        exact ih hnodup.1 h
      · cases List.mem_singleton.1 h
        exact if_pos rfl

theorem get_build_of_not_mem {puts : List (String × CborObject)} {k : String}
    (h : k ∉ puts.map Prod.fst) : (build puts).get k = none := by
  induction puts using List.reverseRecOn with
  | nil => rfl
  | append_singleton puts e ih =>
      obtain ⟨k', v'⟩ := e
      simp only [List.map_append, List.map_singleton, List.mem_append, List.mem_singleton,
        not_or] at h
      rw [get_build_append, if_neg h.2]
      exact ih h.1

/-! ## Values as they are put together -/

/-- The values there are: a map is an empty one into which entries have been put, one after
another. -/
inductive Built : CborObject → Prop
  | long (v : Int64) : Built (.long v)
  | boolean (b : Bool) : Built (.boolean b)
  | byteString (b : Bytes) : Built (.byteString b)
  | str (s : String) : Built (.str s)
  | merkleLink (cid : Bytes) : Built (.merkleLink cid)
  | null : Built .null
  | list (items : List CborObject) (h : ∀ v ∈ items, Built v) : Built (.list items)
  | map (puts : List (String × CborObject)) (h : ∀ e ∈ puts, Built e.2) : Built (build puts)

theorem orderedItems_iff {items : List CborObject} :
    OrderedItems items ↔ ∀ v ∈ items, v.Ordered := by
  induction items with
  | nil => simp [OrderedItems]
  | cons v items ih => simp [OrderedItems, ih]

theorem Built.ordered {v : CborObject} (h : Built v) : v.Ordered := by
  induction h with
  | long => trivial
  | boolean => trivial
  | byteString => trivial
  | str => trivial
  | merkleLink => trivial
  | null => trivial
  | list items _ ih => exact orderedItems_iff.2 ih
  | map puts _ ih => exact ordered_build ih

/-- An entry of a map with its keys in order is what reading its key gives. -/
theorem get_eq_some_iff {entries : List (String × CborObject)} (h : KeysAscend entries)
    {k : String} {v : CborObject} : get (.map entries) k = some v ↔ (k, v) ∈ entries := by
  rw [get, Option.map_eq_some_iff]
  constructor
  · rintro ⟨e, he, rfl⟩
    have hk : e.1 = k := by simpa using List.find?_some he
    rw [← hk]
    exact List.mem_of_find?_eq_some he
  · intro hmem
    induction entries with
    | nil => cases hmem
    | cons e entries ih =>
        obtain ⟨hhead, htail⟩ := List.pairwise_cons.1 h
        rcases List.mem_cons.1 hmem with rfl | hmem
        · exact ⟨(k, v), by simp, rfl⟩
        · have hlt := hhead _ hmem
          have hne : e.1 ≠ k := by
            intro heq
            rw [heq, cborStringCmp_eq_iff.2 rfl] at hlt
            cases hlt
          obtain ⟨e', he', hv⟩ := ih htail hmem
          exact ⟨e', by rw [List.find?_cons_of_neg (by simpa using hne)]; exact he', hv⟩

/-- Maps with their keys in order that read the same are the same. -/
theorem entries_ext {entries entries' : List (String × CborObject)} (h : KeysAscend entries)
    (h' : KeysAscend entries')
    (hget : ∀ k, get (.map entries) k = get (.map entries') k) : entries = entries' := by
  have hmem : ∀ e, e ∈ entries ↔ e ∈ entries' := by
    rintro ⟨k, v⟩
    rw [← get_eq_some_iff h, ← get_eq_some_iff h', hget]
  have hnodup : ∀ {l : List (String × CborObject)}, KeysAscend l → l.Nodup := by
    intro l hl
    refine List.Pairwise.imp ?_ hl
    rintro a b hab rfl
    rw [cborStringCmp_eq_iff.2 rfl] at hab
    cases hab
  refine List.Perm.eq_of_pairwise ?_ h h'
    ((List.perm_ext_iff_of_nodup (hnodup h) (hnodup h')).2 hmem)
  intro a b _ _ hab hba
  rw [cborStringCmp_swap hab] at hba
  cases hba

/-- A value put together reads back from its bytes. -/
theorem fromBytes_toBytes {v : CborObject} (hv : Built v) (hlen : v.toBytes.length < 2 ^ 63) :
    fromBytes v.toBytes = .ok v :=
  fromBytes_encoded hv.ordered hlen

/-- A value reads back from its bytes; maps that hold the same entries have the same bytes, in
whatever order the entries were put in; and the entries of a map are written in strictly ascending
order of their keys. -/
theorem toBytes_canonical :
    (∀ v : CborObject, Built v → v.toBytes.length < 2 ^ 63 → fromBytes v.toBytes = .ok v) ∧
    (∀ puts puts' : List (String × CborObject),
      (∀ k, (build puts).get k = (build puts').get k) →
        (build puts).toBytes = (build puts').toBytes) ∧
    ∀ entries : List (String × CborObject), Built (.map entries) →
      (map entries).toBytes = writeType 5 entries.length ++ entriesBytes entries ∧
        KeysAscend entries := by
  refine ⟨fun v hv hlen => fromBytes_toBytes hv hlen, fun puts puts' hget => ?_,
    fun entries h => ⟨rfl, h.ordered.1⟩⟩
  have hascend : ∀ l : List (String × CborObject),
      KeysAscend (l.foldl (fun m e => mapInsert e.1 e.2 m) []) := by
    intro l
    induction l using List.reverseRecOn with
    | nil => exact List.Pairwise.nil
    | append_singleton l e ih =>
        rw [List.foldl_append]
        exact keysAscend_mapInsert ih
  rw [build, build, entries_ext (hascend puts) (hascend puts') hget]

/-- A value with a nested map, a link and the least integer. -/
def sampleValue : CborObject :=
  .list [.long Int64.minValue, build [("b", .null), ("a", .merkleLink [1, 2])], .str "é"]

theorem toBytes_canonical_sampleValue : fromBytes sampleValue.toBytes = .ok sampleValue := by
  have hbuilt : Built sampleValue := by
    refine .list _ fun v hv => ?_
    simp only [List.mem_cons, List.not_mem_nil, or_false] at hv
    rcases hv with rfl | rfl | rfl
    · exact .long _
    · refine .map _ fun e he => ?_
      simp only [List.mem_cons, List.not_mem_nil, or_false] at he
      rcases he with rfl | rfl
      · exact .null
      · exact .merkleLink _
    · exact .str _
  exact toBytes_canonical.1 sampleValue hbuilt (by decide +kernel)

end CborObject

end Peergos
