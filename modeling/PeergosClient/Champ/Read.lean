import PeergosClient.Champ.Tree

/-!
# Reading a canonical tree

On a canonical tree the read path of the source answers from the map: `get` returns the value of
the key, `size` the number of entries, and `collectMappings` every entry once.  The recursion bound
only has to cover the levels that are left.
-/

namespace Peergos

namespace Champ

/-- No entry stores an explicit null, which would read back as no value. -/
def NoNull (es : List KeyElement) : Prop := ∀ m ∈ es, m.value ≠ some .null

theorem NoNull.inSlot {es : List KeyElement} (h : NoNull es) (H : KeyHasher) (d i : ℕ) :
    NoNull (inSlot H d i es) := fun m hm => h m (mem_inSlot.1 hm).1

/-- The value a map gives a key. -/
def valueOf (es : List KeyElement) (k : Bytes) : Option CborObject :=
  (Keyed.lookup KeyElement.key k es).bind KeyElement.value

theorem valueOf_inSlot (H : KeyHasher) (d : ℕ) (es : List KeyElement) (k : Bytes) :
    valueOf (inSlot H d (slotOf H d k) es) k = valueOf es k := by
  rw [valueOf, lookup_inSlot, valueOf]

section Read

variable {σ : Type} {S : ContentAddressedStorage σ} {sha256 : Bytes → Bytes} {H : KeyHasher}
  {bat : Option BatId} {s : σ}

/-- Every payload of a canonical node survives its CBOR form. -/
theorem Canonical.payloadReadable {d : ℕ} {c : Champ} {es : List KeyElement}
    (h : Canonical S sha256 H bat s d c es) (hn : NoNull es) :
    ∀ p ∈ c.contents, PayloadReadable p := by
  obtain ⟨-, f, rfl, hf⟩ := canonical_iff.1 h
  intro p hp
  obtain ⟨i, hi, hpi⟩ := mem_contents_ofSlots hp
  rcases hf i hi with ⟨-, hsl⟩ | ⟨-, cid, child, hsl, hst, -⟩
  · rw [hsl] at hpi
    cases hms : inSlot H d i es with
    | nil => rw [hms] at hpi; rcases hpi with h | h <;> cases h
    | cons m ms =>
        rw [hms] at hpi
        rcases hpi with h | h
        · cases h
          rw [← hms]
          exact hn.inSlot H d i
        · cases h
  · rw [hsl] at hpi
    rcases hpi with h | h
    · cases h
    · cases h
      exact hst.cast

/-- A canonical node reads back from its block. -/
theorem Canonical.fromCbor_toCbor {d : ℕ} {c : Champ} {es : List KeyElement}
    (h : Canonical S sha256 H bat s d c es) (hn : NoNull es) (hbat : BatReadable bat) :
    fromCbor c.toCbor = .ok c :=
  Champ.fromCbor_toCbor (h.payloadReadable hn) (h.mirrorBat ▸ hbat)

theorem loadLink_of_stored {d : ℕ} {c : Champ} {es : List KeyElement} {cid : Cid}
    (h : Canonical S sha256 H bat s d c es) (hn : NoNull es) (hbat : BatReadable bat)
    (hst : S.Stored sha256 s cid c.toCbor) : loadLink S s cid = .ok c := by
  unfold loadLink
  rw [hst.1, ok_bind]
  exact h.fromCbor_toCbor hn hbat

/-! ## Lookup -/

theorem get_eq {fuel d : ℕ} {c : Champ} {es : List KeyElement}
    (h : Canonical S sha256 H bat s d c es) (hn : NoNull es) (hbat : BatReadable bat)
    (hfuel : hashCodeLength ≤ fuel + d) (k : Bytes) :
    get S fuel s c k (H k) d bitWidth = .ok (valueOf es k) := by
  induction fuel generalizing d c es with
  | zero =>
      have := h.level_lt
      omega
  | succ fuel ih =>
      obtain ⟨-, f, rfl, hf⟩ := canonical_iff.1 h
      have hi : slotOf H d k < slots := slotOf_lt H d k
      rw [← valueOf_inSlot H d es k]
      unfold get
      simp only
      rw [show mask (H k) d bitWidth = slotOf H d k from rfl, bitGet_dataMap hi, bitGet_nodeMap hi]
      rcases hf _ hi with ⟨-, hsl⟩ | ⟨-, cid, child, hsl, hst, hchild⟩
      · cases hms : inSlot H d (slotOf H d k) es with
        | nil =>
            rw [hms] at hsl
            rw [hsl]
            rfl
        | cons m ms =>
            rw [hms] at hsl
            rw [vecGet_bucket hi hsl, hsl]
            rfl
      · have hn' := hn.inSlot H d (slotOf H d k)
        rw [hsl]
        simp only [Slot.front, Slot.back, Option.isSome_none, Option.isSome_some, if_true,
          Bool.false_eq_true, if_false, getChild]
        rw [childLink_shard hsl, ok_bind, hst.1, ok_bind]
        simp only
        rw [hchild.fromCbor_toCbor hn' hbat]
        exact ih hchild hn' (by omega)

/-! ## Size and listing -/

/-- The entries of a slot that are not inline. -/
def below (H : KeyHasher) (d : ℕ) (es : List KeyElement) (f : ℕ → Slot) (i : ℕ) :
    List KeyElement :=
  if (f i).back.isSome then inSlot H d i es else []

theorem mappings_append_below {d : ℕ} {es : List KeyElement} {f : ℕ → Slot} {i : ℕ}
    (h : SlotHolds S sha256 H bat s (d + 1) (f i) (inSlot H d i es)) :
    (f i).mappings ++ below H d es f i = inSlot H d i es := by
  rcases h with ⟨-, hsl⟩ | ⟨-, cid, child, hsl, -, -⟩
  · rw [below, hsl]
    simp
  · rw [below, hsl]
    rfl

/-- A map is put together from its slots. -/
theorem flatMap_inSlot_perm {d : ℕ} {es : List KeyElement} (h : SortedEntries es) :
    ((List.range slots).flatMap fun i => inSlot H d i es).Perm es := by
  have hnd : es.Nodup := List.Nodup.of_map KeyElement.key h.nodup_keys
  refine (List.perm_ext_iff_of_nodup ?_ hnd).2 ?_
  · refine List.nodup_flatMap.2 ⟨fun i _ => hnd.filter _, ?_⟩
    refine List.Pairwise.imp ?_ (List.nodup_range (n := slots))
    intro i j hij m hmi hmj
    exact hij ((mem_inSlot.1 hmi).2.symm.trans (mem_inSlot.1 hmj).2)
  · intro m
    rw [List.mem_flatMap]
    constructor
    · rintro ⟨i, -, hm⟩
      exact (mem_inSlot.1 hm).1
    · intro hm
      exact ⟨slotOf H d m.key, List.mem_range.2 (slotOf_lt H d m.key), mem_inSlot.2 ⟨hm, rfl⟩⟩

theorem perm_slots {d : ℕ} {es : List KeyElement} {f : ℕ → Slot} (h : SortedEntries es)
    (hf : ∀ i < slots, SlotHolds S sha256 H bat s (d + 1) (f i) (inSlot H d i es)) :
    (((List.range slots).flatMap fun i => (f i).mappings) ++
      (List.range slots).reverse.flatMap (below H d es f)).Perm es := by
  have hrev : ((List.range slots).reverse.flatMap (below H d es f)).Perm
      ((List.range slots).flatMap (below H d es f)) :=
    (List.reverse_perm _).flatMap_right _
  refine (hrev.append_left _).trans ?_
  refine (List.flatMap_append_perm (List.range slots) _ _).trans ?_
  rw [List.flatMap_congr fun i hi => mappings_append_below (hf i (List.mem_range.1 hi))]
  exact flatMap_inSlot_perm h

/-- A loop over the payloads of some slots, where `part i` is what slot `i` adds to the entries
accounted for. -/
theorem foldlM_slots {β : Type} {f : ℕ → Slot} (step : β → Payload → Result β)
    (side : Slot → Option Payload) (part : ℕ → List KeyElement)
    (R : List KeyElement → β → Prop) {l : List ℕ}
    (hnone : ∀ i ∈ l, side (f i) = none → part i = [])
    (hstep : ∀ i ∈ l, ∀ p, side (f i) = some p → ∀ done b, R done b →
      ∃ b', step b p = .ok b' ∧ R (done ++ part i) b') :
    ∀ done b, R done b → ∃ b', (l.filterMap fun i => side (f i)).foldlM step b = .ok b' ∧
      R (done ++ l.flatMap part) b' := by
  induction l with
  | nil =>
      intro done b hb
      exact ⟨b, rfl, by simpa using hb⟩
  | cons i l ih =>
      intro done b hb
      have ih' := ih (fun j hj => hnone j (List.mem_cons_of_mem _ hj))
        (fun j hj => hstep j (List.mem_cons_of_mem _ hj))
      rw [List.filterMap_cons, List.flatMap_cons]
      cases hp : side (f i) with
      | none =>
          rw [hnone i (List.mem_cons_self ..) hp, List.nil_append]
          exact ih' done b hb
      | some p =>
          obtain ⟨b', hb', hR⟩ := hstep i (List.mem_cons_self ..) p hp done b hb
          simp only [List.foldlM_cons, hb', ok_bind]
          rw [← List.append_assoc]
          exact ih' _ b' hR

theorem front_eq_none {sl : Slot} (h : sl.front = none) : sl.mappings = [] := by
  cases sl with
  | empty => rfl
  | bucket ms => cases h
  | shard cid => rfl

theorem front_eq_some {sl : Slot} {p : Payload} (h : sl.front = some p) :
    p = .mappings sl.mappings := by
  cases sl with
  | empty => cases h
  | bucket ms => cases h; rfl
  | shard cid => cases h

theorem below_eq_nil {d : ℕ} {es : List KeyElement} {f : ℕ → Slot} {i : ℕ}
    (h : (f i).back = none) : below H d es f i = [] := by
  simp [below, h]

/-- The link of a slot leads to the tree of the slot's entries. -/
theorem back_eq_some {d : ℕ} {es : List KeyElement} {f : ℕ → Slot} {i : ℕ} {p : Payload}
    (h : SlotHolds S sha256 H bat s (d + 1) (f i) (inSlot H d i es)) (hp : (f i).back = some p)
    (hn : NoNull es) (hbat : BatReadable bat) :
    ∃ cid child, p = .link cid ∧ loadLink S s cid = .ok child ∧
      Canonical S sha256 H bat s (d + 1) child (below H d es f i) := by
  have hbelow : below H d es f i = inSlot H d i es := by simp [below, hp]
  rcases h with ⟨-, hsl⟩ | ⟨-, cid, child, hsl, hst, hc⟩
  · rw [hsl] at hp
    simp at hp
  · rw [hsl] at hp
    cases hp
    rw [hbelow]
    exact ⟨cid, child, rfl, loadLink_of_stored hc (hn.inSlot H d i) hbat hst, hc⟩

theorem sorted_below {d : ℕ} {es : List KeyElement} {f : ℕ → Slot} {i : ℕ}
    (h : SortedEntries es) : SortedEntries (below H d es f i) := by
  unfold below
  split
  · exact sorted_inSlot h
  · exact List.Pairwise.nil

theorem NoNull.below {d : ℕ} {es : List KeyElement} {f : ℕ → Slot} {i : ℕ} (h : NoNull es) :
    NoNull (below H d es f i) := by
  unfold Champ.below
  split
  · exact h.inSlot H d i
  · intro m hm
    cases hm

/-- `collectMappings` lists every entry once. -/
theorem collectMappings_perm {fuel d : ℕ} {c : Champ} {es : List KeyElement}
    (h : Canonical S sha256 H bat s d c es) (hs : SortedEntries es) (hn : NoNull es)
    (hbat : BatReadable bat) (hfuel : hashCodeLength ≤ fuel + d) :
    ∃ out, collectMappings S fuel s c = .ok out ∧ out.Perm es := by
  induction fuel generalizing d c es with
  | zero =>
      have := h.level_lt
      omega
  | succ fuel ih =>
      obtain ⟨-, f, rfl, hf⟩ := canonical_iff.1 h
      unfold collectMappings
      rw [ofSlots_contents, Rank.twoEnded, List.foldlM_append]
      unfold Rank.compress
      rw [← List.filterMap_reverse]
      -- the buckets from the front, then the links from the tail
      obtain ⟨out, hout, hperm⟩ := foldlM_slots (collectStep S (collectMappings S fuel s) s)
        Slot.front (fun i => (f i).mappings) (fun done out => out.Perm done)
        (l := List.range slots) (fun i _ hi => front_eq_none hi)
        (by
          intro i _ p hp done b hb
          rw [front_eq_some hp]
          exact ⟨_, rfl, hb.append_right _⟩) [] [] (List.Perm.refl _)
      obtain ⟨out', hout', hperm'⟩ := foldlM_slots (collectStep S (collectMappings S fuel s) s)
        Slot.back (below H d es f) (fun done out => out.Perm done)
        (l := (List.range slots).reverse) (fun i _ hi => below_eq_nil hi)
        (by
          intro i hi p hp done b hb
          have hi' := List.mem_range.1 (List.mem_reverse.1 hi)
          obtain ⟨cid, child, rfl, hload, hc⟩ := back_eq_some (hf i hi') hp hn hbat
          obtain ⟨ms, hms, hp'⟩ := ih hc (sorted_below hs) hn.below (by omega)
          simp only [collectStep, hload, hms, ok_bind]
          exact ⟨_, rfl, hb.append hp'⟩) _ _ hperm
      rw [hout, ok_bind]
      refine ⟨out', hout', hperm'.trans ?_⟩
      rw [List.nil_append]
      exact perm_slots hs hf

/-- `size` counts the entries. -/
theorem size_eq {fuel d : ℕ} {c : Champ} {es : List KeyElement}
    (h : Canonical S sha256 H bat s d c es) (hs : SortedEntries es) (hn : NoNull es)
    (hbat : BatReadable bat) (hfuel : hashCodeLength ≤ fuel + d) :
    size S fuel s c = .ok es.length := by
  induction fuel generalizing d c es with
  | zero =>
      have := h.level_lt
      omega
  | succ fuel ih =>
      obtain ⟨-, f, rfl, hf⟩ := canonical_iff.1 h
      unfold size
      rw [keyCount_ofSlots, ofSlots_contents, Rank.twoEnded, List.foldlM_append]
      unfold Rank.compress
      rw [← List.filterMap_reverse]
      have hlen := (perm_slots hs hf).length_eq
      rw [List.length_append] at hlen
      generalize ((List.range slots).flatMap fun i => (f i).mappings).length = inline at hlen ⊢
      obtain ⟨n, hn1, hn2⟩ := foldlM_slots (f := f) (sizeStep S (size S fuel s) s) Slot.front
        (fun _ => []) (fun done n => n = inline + done.length)
        (l := List.range slots) (fun i _ _ => rfl)
        (by
          intro i _ p hp done b hb
          rw [front_eq_some hp]
          exact ⟨_, rfl, by simpa using hb⟩) [] inline rfl
      obtain ⟨n', hn1', hn2'⟩ := foldlM_slots (sizeStep S (size S fuel s) s) Slot.back
        (below H d es f) (fun done n => n = inline + done.length)
        (l := (List.range slots).reverse) (fun i _ hi => below_eq_nil hi)
        (by
          intro i hi p hp done b hb
          have hi' := List.mem_range.1 (List.mem_reverse.1 hi)
          obtain ⟨cid, child, rfl, hload, hc⟩ := back_eq_some (hf i hi') hp hn hbat
          simp only [sizeStep, hload, ih hc (sorted_below hs) hn.below (by omega), ok_bind]
          refine ⟨_, rfl, ?_⟩
          rw [hb, List.length_append, Nat.add_assoc]) _ _ hn2
      rw [hn1, ok_bind]
      rw [hn1', hn2', ← hlen]
      simp

end Read

end Champ

end Peergos
