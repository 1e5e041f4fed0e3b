import PeergosClient.Champ.Insert

/-!
# Removal from a canonical tree

`remove` undoes what insertions built up: a node below the root that is left with four entries is
collapsed to one bucket, the collapsed node is passed up through every parent that has nothing
else, and the first parent that has puts the bucket in its own slot.  Between two levels the result
is therefore not always a canonical node: `Shrunk` is the other form it takes.  At the root only
canonical nodes come out.
-/

namespace Peergos

open Outcome (Ensures)

namespace Champ

/-- Why a removal from the map `es` fails. -/
inductive RemoveFault {σ : Type} (S : ContentAddressedStorage σ) (es : List KeyElement)
    (key : Bytes) (expected : Option CborObject) : Fault → Prop
  | store {e : Fault} (h : StoreFault S e) : RemoveFault S es key expected e
  | absent (h : ∀ m ∈ es, m.key ≠ key) :
      RemoveFault S es key expected (.err (.protocol "champ CAS failed: key not present"))
  | cas {m : KeyElement} (hm : m ∈ es) (hk : m.key = key) (hv : m.value ≠ expected) :
      RemoveFault S es key expected (.err (.protocol "champ CAS failed on remove"))

/-! ## Counting slots -/

theorem length_erase_add_one {es : List KeyElement} (hs : SortedEntries es) {m : KeyElement}
    {key : Bytes} (hm : m ∈ es) (hk : m.key = key) : (erase key es).length + 1 = es.length := by
  subst hk
  exact Keyed.length_erase_of_mem hs hm

theorem length_inSlot_add_le {H : KeyHasher} {d i j : ℕ} (hij : j ≠ i) (es : List KeyElement) :
    (inSlot H d i es).length + (inSlot H d j es).length ≤ es.length := by
  have hsub : (inSlot H d j es).Sublist (es.filter fun m => ! decide (slotOf H d m.key = i)) := by
    refine List.monotone_filter_right es ?_
    intro m hm
    simp only [decide_eq_true_eq] at hm
    simp [hm, hij]
  have := hsub.length_le
  have hsplit := List.length_eq_length_filter_add (l := es) fun m => decide (slotOf H d m.key = i)
  unfold inSlot at *
  omega

theorem countP_range_eq_one {n i : ℕ} (hi : i < n) {p : ℕ → Bool} (hp : p i = true) :
    (List.range n).countP p = 1 ↔ ∀ j < n, j ≠ i → p j = false := by
  constructor
  · intro h j hj hji
    by_contra hpj
    have hsub : [i, j] ⊆ (List.range n).filter p := by
      intro x hx
      simp only [List.mem_cons, List.not_mem_nil, or_false] at hx
      rcases hx with rfl | rfl
      · simp [hi, hp]
      · simp [hj, eq_true_of_ne_false hpj]
    have hnd : [i, j].Nodup := by simp [Ne.symm hji]
    have := (List.subperm_of_subset hnd hsub).length_le
    rw [← List.countP_eq_length_filter, h] at this
    simp at this
  · intro h
    rw [List.countP_congr (q := fun j => j == i)]
    · exact List.count_eq_one_of_mem List.nodup_range (List.mem_range.2 hi)
    · intro j hj
      by_cases hji : j = i
      · subst hji
        simp [hp]
      · simp [h j (List.mem_range.1 hj) hji, hji]

section Delete

variable {σ : Type} {S : ContentAddressedStorage σ} {sha256 : Bytes → Bytes} {H : KeyHasher}
  {bat : Option BatId}

section Counts

variable {s : σ} {d : ℕ} {f : ℕ → Slot} {es : List KeyElement}
  (hf : ∀ j < slots, SlotHolds S sha256 H bat s (d + 1) (f j) (inSlot H d j es))
include hf

/-- A node without links holds all entries inline. -/
theorem inline_perm (hs : SortedEntries es) (hnode : (ofSlots f bat).nodeCount = 0) :
    ((List.range slots).flatMap fun i => (f i).mappings).Perm es := by
  rw [nodeCount_ofSlots, List.countP_eq_zero] at hnode
  have hbelow : (List.range slots).reverse.flatMap (below H d es f) = [] := by
    rw [List.flatMap_eq_nil_iff]
    intro i hi
    unfold below
    rw [if_neg (hnode i (List.mem_reverse.1 hi))]
  have hperm := perm_slots hs hf
  rw [hbelow, List.append_nil] at hperm
  exact hperm

theorem keyCount_eq_length (hs : SortedEntries es) (hnode : (ofSlots f bat).nodeCount = 0) :
    (ofSlots f bat).keyCount = es.length := by
  rw [keyCount_ofSlots, (inline_perm hf hs hnode).length_eq]

/-- A link beside an inline entry makes six entries at least. -/
theorem nodeCount_eq_zero {i : ℕ} (hi : i < slots) (hin : (f i).back = none)
    (hne : inSlot H d i es ≠ []) (hlen : es.length ≤ maxHashCollisionsPerLevel + 1) :
    (ofSlots f bat).nodeCount = 0 := by
  rw [nodeCount_ofSlots, List.countP_eq_zero]
  intro j hj hback
  rcases hf j (List.mem_range.1 hj) with ⟨-, hsl⟩ | ⟨hbig, -⟩
  · rw [hsl] at hback
    simp at hback
  · have hij : j ≠ i := by
      rintro rfl
      rw [hin] at hback
      cases hback
    have hle := length_inSlot_add_le (H := H) (d := d) hij es
    have := List.length_pos_iff.2 hne
    omega

/-- A node with one link and nothing else, told from its counts. -/
theorem counts_eq_single {i : ℕ} (hi : i < slots) {cid : Cid} (hsl : f i = .shard cid) :
    ((ofSlots f bat).keyCount = 0 ∧ (ofSlots f bat).nodeCount = 1) ↔
      ∀ j < slots, j ≠ i → inSlot H d j es = [] := by
  rw [keyCount_ofSlots, nodeCount_ofSlots,
    countP_range_eq_one hi (p := fun j => (f j).back.isSome) (by rw [hsl]; rfl),
    List.length_eq_zero_iff, List.flatMap_eq_nil_iff]
  constructor
  · rintro ⟨hkeys, hnodes⟩ j hj hji
    rcases hf j hj with ⟨-, hsl'⟩ | ⟨-, cid', child, hsl', -, -⟩
    · have := hkeys j (List.mem_range.2 hj)
      rw [hsl'] at this
      simpa using this
    · have := hnodes j hj hji
      rw [hsl'] at this
      cases this
  · intro h
    have hempty : ∀ j < slots, j ≠ i → f j = .empty := by
      intro j hj hji
      rcases hf j hj with ⟨-, hsl'⟩ | ⟨hbig, -⟩
      · rw [hsl', h j hj hji]
        rfl
      · rw [h j hj hji] at hbig
        cases hbig
    constructor
    · intro j hj
      by_cases hji : j = i
      · rw [hji, hsl]
        rfl
      · rw [hempty j (List.mem_range.1 hj) hji]
        rfl
    · intro j hj hji
      rw [hempty j hj hji]
      rfl

end Counts

/-! ## The branches of a removal -/

section Branches

variable {fuel d : ℕ} {s : σ} {f : ℕ → Slot} {key : Bytes} {expected : Option CborObject}
  {ourHash : Cid}

/-- Dropping a mapping of a bucket, and the bucket with its last one. -/
theorem removeMapping_eq {i : ℕ} (hi : i < slots) {ms : List KeyElement} (hsl : f i = .bucket ms)
    {j : ℕ} (hj : j < ms.length) : (ofSlots f bat).removeMapping i j =
      .ok (ofSlots (Function.update f i (.ofEntries (ms.eraseIdx j))) bat) := by
  by_cases hlen : ms.length = 1
  · obtain ⟨m, rfl⟩ := List.length_eq_one_iff.1 hlen
    rw [List.length_singleton] at hj
    rw [removeMapping_ofSlots_last hi hsl, show j = 0 by omega]
    rfl
  · rw [removeMapping_ofSlots hi hsl hlen hj, Slot.ofEntries_of_ne_nil]
    intro hnil
    have := List.length_eraseIdx_of_lt hj
    rw [hnil, List.length_nil] at this
    omega

theorem remove_of_empty (hsl : f (slotOf H d key) = .empty) :
    remove S (fuel + 1) s (ofSlots f bat) key (H key) d expected bitWidth
        maxHashCollisionsPerLevel ourHash = .ok ((ofSlots f bat, ourHash), s) := by
  have hi : slotOf H d key < slots := slotOf_lt H d key
  simp only [remove]
  rw [show mask (H key) d bitWidth = slotOf H d key from rfl, bitGet_dataMap hi, bitGet_nodeMap hi,
    hsl]
  rfl

theorem remove_of_unmapped {ms : List KeyElement} (hsl : f (slotOf H d key) = .bucket ms)
    (hj : ms.findIdx? (fun m => m.key = key) = none) :
    remove S (fuel + 1) s (ofSlots f bat) key (H key) d expected bitWidth
        maxHashCollisionsPerLevel ourHash = protocolErr "champ CAS failed: key not present" := by
  have hi : slotOf H d key < slots := slotOf_lt H d key
  simp only [remove]
  rw [show mask (H key) d bitWidth = slotOf H d key from rfl, bitGet_dataMap hi,
    vecGet_bucket hi hsl, hsl]
  simp only [Slot.front, Option.isSome_some, if_true, ok_bind, hj]

theorem remove_of_mapped {ms : List KeyElement} (hsl : f (slotOf H d key) = .bucket ms) {j : ℕ}
    {m : KeyElement} (hj : ms.findIdx? (fun m => m.key = key) = some j) (hm : ms[j]? = some m) :
    remove S (fuel + 1) s (ofSlots f bat) key (H key) d expected bitWidth
        maxHashCollisionsPerLevel ourHash =
      if m.value ≠ expected then protocolErr "champ CAS failed on remove"
      else if (ofSlots f bat).keyCount = maxHashCollisionsPerLevel + 1 ∧
          (ofSlots f bat).nodeCount = 0 ∧ d > 0 then
        writeNode S s ((ofSlots f bat).collapsed key (H key) bitWidth)
      else writeNode S s
        (ofSlots (Function.update f (slotOf H d key) (.ofEntries (ms.eraseIdx j))) bat) := by
  have hi : slotOf H d key < slots := slotOf_lt H d key
  simp only [remove]
  rw [show mask (H key) d bitWidth = slotOf H d key from rfl, bitGet_dataMap hi,
    vecGet_bucket hi hsl, hsl]
  simp only [Slot.front, Option.isSome_some, if_true, ok_bind, hj, vecGet_of_getElem? hm,
    removeMapping_eq hi hsl (List.getElem?_eq_some_iff.1 hm).1]

theorem remove_of_shard {cid : Cid} {child : Champ} (hsl : f (slotOf H d key) = .shard cid)
    (hload : loadLink S s cid = .ok child) :
    remove S (fuel + 1) s (ofSlots f bat) key (H key) d expected bitWidth
        maxHashCollisionsPerLevel ourHash =
      (do let r ← remove S fuel s child key (H key) (d + 1) expected bitWidth
            maxHashCollisionsPerLevel cid
          removedBelow S (ofSlots f bat) (slotOf H d key) maxHashCollisionsPerLevel ourHash cid
            r.1.1 r.1.2 r.2) := by
  have hi : slotOf H d key < slots := slotOf_lt H d key
  have hlink : (ofSlots f bat).childLink (H key) d bitWidth = .ok cid := childLink_shard hsl
  conv_lhs => simp only [remove]
  rw [show mask (H key) d bitWidth = slotOf H d key from rfl, bitGet_dataMap hi, bitGet_nodeMap hi,
    hsl]
  simp only [Slot.front, Slot.back, Option.isSome_some, Option.isSome_none, if_true,
    Bool.false_eq_true, if_false, getChildWithHash, hlink, hload, ok_bind]

end Branches

/-! ## The collapsed node -/

/-- The node of one bucket, in the slot `key` has at the root. -/
def shrunkNode (H : KeyHasher) (bat : Option BatId) (key : Bytes) (es : List KeyElement) : Champ :=
  ofSlots (Function.update (fun _ => .empty) (slotOf H 0 key) (.bucket es)) bat

theorem shrunkNode_contents (key : Bytes) (es : List KeyElement) :
    (shrunkNode H bat key es).contents = [.mappings es] := by
  rw [shrunkNode, ofSlots_single (slotOf_lt H 0 key)]

theorem collapsed_eq {s : σ} {d : ℕ} {f : ℕ → Slot} {es : List KeyElement} {key : Bytes}
    (hf : ∀ j < slots, SlotHolds S sha256 H bat s (d + 1) (f j) (inSlot H d j es))
    (hs : SortedEntries es) (hnode : (ofSlots f bat).nodeCount = 0) :
    (ofSlots f bat).collapsed key (H key) bitWidth = shrunkNode H bat key (erase key es) := by
  have hperm := inline_perm hf hs hnode
  have hsorted : sortEntries (((List.range slots).flatMap fun i => (f i).mappings).filter
      fun m => m.key ≠ key) = erase key es := by
    have hnd := ((hperm.filter fun m : KeyElement => decide (m.key ≠ key)).map KeyElement.key).nodup_iff.2
      (Keyed.sorted_erase hs key).nodup_keys
    refine (Keyed.sorted_sortByKey hnd).ext (Keyed.sorted_erase hs key) ?_
    intro m
    rw [Keyed.mem_sortByKey]
    exact (hperm.filter _).mem_iff
  rw [shrunkNode, ofSlots_single (slotOf_lt H 0 key), collapsed, flatten_mappings_ofSlots, hsorted]
  rfl

/-- At the root the collapsed node is the tree of its bucket. -/
theorem canonical_shrunkNode (s : σ) {key : Bytes} {es : List KeyElement}
    (hslot : ∀ m ∈ es, slotOf H 0 m.key = slotOf H 0 key) (hne : es ≠ [])
    (hlen : es.length ≤ maxHashCollisionsPerLevel) :
    Canonical S sha256 H bat s 0 (shrunkNode H bat key es) es := by
  refine canonical_iff.2 ⟨by decide, _, rfl, ?_⟩
  intro j _
  by_cases hj : j = slotOf H 0 key
  · have hall : inSlot H 0 j es = es := by
      refine List.filter_eq_self.2 ?_
      intro m hm
      simp [hslot m hm, hj]
    rw [hall, hj, Function.update_self]
    exact Or.inl ⟨hlen, (Slot.ofEntries_of_ne_nil hne).symm⟩
  · have hnone : inSlot H 0 j es = [] := by
      refine List.filter_eq_nil_iff.2 ?_
      intro m hm
      simp [hslot m hm, Ne.symm hj]
    rw [hnone, Function.update_of_ne hj]
    exact Or.inl ⟨Nat.zero_le _, rfl⟩

/-- What the removal from a node of five entries leaves below the root. -/
structure Shrunk (S : ContentAddressedStorage σ) (sha256 : Bytes → Bytes) (H : KeyHasher)
    (bat : Option BatId) (s : σ) (key : Bytes) (es : List KeyElement) (r : (Champ × Cid) × σ) :
    Prop where
  node : r.1.1 = shrunkNode H bat key es
  stored : S.Stored sha256 r.2 r.1.2 r.1.1.toCbor
  keeps : S.Extends s r.2

/-- What a removal that returned has done. -/
def RemovePost (S : ContentAddressedStorage σ) (sha256 : Bytes → Bytes) (H : KeyHasher)
    (bat : Option BatId) (s : σ) (d : ℕ) (c : Champ) (es : List KeyElement) (key : Bytes)
    (expected : Option CborObject) (ourHash : Cid) (r : (Champ × Cid) × σ) : Prop :=
  ((∀ m ∈ es, m.key ≠ key) ∧ r = ((c, ourHash), s)) ∨
    ((∃ m ∈ es, m.key = key ∧ m.value = expected) ∧
      (((d = 0 ∨ maxHashCollisionsPerLevel + 1 < es.length) ∧
          Wrote S sha256 H bat s d (erase key es) r) ∨
        (0 < d ∧ es.length = maxHashCollisionsPerLevel + 1 ∧
          Shrunk S sha256 H bat s key (erase key es) r)))

section Cases

variable {s : σ} {d : ℕ} {f : ℕ → Slot} {es ei : List KeyElement} {key : Bytes}
  {expected : Option CborObject} {ourHash : Cid}

/-- The key sits in a bucket of the node. -/
theorem remove_bucket_ensures (hL : S.Lawful sha256) {fuel : ℕ} (hd : d < hashCodeLength)
    (hf : ∀ j < slots, SlotHolds S sha256 H bat s (d + 1) (f j) (inSlot H d j es))
    (hs : SortedEntries es) (hbig : d = 0 ∨ maxHashCollisionsPerLevel < es.length)
    (hei : inSlot H d (slotOf H d key) es = ei) (hlen : ei.length ≤ maxHashCollisionsPerLevel)
    (hsl : f (slotOf H d key) = .bucket ei) :
    Ensures (remove S (fuel + 1) s (ofSlots f bat) key (H key) d expected bitWidth
        maxHashCollisionsPerLevel ourHash)
      (RemovePost S sha256 H bat s d (ofSlots f bat) es key expected ourHash)
      (RemoveFault S es key expected) := by
  have hi := slotOf_lt H d key
  have hsort : SortedEntries ei := hei ▸ sorted_inSlot hs
  cases hj : ei.findIdx? (fun m => m.key = key) with
  | none =>
      rw [remove_of_unmapped hsl hj]
      refine .absent fun m hm hk => ?_
      refine Keyed.lookup_eq_none.1 (findIdx?_none hj) m ?_ hk
      rw [← hei, mem_inSlot, hk]
      exact ⟨hm, rfl⟩
  | some j =>
      obtain ⟨m, hm, hk⟩ := findIdx?_some hj
      have hmes : m ∈ es := by
        have hmei := List.mem_of_getElem? hm
        rw [← hei] at hmei
        exact (mem_inSlot.1 hmei).1
      rw [remove_of_mapped hsl hj hm]
      by_cases hexp : m.value = expected
      · rw [if_neg (by simpa using hexp)]
        split
        · rename_i hcond
          obtain ⟨hkeys, hnodes, hd0⟩ := hcond
          rw [keyCount_eq_length hf hs hnodes] at hkeys
          rw [collapsed_eq hf hs hnodes]
          refine (writeNode_ensures hL s _).mono ?_ fun _ h => .store h
          rintro r ⟨hr, hst, hext⟩
          exact Or.inr ⟨⟨m, hmes, hk, hexp⟩, Or.inr ⟨hd0, hkeys, hr, hr ▸ hst, hext⟩⟩
        · rename_i hcond
          have hmore : d = 0 ∨ maxHashCollisionsPerLevel + 1 < es.length := by
            by_contra hnot
            obtain ⟨hd0, hle⟩ := not_or.1 hnot
            have hgt := hbig.resolve_left hd0
            -- five entries, one of them inline: no link, and the node would have collapsed
            have hnodes := nodeCount_eq_zero hf hi (by rw [hsl]; rfl)
              (by rw [hei]; exact List.ne_nil_of_mem (List.mem_of_getElem? hm)) (by omega)
            refine hcond ⟨?_, hnodes, Nat.pos_of_ne_zero hd0⟩
            rw [keyCount_eq_length hf hs hnodes]
            omega
          have herase : ei.eraseIdx j = inSlot H d (slotOf H d key) (erase key es) := by
            rw [inSlot_erase, hei, Keyed.eraseIdx_eq_erase hsort hm, hk]
          refine (writeSlot_ensures hL hd hf (.refl s)
            (fun i _ hne => inSlot_erase_of_ne (Ne.symm hne)) (Or.inl ⟨?_, ?_⟩)).mono ?_
            fun _ h => .store h
          · rw [← herase]
            exact (List.length_eraseIdx_le ei j).trans hlen
          · rw [herase]
          · rintro r hr
            exact Or.inr ⟨⟨m, hmes, hk, hexp⟩, Or.inl ⟨hmore, hr⟩⟩
      · rw [if_pos hexp]
        exact .cas hmes hk hexp

/-- A canonical node of more entries than a bucket holds is not mistaken for a bucket. -/
theorem Canonical.not_bucket {c : Champ} (h : Canonical S sha256 H bat s d c es)
    (hs : SortedEntries es) (hlen : maxHashCollisionsPerLevel < es.length) :
    c.contents.isEmpty = false ∧ ¬ (c.nodeCount = 0 ∧ c.keyCount = maxHashCollisionsPerLevel) := by
  obtain ⟨-, f, rfl, hf⟩ := canonical_iff.1 h
  have hnot : ¬ ((ofSlots f bat).nodeCount = 0 ∧
      (ofSlots f bat).keyCount = maxHashCollisionsPerLevel) := by
    rintro ⟨hnodes, hkeys⟩
    rw [keyCount_eq_length hf hs hnodes] at hkeys
    omega
  refine ⟨?_, hnot⟩
  by_contra hempty
  rw [Bool.not_eq_false, List.isEmpty_iff] at hempty
  have hnodes : (ofSlots f bat).nodeCount = 0 := by rw [nodeCount, hempty]; rfl
  have hkeys : (ofSlots f bat).keyCount = 0 := by rw [keyCount, hempty]; rfl
  rw [keyCount_eq_length hf hs hnodes] at hkeys
  omega

/-- A canonical node of five entries does not encode as a bucket of four. -/
theorem Canonical.toCbor_ne_shrunk {c : Champ} (h : Canonical S sha256 H bat s d c es)
    (hs : SortedEntries es) (hn : NoNull es) (hbat : BatReadable bat)
    (hlen : maxHashCollisionsPerLevel < es.length) {ms : List KeyElement} (hms : NoNull ms)
    (hmslen : ms.length = maxHashCollisionsPerLevel) :
    c.toCbor ≠ (shrunkNode H bat key ms).toCbor := by
  intro heq
  have h1 := h.fromCbor_toCbor hn hbat
  rw [heq, Champ.fromCbor_toCbor] at h1
  · refine (h.not_bucket hs hlen).2 ?_
    rw [← Except.ok.inj h1, nodeCount, keyCount, shrunkNode_contents]
    simpa [Payload.isShard, Payload.asMappings] using hmslen
  · rw [shrunkNode_contents]
    intro p hp
    rw [List.mem_singleton.1 hp]
    exact hms
  · exact hbat

/-- After the removal below a link: the parent of a child that is still too large for a bucket. -/
theorem parent_of_wrote_ensures (hL : S.Lawful sha256) {cid : Cid} (hd : d < hashCodeLength)
    (hf : ∀ j < slots, SlotHolds S sha256 H bat s (d + 1) (f j) (inSlot H d j es))
    (hs : SortedEntries es) (hst : S.Stored sha256 s ourHash (ofSlots f bat).toCbor)
    (hsl : f (slotOf H d key) = .shard cid)
    (hlen : maxHashCollisionsPerLevel < (inSlot H d (slotOf H d key) (erase key es)).length)
    {r : (Champ × Cid) × σ}
    (hr : Wrote S sha256 H bat s (d + 1) (inSlot H d (slotOf H d key) (erase key es)) r) :
    Ensures (removedBelow S (ofSlots f bat) (slotOf H d key) maxHashCollisionsPerLevel ourHash cid
        r.1.1 r.1.2 r.2)
      (Wrote S sha256 H bat s d (erase key es)) (StoreFault S) := by
  have hne : ∀ j < slots, j ≠ slotOf H d key → inSlot H d j (erase key es) = inSlot H d j es :=
    fun j _ hj => inSlot_erase_of_ne (Ne.symm hj)
  have hslot : SlotHolds S sha256 H bat r.2 (d + 1) (.shard r.1.2)
      (inSlot H d (slotOf H d key) (erase key es)) :=
    Or.inr ⟨hlen, r.1.2, r.1.1, rfl, hr.stored, hr.canonical⟩
  obtain ⟨hnonempty, hnot⟩ := hr.canonical.not_bucket (sorted_inSlot (Keyed.sorted_erase hs _)) hlen
  unfold removedBelow
  by_cases hsame : r.1.2 = cid
  · rw [if_pos hsame]
    have hcan := Canonical.update hd hf hr.keeps hne hslot
    rw [hsame, ← hsl, Function.update_eq_self] at hcan
    exact ⟨hcan, hst.mono hr.keeps, hr.keeps⟩
  · rw [if_neg hsame, if_neg (by rw [hnonempty]; decide), if_neg hnot,
      overwriteChildLink_ofSlots (slotOf_lt H d key) hsl, ok_bind]
    exact writeSlot_ensures hL hd hf hr.keeps hne hslot

/-- After the removal below a link: the parent of a child that shrank to a bucket takes the bucket
in, or passes the node on if it has nothing else. -/
theorem parent_of_shrunk_ensures (hL : S.Lawful sha256) {cid : Cid} {child : Champ}
    (hd : d < hashCodeLength) (hbat : BatReadable bat)
    (hf : ∀ j < slots, SlotHolds S sha256 H bat s (d + 1) (f j) (inSlot H d j es))
    (hs : SortedEntries es) (hn : NoNull es) (hsl : f (slotOf H d key) = .shard cid)
    (hei : inSlot H d (slotOf H d key) es = ei) (hcid : S.Stored sha256 s cid child.toCbor)
    (hchild : Canonical S sha256 H bat s (d + 1) child ei)
    (hlen : ei.length = maxHashCollisionsPerLevel + 1) {m : KeyElement} (hm : m ∈ ei)
    (hk : m.key = key) {r : (Champ × Cid) × σ}
    (hr : Shrunk S sha256 H bat s key (erase key ei) r) :
    Ensures (removedBelow S (ofSlots f bat) (slotOf H d key) maxHashCollisionsPerLevel ourHash cid
        r.1.1 r.1.2 r.2)
      (fun r => ((d = 0 ∨ maxHashCollisionsPerLevel + 1 < es.length) ∧
          Wrote S sha256 H bat s d (erase key es) r) ∨
        (0 < d ∧ es.length = maxHashCollisionsPerLevel + 1 ∧
          Shrunk S sha256 H bat s key (erase key es) r)) (StoreFault S) := by
  have hi := slotOf_lt H d key
  have hsort : SortedEntries ei := hei ▸ sorted_inSlot hs
  have hnei : NoNull ei := hei ▸ hn.inSlot H d _
  have hlen' : (erase key ei).length = maxHashCollisionsPerLevel := by
    have := length_erase_add_one hsort hm hk
    omega
  have hne : r.1.2 ≠ cid := by
    intro heq
    have h1 := hr.stored
    rw [heq] at h1
    have h2 := h1.unique (hcid.mono hr.keeps)
    rw [hr.node] at h2
    exact hchild.toCbor_ne_shrunk hsort hnei hbat (by omega)
      (fun m hm => hnei m (Keyed.mem_erase.1 hm).1) hlen' h2.symm
  have hcontents : r.1.1.contents = [.mappings (erase key ei)] := by
    rw [hr.node, shrunkNode_contents]
  have hcounts : r.1.1.nodeCount = 0 ∧ r.1.1.keyCount = maxHashCollisionsPerLevel := by
    rw [nodeCount, keyCount, hcontents]
    simpa [Payload.isShard, Payload.asMappings] using hlen'
  unfold removedBelow
  rw [if_neg hne, hcontents, if_neg (by simp), if_pos hcounts]
  by_cases hsingle : (ofSlots f bat).keyCount = 0 ∧ (ofSlots f bat).nodeCount = 1
  · rw [if_pos hsingle]
    have hothers := (counts_eq_single hf hi hsl).1 hsingle
    have hes : es = ei := by
      refine hs.ext hsort ?_
      intro x
      rw [← hei, mem_inSlot]
      refine ⟨fun hx => ⟨hx, ?_⟩, fun hx => hx.1⟩
      by_contra hxi
      have hx' : x ∈ inSlot H d (slotOf H d x.key) es := mem_inSlot.2 ⟨hx, rfl⟩
      rw [hothers _ (slotOf_lt H d x.key) hxi] at hx'
      cases hx'
    by_cases hd0 : d = 0
    · subst hd0
      refine Or.inl ⟨Or.inl rfl, ?_, hr.stored, hr.keeps⟩
      rw [hr.node, hes]
      refine canonical_shrunkNode _ ?_ ?_ hlen'.le
      · intro x hx
        have hx' := (Keyed.mem_erase.1 hx).1
        rw [← hei] at hx'
        exact (mem_inSlot.1 hx').2
      · intro hnil
        rw [hnil] at hlen'
        cases hlen'
    · rw [← hes] at hr
      exact Or.inr ⟨Nat.pos_of_ne_zero hd0, hes ▸ hlen, hr⟩
  · rw [if_neg hsingle, copyAndMigrateFromNodeToInline_ofSlots hi hsl hcontents, ok_bind]
    have hmore : maxHashCollisionsPerLevel + 1 < es.length := by
      by_contra hle
      refine hsingle ((counts_eq_single hf hi hsl).2 ?_)
      intro j hj hji
      have := length_inSlot_add_le (H := H) (d := d) hji es
      rw [hei] at this
      exact List.length_eq_zero_iff.1 (by omega)
    have hself : inSlot H d (slotOf H d key) (erase key es) = erase key ei := by
      rw [inSlot_erase, hei]
    refine (writeSlot_ensures hL hd hf hr.keeps
      (fun i _ hne => inSlot_erase_of_ne (Ne.symm hne)) (Or.inl ⟨?_, ?_⟩)).mono
      (fun r hr => Or.inl ⟨Or.inr hmore, hr⟩) fun _ h => h
    · rw [hself, hlen']
    · rw [hself, Slot.ofEntries_of_ne_nil]
      intro hnil
      rw [hnil] at hlen'
      cases hlen'

end Cases

/-- `remove` at any level of a canonical tree. -/
theorem remove_ensures (hL : S.Lawful sha256) (hbat : BatReadable bat) {fuel d : ℕ}
    (hfuel : hashCodeLength ≤ fuel + d) {s : σ} {c : Champ} {es : List KeyElement} {key : Bytes}
    {expected : Option CborObject} {ourHash : Cid} (h : Canonical S sha256 H bat s d c es)
    (hs : SortedEntries es) (hn : NoNull es) (hst : S.Stored sha256 s ourHash c.toCbor)
    (hbig : d = 0 ∨ maxHashCollisionsPerLevel < es.length) :
    Ensures (remove S fuel s c key (H key) d expected bitWidth maxHashCollisionsPerLevel ourHash)
      (RemovePost S sha256 H bat s d c es key expected ourHash)
      (RemoveFault S es key expected) := by
  induction fuel generalizing d s c es ourHash with
  | zero =>
      have := h.level_lt
      omega
  | succ fuel ih =>
      obtain ⟨hd, f, rfl, hf⟩ := canonical_iff.1 h
      have hmem : ∀ m ∈ es, m.key = key → m ∈ inSlot H d (slotOf H d key) es := by
        rintro m hm rfl
        exact mem_inSlot.2 ⟨hm, rfl⟩
      rcases hf _ (slotOf_lt H d key) with ⟨hlen, hsl⟩ | ⟨hlen, cid, child, hsl, hcid, hchild⟩
      · cases hei : inSlot H d (slotOf H d key) es with
        | nil =>
            rw [hei] at hsl hmem
            rw [remove_of_empty hsl]
            exact Or.inl ⟨fun m hm hk => absurd (hmem m hm hk) List.not_mem_nil, rfl⟩
        | cons m ms =>
            rw [hei] at hsl hlen
            exact remove_bucket_ensures hL hd hf hs hbig hei hlen hsl
      · have hn' := hn.inSlot H d (slotOf H d key)
        rw [remove_of_shard hsl (loadLink_of_stored hchild hn' hbat hcid)]
        refine Ensures.bind ((ih (by omega) hchild (sorted_inSlot hs) hn' hcid
          (Or.inr hlen)).mono (fun _ h => h) ?_) ?_
        · rintro e (he | habs | ⟨hm, hk, hv⟩)
          · exact .store he
          · exact .absent fun m hm hk => habs m (hmem m hm hk) hk
          · exact .cas (mem_inSlot.1 hm).1 hk hv
        · rintro r (⟨habs, rfl⟩ | ⟨⟨m, hm, hk, hv⟩, ⟨hmore, hr⟩ | ⟨-, hfive, hr⟩⟩)
          · simp only [removedBelow, if_true]
            exact Or.inl ⟨fun m hm hk => habs m (hmem m hm hk) hk, rfl⟩
          · have hmes := (mem_inSlot.1 hm).1
            have hgt := hmore.resolve_left (Nat.succ_ne_zero d)
            rw [← inSlot_erase] at hr
            refine (parent_of_wrote_ensures hL hd hf hs hst hsl ?_ hr).mono ?_ fun _ h => .store h
            · have := length_erase_add_one (sorted_inSlot hs) hm hk
              rw [inSlot_erase]
              omega
            · intro r' hr'
              have hle : (inSlot H d (slotOf H d key) es).length ≤ es.length :=
                List.length_filter_le ..
              exact Or.inr ⟨⟨m, hmes, hk, hv⟩, Or.inl ⟨Or.inr (by omega), hr'⟩⟩
          · have hmes := (mem_inSlot.1 hm).1
            exact (parent_of_shrunk_ensures hL hd hbat hf hs hn hsl rfl hcid hchild hfive hm hk
              hr).mono (fun r' hr' => Or.inr ⟨⟨m, hmes, hk, hv⟩, hr'⟩) fun _ h => .store h

end Delete

end Champ

end Peergos
