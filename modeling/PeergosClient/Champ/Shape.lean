import PeergosClient.Champ.Reachable

/-!
# The shape of the nodes of a champ

What every node under the root of a reached champ looks like: `NodeShape` reads its two bitmaps and
its one array as they are, and `NodeAt` follows the links from the root, each named by the slots
on the way.  Both speak of the arrays of the source; that every node has the shape comes from the
canonical tree the handle holds.
-/

namespace Peergos

open Outcome (Ensures)

namespace Champ

/-- The positions of the bits that are set, in increasing order. -/
def setBits (bitmap : Bytes) : List ℕ := (List.range (8 * bitmap.length)).filter (bitGet bitmap)

/-- The key falls in the slots of the path, level by level. -/
def OnPath (H : KeyHasher) (path : List ℕ) (k : Bytes) : Prop :=
  ∀ j i, path[j]? = some i → mask (H k) j bitWidth = i

/-- The bucket of slot `i` in the node at `path`: between one and four keys, strictly sorted, all
of them where they belong. -/
structure BucketShape (H : KeyHasher) (path : List ℕ) (i : ℕ) (ms : List KeyElement) : Prop where
  nonempty : 1 ≤ ms.length
  fits : ms.length ≤ maxHashCollisionsPerLevel
  sorted : SortedEntries ms
  placed : ∀ m ∈ ms, OnPath H (path ++ [i]) m.key

section Nodes

variable {σ : Type} (S : ContentAddressedStorage σ) (s : σ)

/-- The node that the links under `root` lead to along a path of slots.  The links follow the
buckets, the one of the highest node bit first. -/
inductive NodeAt (root : Champ) : List ℕ → Champ → Prop
  | root : NodeAt root [] root
  | child {path : List ℕ} {c child : Champ} {i j : ℕ} {cid : Cid} {cbor : CborObject}
      (parent : NodeAt root path c) (hslot : (setBits c.nodeMap).reverse[j]? = some i)
      (hlink : c.contents[(setBits c.dataMap).length + j]? = some (.link cid))
      (hget : S.get s cid = .ok (some cbor)) (hread : fromCbor cbor = .ok child) :
      NodeAt root (path ++ [i]) child

/-- The shape of the node at `path`. -/
structure NodeShape (H : KeyHasher) (fuel : ℕ) (path : List ℕ) (c : Champ) : Prop where
  disjoint : ∀ i, ¬ (bitGet c.dataMap i = true ∧ bitGet c.nodeMap i = true)
  trimmedData : Trimmed c.dataMap
  trimmedNode : Trimmed c.nodeMap
  layout : ∃ (buckets : List (List KeyElement)) (links : List Cid),
    c.contents = buckets.map .mappings ++ links.map .link ∧
      List.Forall₂ (BucketShape H path) (setBits c.dataMap) buckets ∧
      links.length = (setBits c.nodeMap).length
  large : path ≠ [] → ∃ out, collectMappings S fuel s c = .ok out ∧
    maxHashCollisionsPerLevel < out.length

end Nodes

/-! ## Reading a layout -/

theorem filter_range_eq {p : ℕ → Bool} {m n : ℕ} (hm : ∀ i, p i = true → i < m)
    (hn : ∀ i, p i = true → i < n) : (List.range m).filter p = (List.range n).filter p := by
  have key : ∀ a b : ℕ, a ≤ b → (∀ i, p i = true → i < a) →
      (List.range a).filter p = (List.range b).filter p := by
    intro a b hab ha
    obtain ⟨k, rfl⟩ := Nat.exists_eq_add_of_le hab
    have hnone : (List.map (fun x => a + x) (List.range k)).filter p = [] := by
      rw [List.filter_eq_nil_iff]
      intro i hi
      obtain ⟨x, -, rfl⟩ := List.mem_map.1 hi
      intro hp
      have := ha _ hp
      omega
    rw [List.range_add, List.filter_append, hnone, List.append_nil]
  rcases le_total m n with h | h
  · exact key m n h hm
  · exact (key n m h hn).symm

theorem bitGet_lt {bitmap : Bytes} {i : ℕ} (h : bitGet bitmap i = true) :
    i < 8 * bitmap.length := by
  unfold bitGet at h
  by_contra hc
  rw [List.getElem?_eq_none (by omega)] at h
  cases h

theorem setBits_bitsOf (p : ℕ → Bool) : setBits (bitsOf p) = (List.range slots).filter p := by
  have hbits : ∀ i, bitGet (bitsOf p) i = (decide (i < slots) && p i) := bitGet_bitsOf p
  unfold setBits
  rw [filter_range_eq (n := slots) (fun i hi => bitGet_lt hi)]
  · refine List.filter_congr ?_
    intro i hi
    rw [hbits, decide_eq_true (List.mem_range.1 hi), Bool.true_and]
  · intro i hi
    rw [hbits, Bool.and_eq_true, decide_eq_true_eq] at hi
    exact hi.1

theorem filterMap_eq_map_filter {α : Type} {f : ℕ → Option α} {g : ℕ → α} {l : List ℕ}
    (h : ∀ i ∈ l, ∀ x, f i = some x → x = g i) :
    l.filterMap f = (l.filter fun i => (f i).isSome).map g := by
  induction l with
  | nil => rfl
  | cons i l ih =>
      have ih' := ih fun j hj => h j (List.mem_cons_of_mem _ hj)
      rw [List.filterMap_cons, List.filter_cons]
      cases hf : f i with
      | none => simpa using ih'
      | some x =>
          rw [h i (List.mem_cons_self ..) x hf, ih']
          rfl

/-- The buckets of a layout, one for each data bit. -/
theorem front_eq_map (f : ℕ → Slot) (bat : Option BatId) :
    Rank.compress slots (fun i => (f i).front) =
      (setBits (ofSlots f bat).dataMap).map fun i => .mappings (f i).mappings := by
  rw [ofSlots_dataMap, setBits_bitsOf]
  exact filterMap_eq_map_filter fun i _ x hx => front_eq_some hx

/-- The links of a layout before they are turned round, one for each node bit. -/
theorem back_eq_map (f : ℕ → Slot) (bat : Option BatId) :
    Rank.compress slots (fun i => (f i).back) =
      (setBits (ofSlots f bat).nodeMap).map fun i => ((f i).back).getD (.mappings []) := by
  rw [ofSlots_nodeMap, setBits_bitsOf]
  refine filterMap_eq_map_filter ?_
  intro i _ x hx
  rw [hx, Option.getD_some]

theorem exists_links (f : ℕ → Slot) (l : List ℕ) :
    ∃ links : List Cid, l.filterMap (fun i => (f i).back) = links.map .link := by
  induction l with
  | nil => exact ⟨[], rfl⟩
  | cons i l ih =>
      obtain ⟨links, hlinks⟩ := ih
      rw [List.filterMap_cons]
      cases hsl : f i with
      | empty => exact ⟨links, hlinks⟩
      | bucket ms => exact ⟨links, hlinks⟩
      | shard cid =>
          refine ⟨cid :: links, ?_⟩
          rw [List.map_cons, ← hlinks]
          rfl

theorem contents_eq (f : ℕ → Slot) (bat : Option BatId) : (ofSlots f bat).contents =
    ((setBits (ofSlots f bat).dataMap).map fun i => .mappings (f i).mappings) ++
      (setBits (ofSlots f bat).nodeMap).reverse.map
        fun i => ((f i).back).getD (.mappings []) := by
  rw [ofSlots_contents, Rank.twoEnded, front_eq_map f bat, back_eq_map f bat, List.map_reverse]

section Shape

variable {σ : Type} {S : ContentAddressedStorage σ} {sha256 : Bytes → Bytes} {H : KeyHasher}
  {bat : Option BatId} {s : σ} {fuel : ℕ} {path : List ℕ} {c : Champ} {es : List KeyElement}

theorem OnPath.inSlot (h : ∀ m ∈ es, OnPath H path m.key) {i : ℕ} :
    ∀ m ∈ inSlot H path.length i es, OnPath H (path ++ [i]) m.key := by
  intro m hm j i' hj
  obtain ⟨hm, hs⟩ := mem_inSlot.1 hm
  rcases Nat.lt_trichotomy j path.length with hlt | rfl | hgt
  · rw [List.getElem?_append_left hlt] at hj
    exact h m hm j i' hj
  · rw [List.getElem?_concat_length] at hj
    cases hj
    exact hs
  · rw [List.getElem?_eq_none (by simp; omega)] at hj
    cases hj

/-- A canonical node of a tree has the shape of its place. -/
theorem Canonical.nodeShape (h : Canonical S sha256 H bat s path.length c es)
    (hs : SortedEntries es) (hn : NoNull es) (hbat : BatReadable bat)
    (hfuel : hashCodeLength ≤ fuel) (hpath : ∀ m ∈ es, OnPath H path m.key)
    (hbig : path ≠ [] → maxHashCollisionsPerLevel < es.length) :
    NodeShape S s H fuel path c := by
  have hcollect : ∃ out, collectMappings S fuel s c = .ok out ∧ out.Perm es :=
    collectMappings_perm h hs hn hbat (by omega)
  obtain ⟨-, f, rfl, hf⟩ := canonical_iff.1 h
  refine ⟨?_, trimmed_bitsOf fun i => (f i).front.isSome,
    trimmed_bitsOf fun i => (f i).back.isSome, ?_, ?_⟩
  · rintro i ⟨hd, hnode⟩
    rw [ofSlots_dataMap, bitGet_bitsOf, Bool.and_eq_true] at hd
    rw [ofSlots_nodeMap, bitGet_bitsOf, Bool.and_eq_true] at hnode
    cases hsl : f i with
    | empty => rw [hsl] at hd; exact Bool.false_ne_true hd.2
    | bucket ms => rw [hsl] at hnode; exact Bool.false_ne_true hnode.2
    | shard cid => rw [hsl] at hd; exact Bool.false_ne_true hd.2
  · obtain ⟨links, hlinks⟩ := exists_links f (List.range slots)
    refine ⟨(setBits (ofSlots f bat).dataMap).map fun i => (f i).mappings, links.reverse, ?_, ?_, ?_⟩
    · rw [ofSlots_contents, Rank.twoEnded, front_eq_map f bat, List.map_map, List.map_reverse,
        ← hlinks]
      rfl
    · rw [List.forall₂_map_right_iff, List.forall₂_same]
      intro i hi
      rw [ofSlots_dataMap, setBits_bitsOf, List.mem_filter, List.mem_range] at hi
      obtain ⟨hlt, hsome⟩ := hi
      rcases hf i hlt with ⟨hlen, hsl⟩ | ⟨-, cid, child, hsl, -, -⟩
      · rw [hsl, Slot.mappings_ofEntries]
        refine ⟨?_, hlen, sorted_inSlot hs, OnPath.inSlot hpath⟩
        by_contra hc
        rw [List.length_eq_zero_iff.1 (by omega : (inSlot H path.length i es).length = 0)] at hsl
        rw [hsl] at hsome
        cases hsome
      · rw [hsl] at hsome
        cases hsome
    · have hlen := congrArg List.length (back_eq_map f bat)
      rw [Rank.compress, hlinks, List.length_map, List.length_map] at hlen
      rw [List.length_reverse, hlen]
  · intro hne
    obtain ⟨out, hout, hperm⟩ := hcollect
    exact ⟨out, hout, hperm.length_eq ▸ hbig hne⟩

/-- The child under a link of a canonical node. -/
theorem Canonical.child (h : Canonical S sha256 H bat s path.length c es) (hn : NoNull es)
    (hbat : BatReadable bat) {i j : ℕ} {cid : Cid} {cbor : CborObject} {child : Champ}
    (hslot : (setBits c.nodeMap).reverse[j]? = some i)
    (hlink : c.contents[(setBits c.dataMap).length + j]? = some (.link cid))
    (hget : S.get s cid = .ok (some cbor)) (hread : fromCbor cbor = .ok child) :
    Canonical S sha256 H bat s (path.length + 1) child (inSlot H path.length i es) ∧
      maxHashCollisionsPerLevel < (inSlot H path.length i es).length := by
  obtain ⟨-, f, rfl, hf⟩ := canonical_iff.1 h
  rw [contents_eq, List.getElem?_append_right (by simp), List.length_map, Nat.add_sub_cancel_left,
    List.getElem?_map, hslot, Option.map_some] at hlink
  have hmem := List.mem_reverse.1 (List.mem_of_getElem? hslot)
  rw [ofSlots_nodeMap, setBits_bitsOf, List.mem_filter, List.mem_range] at hmem
  rcases hf i hmem.1 with ⟨-, hsl⟩ | ⟨hlen, cid', child', hsl, hst, hchild⟩
  · rw [hsl, Slot.back_ofEntries] at hmem
    cases hmem.2
  · rw [hsl] at hlink
    cases hlink
    have hblock := Option.some.inj (Except.ok.inj (hst.1.symm.trans hget))
    rw [← hblock, hchild.fromCbor_toCbor (hn.inSlot H _ i) hbat] at hread
    cases hread
    exact ⟨hchild, hlen⟩

/-- Every node under the root of a canonical tree is canonical for the entries of its place. -/
theorem Canonical.nodeAt {root : Champ} (h : Canonical S sha256 H bat s 0 root es)
    (hs : SortedEntries es) (hn : NoNull es) (hbat : BatReadable bat)
    (hnode : NodeAt S s root path c) :
    ∃ es', Canonical S sha256 H bat s path.length c es' ∧ SortedEntries es' ∧ NoNull es' ∧
      (∀ m ∈ es', OnPath H path m.key) ∧
      (path ≠ [] → maxHashCollisionsPerLevel < es'.length) := by
  induction hnode with
  | root =>
      refine ⟨es, h, hs, hn, ?_, fun hne => absurd rfl hne⟩
      intro m _ j i hj
      cases hj
  | @child path c child i j cid cbor _ hslot hlink hget hread ih =>
      obtain ⟨es', hc, hs', hn', hpath, -⟩ := ih
      obtain ⟨hchild, hlen⟩ := hc.child hn' hbat hslot hlink hget hread
      refine ⟨inSlot H path.length i es', ?_, sorted_inSlot hs', hn'.inSlot H _ i,
        OnPath.inSlot hpath, fun _ => hlen⟩
      rw [List.length_append, List.length_singleton]
      exact hchild

end Shape

end Champ

namespace ChampWrapper

open Champ

/-- Every node under the root of a champ that calls reached has the shape of its place, and
`remove` never meets a child without contents, short of a store that says so itself. -/
theorem champ_nodes_wellFormed {σ : Type} (S : ContentAddressedStorage σ) (sha256 : Bytes → Bytes)
    (hL : S.Lawful sha256) (H : KeyHasher) (bat : Option BatId) (hbat : BatReadable bat)
    (fuel : ℕ) (hfuel : hashCodeLength ≤ fuel) (w : ChampWrapper) (s : σ)
    (hw : Reachable S fuel H bat NotNull w s) :
    (∀ path c, NodeAt S s w.root path c → NodeShape S s H fuel path c) ∧
      ∀ key expected,
        w.remove S fuel s key expected =
            protocolErr "Sub-node must have at least one element" →
          StoreFault S (.err (.protocol "Sub-node must have at least one element")) := by
  obtain ⟨es, h⟩ := contains_of_reachable hL hbat hfuel (fun _ hv => hv) hw
  have hn := h.noNull fun _ hv => hv
  constructor
  · intro path c hnode
    obtain ⟨es', hc, hs', hn', hpath, hbig⟩ := h.canonical.nodeAt h.sorted hn hbat hnode
    exact hc.nodeShape hs' hn' hbat hfuel hpath hbig
  · intro key expected hremove
    have hens : Ensures (w.remove S fuel s key expected) _ _ :=
      h.remove_ensures hL hbat hfuel fun _ hv => hv
    rw [hremove] at hens
    have hfault : RemoveFault S es key expected
        (.err (.protocol "Sub-node must have at least one element")) := hens
    generalize he : Fault.err (.protocol "Sub-node must have at least one element") = e at hfault ⊢
    cases hfault with
    | store h => exact h
    | absent h => simp at he
    | cas hm hk hv => simp at he

theorem champ_nodes_wellFormed_overflow : ∃ w s,
    session (.memory Sha256.sha256) 32 [] none identityKeyHasher overflowOps = .ok (w, s) ∧
      NodeShape (.memory Sha256.sha256) s identityKeyHasher 32 [] w.root := by
  obtain ⟨⟨w, s⟩, hrun⟩ := exists_eq_ok (x := session (.memory Sha256.sha256) 32 [] none
    identityKeyHasher overflowOps) (by decide +kernel)
  have hw : Reachable (.memory Sha256.sha256) 32 identityKeyHasher none NotNull w s := by
    refine reachable_session ?_ hrun
    intro op hop key expected value hput
    subst hput
    simp only [overflowOps, List.mem_cons, ChampOp.put.injEq, List.not_mem_nil, or_false,
      reduceCtorEq] at hop
    rcases hop with h | h | h | h | h | h <;> simp [NotNull, h]
  exact ⟨w, s, hrun, (champ_nodes_wellFormed _ _ (ContentAddressedStorage.memory_lawful _)
    identityKeyHasher none (by rintro b ⟨⟩) 32 (le_refl _) w s hw).1 [] w.root .root⟩

end ChampWrapper

end Peergos
