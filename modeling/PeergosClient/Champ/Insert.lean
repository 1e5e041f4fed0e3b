import PeergosClient.Champ.Read

/-!
# Insertion into a canonical tree

`put` on the canonical tree of a map gives the canonical tree of the updated map, or fails for one
of three reasons: the store refused a write, the key is mapped to another value than the caller
expected, or five keys agree on all levels of the trie and no node can hold them (`Crowded`).
-/

namespace Peergos

open Outcome (Ensures)

/-- A fault the store itself returned on a write. -/
def StoreFault {σ : Type} (S : ContentAddressedStorage σ) (e : Fault) : Prop :=
  ∃ s b, S.put s b = .error e

namespace Champ

/-- All keys of `es` fall with `key` on the levels above `d`. -/
def SharesPath (H : KeyHasher) (d : ℕ) (key : Bytes) (es : List KeyElement) : Prop :=
  ∀ m ∈ es, ∀ j < d, slotOf H j m.key = slotOf H j key

/-- More keys than a bucket holds agree on every level. -/
def Crowded (H : KeyHasher) (es : List KeyElement) : Prop :=
  ∃ ks : List Bytes, ks.Nodup ∧ maxHashCollisionsPerLevel < ks.length ∧
    (∀ k ∈ ks, ∃ m ∈ es, m.key = k) ∧
    ∀ k ∈ ks, ∀ k' ∈ ks, ∀ j < hashCodeLength, slotOf H j k = slotOf H j k'

theorem Crowded.mono {H : KeyHasher} {es es' : List KeyElement} (h : Crowded H es)
    (hsub : ∀ m ∈ es, ∃ m' ∈ es', m'.key = m.key) : Crowded H es' := by
  obtain ⟨ks, hnd, hlen, hmem, hshare⟩ := h
  refine ⟨ks, hnd, hlen, ?_, hshare⟩
  intro k hk
  obtain ⟨m, hm, rfl⟩ := hmem k hk
  exact hsub m hm

theorem SharesPath.inSlot {H : KeyHasher} {d : ℕ} {key : Bytes} {es : List KeyElement}
    (h : SharesPath H d key es) : SharesPath H (d + 1) key (inSlot H d (slotOf H d key) es) := by
  intro m hm j hj
  obtain ⟨hm, hs⟩ := mem_inSlot.1 hm
  by_cases hjd : j = d
  · rw [hjd, hs]
  · exact h m hm j (by omega)

/-- The entries of a slot below the last level have no room when they are too many. -/
theorem crowded_of_sharesPath {H : KeyHasher} {d : ℕ} {key : Bytes} {es : List KeyElement}
    (hs : SortedEntries es) (h : SharesPath H d key es) (hd : hashCodeLength ≤ d)
    (hlen : maxHashCollisionsPerLevel < es.length) : Crowded H es := by
  refine ⟨es.map KeyElement.key, hs.nodup_keys, by simpa using hlen, ?_, ?_⟩
  · intro k hk
    obtain ⟨m, hm, rfl⟩ := List.mem_map.1 hk
    exact ⟨m, hm, rfl⟩
  · intro k hk k' hk' j hj
    obtain ⟨m, hm, rfl⟩ := List.mem_map.1 hk
    obtain ⟨m', hm', rfl⟩ := List.mem_map.1 hk'
    rw [h m hm j (by omega), h m' hm' j (by omega)]

theorem noNull_upsert {es : List KeyElement} (h : NoNull es) {a : KeyElement}
    (ha : a.value ≠ some .null) : NoNull (upsert a es) := by
  intro m hm
  rcases Keyed.mem_upsert.1 hm with rfl | ⟨hm, -⟩
  · exact ha
  · exact h m hm

/-- Why an insertion into the map `es` fails. -/
inductive PutFault {σ : Type} (S : ContentAddressedStorage σ) (H : KeyHasher)
    (es : List KeyElement) (a : KeyElement) (expected : Option CborObject) : Fault → Prop
  | store {e : Fault} (h : StoreFault S e) : PutFault S H es a expected e
  | cas {m : KeyElement} (hm : m ∈ es) (hk : m.key = a.key) (hv : m.value ≠ expected) :
      PutFault S H es a expected (.err (.protocol "champ CAS failed"))
  | collision (h : Crowded H (upsert a es)) :
      PutFault S H es a expected (.err (.protocol "Hash collision!"))

/-- Why moving the entries `es` one level down fails. -/
def PushFault {σ : Type} (S : ContentAddressedStorage σ) (H : KeyHasher) (es : List KeyElement)
    (e : Fault) : Prop :=
  StoreFault S e ∨ (e = .err (.protocol "Hash collision!") ∧ Crowded H es)

section Insert

variable {σ : Type} {S : ContentAddressedStorage σ} {sha256 : Bytes → Bytes} {H : KeyHasher}
  {bat : Option BatId}

/-- What a write of the tree leaves: the canonical node of `es`, stored under the returned CID, in
a store that lost nothing. -/
structure Wrote (S : ContentAddressedStorage σ) (sha256 : Bytes → Bytes) (H : KeyHasher)
    (bat : Option BatId) (s : σ) (d : ℕ) (es : List KeyElement) (r : (Champ × Cid) × σ) : Prop where
  canonical : Canonical S sha256 H bat r.2 d r.1.1 es
  stored : S.Stored sha256 r.2 r.1.2 r.1.1.toCbor
  keeps : S.Extends s r.2

/-- A canonical tree no map of which is crowded. -/
theorem Canonical.not_crowded {s : σ} {d : ℕ} {c : Champ} {es : List KeyElement}
    (h : Canonical S sha256 H bat s d c es) : ¬ Crowded H es := by
  induction h with
  | @node d es f child hd hin hlink _ ih =>
      rintro ⟨ks, hnd, hlen, hmem, hshare⟩
      obtain ⟨k, hk⟩ : ∃ k, k ∈ ks := List.exists_mem_of_length_pos (by omega)
      -- all of these keys fall in the slot of `k`, which therefore has a child
      have hks : ∀ k' ∈ ks, ∃ m ∈ inSlot H d (slotOf H d k) es, m.key = k' := by
        intro k' hk'
        obtain ⟨m, hm, rfl⟩ := hmem k' hk'
        exact ⟨m, mem_inSlot.2 ⟨hm, hshare _ hk' _ hk d hd⟩, rfl⟩
      have hsub : ks ⊆ (inSlot H d (slotOf H d k) es).map KeyElement.key := by
        intro k' hk'
        exact List.mem_map.2 (hks k' hk')
      have hle := (List.subperm_of_subset hnd hsub).length_le
      rw [List.length_map] at hle
      exact ih _ (slotOf_lt H d k) (by omega) ⟨ks, hnd, hlen, hks, hshare⟩

theorem storePut_ensures (hL : S.Lawful sha256) (s : σ) (b : CborObject) :
    Ensures (S.put s b) (fun r => S.Stored sha256 r.2 r.1 b ∧ S.Extends s r.2)
      (StoreFault S) := by
  cases hp : S.put s b with
  | error e => exact ⟨s, b, hp⟩
  | ok r => exact ⟨hL.put_stored hp, hL.put_extends hp⟩

theorem writeNode_ensures (hL : S.Lawful sha256) (s : σ) (c : Champ) :
    Ensures (writeNode S s c) (fun r => r.1.1 = c ∧ S.Stored sha256 r.2 r.1.2 c.toCbor ∧
      S.Extends s r.2) (StoreFault S) := by
  unfold writeNode
  refine Ensures.bind (storePut_ensures hL s _) ?_
  rintro r hr
  exact ⟨rfl, hr⟩

/-- Writing the node that results from setting one slot. -/
theorem writeSlot_ensures (hL : S.Lawful sha256) {s s₁ : σ} {d : ℕ} {f : ℕ → Slot}
    {es es' : List KeyElement} {i : ℕ} {sl : Slot} (hd : d < hashCodeLength)
    (h : ∀ j < slots, SlotHolds S sha256 H bat s (d + 1) (f j) (inSlot H d j es))
    (hext : S.Extends s s₁)
    (hne : ∀ j < slots, j ≠ i → inSlot H d j es' = inSlot H d j es)
    (hsl : SlotHolds S sha256 H bat s₁ (d + 1) sl (inSlot H d i es')) :
    Ensures (writeNode S s₁ (ofSlots (Function.update f i sl) bat))
      (Wrote S sha256 H bat s d es') (StoreFault S) := by
  refine (writeNode_ensures hL s₁ _).mono ?_ fun _ h => h
  rintro ⟨⟨c, cid⟩, s₂⟩ ⟨rfl, hst, hext'⟩
  exact ⟨Canonical.update hd h (hext.trans hext') hne (hsl.mono hext'), hst, hext.trans hext'⟩

/-- The specification of an insertion at level `d`, of which `put` is the instance. -/
def PutSpec (S : ContentAddressedStorage σ) (sha256 : Bytes → Bytes) (H : KeyHasher)
    (bat : Option BatId) (d : ℕ) (expected : Option CborObject)
    (putAt : σ → Champ → Bytes → Bytes → Option CborObject → Cid → Result ((Champ × Cid) × σ)) :
    Prop :=
  ∀ s c es key value ourHash, Canonical S sha256 H bat s d c es → SortedEntries es → NoNull es →
    value ≠ some .null → SharesPath H d key es → S.Stored sha256 s ourHash c.toCbor →
    Ensures (putAt s c key (H key) value ourHash)
      (fun r => Wrote S sha256 H bat s d (upsert ⟨key, value⟩ es) r ∧
        ∀ m ∈ es, m.key = key → m.value = expected)
      (PutFault S H es ⟨key, value⟩ expected)

/-- A failed insertion of an entry whose key is new, among entries of `es'`. -/
theorem PutFault.of_new {es es' : List KeyElement} {a : KeyElement} {expected : Option CborObject}
    {e : Fault} (h : PutFault S H es a expected e) (ha : ∀ m ∈ es, m.key ≠ a.key)
    (hsub : ∀ m ∈ es, m ∈ es') (ha' : a ∈ es') : PushFault S H es' e := by
  cases h with
  | store h => exact Or.inl h
  | cas hm hk _ => exact absurd hk (ha _ hm)
  | collision h =>
      refine Or.inr ⟨rfl, h.mono ?_⟩
      intro m hm
      rcases Keyed.mem_upsert.1 hm with rfl | ⟨hm, -⟩
      · exact ⟨m, ha', rfl⟩
      · exact ⟨m, hsub m hm, rfl⟩

/-- A full bucket and one more entry, pushed one level down. -/
theorem pushMappingsDownALevel_ensures (hL : S.Lawful sha256) {d : ℕ}
    {putAt : σ → Champ → Bytes → Bytes → Option CborObject → Cid → Result ((Champ × Cid) × σ)}
    (hput : PutSpec S sha256 H bat (d + 1) none putAt) {s : σ} {c : Champ} {ms : List KeyElement}
    {a : KeyElement} (hc : c.mirrorBat = bat) (hs : SortedEntries ms)
    (hn : NoNull (upsert a ms)) (hpath : SharesPath H (d + 1) a.key (upsert a ms))
    (hnew : Keyed.lookup KeyElement.key a.key ms = none)
    (hlen : maxHashCollisionsPerLevel ≤ ms.length) :
    Ensures (pushMappingsDownALevel S putAt s c ms a.key (H a.key) a.value (d + 1) H)
      (Wrote S sha256 H bat s (d + 1) (upsert a ms)) (PushFault S H (upsert a ms)) := by
  have hnew' := Keyed.lookup_eq_none.1 hnew
  have hmem : ∀ x, x ∈ upsert a ms ↔ x = a ∨ x ∈ ms := by
    intro x
    rw [Keyed.mem_upsert]
    exact or_congr_right ⟨fun h => h.1, fun h => ⟨h, hnew' x h⟩⟩
  have hsort : SortedEntries (upsert a ms) := Keyed.sorted_upsert hs a
  unfold pushMappingsDownALevel
  by_cases hd : d + 1 ≥ hashCodeLength
  · rw [if_pos hd]
    refine Or.inr ⟨rfl, crowded_of_sharesPath hsort hpath hd ?_⟩
    rw [Keyed.length_upsert hnew]
    omega
  rw [if_neg hd, hc]
  -- inserting one more of the entries into the tree of those in `done`
  have hstep : ∀ (x : KeyElement) (s₁ : σ) (c₁ : Champ) (h₁ : Cid)
      (es : List KeyElement), x ∈ upsert a ms → SortedEntries es → (∀ y ∈ es, y ∈ upsert a ms) →
      (∀ y ∈ es, y.key ≠ x.key) → Canonical S sha256 H bat s₁ (d + 1) c₁ es →
      S.Stored sha256 s₁ h₁ c₁.toCbor → S.Extends s s₁ →
      Ensures (putAt s₁ c₁ x.key (H x.key) x.value h₁)
        (Wrote S sha256 H bat s (d + 1) (upsert x es)) (PushFault S H (upsert a ms)) := by
    intro x s₁ c₁ h₁ es hx hes hsub hne hcan hst hext
    refine (hput s₁ c₁ es x.key x.value h₁ hcan hes (fun y hy => hn y (hsub y hy)) (hn x hx) ?_
      hst).mono ?_ ?_
    · intro m hm j hj
      rw [hpath m (hsub m hm) j hj, hpath x hx j hj]
    · rintro r ⟨hr, -⟩
      exact ⟨hr.canonical, hr.stored, hext.trans hr.keeps⟩
    · intro e he
      exact he.of_new hne hsub hx
  refine Ensures.bind ((storePut_ensures hL s _).mono (fun _ h => h) fun _ h => Or.inl h) ?_
  rintro ⟨h₀, s₀⟩ ⟨hst, hext⟩
  refine Ensures.bind (hstep a s₀ _ h₀ [] ((hmem a).2 (Or.inl rfl)) List.Pairwise.nil
    (by rintro y ⟨⟩) (by rintro y ⟨⟩) (canonical_empty s₀ (by omega)) hst
    hext) ?_
  intro start hstart
  refine (Ensures.foldlM (fun done r => ∃ es, SortedEntries es ∧
    (∀ x, x ∈ es ↔ x = a ∨ x ∈ done) ∧ Wrote S sha256 H bat s (d + 1) es r) ?_ ?_).mono ?_
    fun _ h => h
  · rintro done x rest hl ⟨⟨c₁, h₁⟩, s₁⟩ ⟨es, hes, hdone, hr⟩
    have hnd := hs.nodup_keys
    rw [hl, List.map_append, List.map_cons] at hnd
    have hxms : x ∈ ms := by
      rw [hl]
      simp
    have hne : ∀ y ∈ es, y.key ≠ x.key := by
      intro y hy hk
      rcases (hdone y).1 hy with rfl | hy
      · exact hnew' x hxms hk.symm
      · refine (List.disjoint_of_nodup_append hnd) (List.mem_map_of_mem hy) ?_
        rw [hk]
        exact List.mem_cons_self ..
    refine (hstep x s₁ c₁ h₁ es ((hmem x).2 (Or.inr hxms)) hes ?_ hne hr.canonical hr.stored
      hr.keeps).mono ?_ fun _ h => h
    · intro y hy
      rcases (hdone y).1 hy with rfl | hy
      · exact (hmem y).2 (Or.inl rfl)
      · refine (hmem y).2 (Or.inr ?_)
        rw [hl]
        exact List.mem_append_left _ hy
    · intro r' hr'
      refine ⟨_, Keyed.sorted_upsert hes x, ?_, hr'⟩
      intro y
      rw [Keyed.mem_upsert, List.mem_append, List.mem_singleton]
      constructor
      · rintro (rfl | ⟨hy, -⟩)
        · exact Or.inr (Or.inr rfl)
        · rcases (hdone y).1 hy with rfl | hy
          · exact Or.inl rfl
          · exact Or.inr (Or.inl hy)
      · rintro (rfl | hy | rfl)
        · have hy := (hdone y).2 (Or.inl rfl)
          exact Or.inr ⟨hy, hne y hy⟩
        · have hy := (hdone y).2 (Or.inr hy)
          exact Or.inr ⟨hy, hne y hy⟩
        · exact Or.inl rfl
  · refine ⟨_, Keyed.sorted_upsert List.Pairwise.nil a, ?_, hstart⟩
    intro x
    simp
  · rintro r ⟨es, hes, hdone, hr⟩
    have hes' : es = upsert a ms := hes.ext hsort fun x => (hdone x).trans (hmem x).symm
    rw [← hes']
    exact hr

/-! ## The insertion -/

theorem findIdx?_some {ms : List KeyElement} {key : Bytes} {j : ℕ}
    (h : ms.findIdx? (fun m => m.key = key) = some j) : ∃ m, ms[j]? = some m ∧ m.key = key := by
  obtain ⟨hlt, hm, -⟩ := List.findIdx?_eq_some_iff_getElem.1 h
  exact ⟨ms[j], List.getElem?_eq_getElem hlt, by simpa using hm⟩

theorem findIdx?_none {ms : List KeyElement} {key : Bytes}
    (h : ms.findIdx? (fun m => m.key = key) = none) :
    Keyed.lookup KeyElement.key key ms = none := by
  rw [Keyed.lookup_eq_none]
  intro m hm
  simpa using List.findIdx?_eq_none_iff.1 h m hm

theorem upsert_ne_nil (a : KeyElement) (es : List KeyElement) : upsert a es ≠ [] :=
  List.ne_nil_of_mem (Keyed.mem_upsert.2 (Or.inl rfl))

section Branches

variable {fuel d p maxCollisions : ℕ} {s : σ} {f : ℕ → Slot} {key hash : Bytes}
  {expected value : Option CborObject} {ourHash : Cid} (hp : mask hash d bitWidth = p)
include hp

theorem put_of_empty (hsl : f p = .empty) :
    put S (fuel + 1) s (ofSlots f bat) key hash d expected value bitWidth maxCollisions H ourHash =
      writeNode S s (ofSlots (Function.update f p (.bucket [⟨key, value⟩])) bat) := by
  have hi : p < slots := hp ▸ mask_lt hash d
  simp only [put]
  rw [hp, bitGet_dataMap hi, bitGet_nodeMap hi, hsl, addNewPrefix_ofSlots hi hsl]
  rfl

variable {ms : List KeyElement} (hsl : f p = .bucket ms)
include hsl

theorem put_of_mapped {j : ℕ} {m : KeyElement} (hj : ms.findIdx? (fun m => m.key = key) = some j)
    (hm : ms[j]? = some m) :
    put S (fuel + 1) s (ofSlots f bat) key hash d expected value bitWidth maxCollisions H ourHash =
      if m.value ≠ expected then protocolErr "champ CAS failed"
      else writeNode S s (ofSlots (Function.update f (p)
        (.bucket (ms.set j { m with value := value }))) bat) := by
  have hi : p < slots := hp ▸ mask_lt hash d
  simp only [put]
  rw [hp, bitGet_dataMap hi, vecGet_bucket hi hsl, hsl]
  simp only [Slot.front, Option.isSome_some, if_true, ok_bind, hj, vecGet_of_getElem? hm,
    copyAndSetValue_ofSlots hi hsl hm]

theorem put_of_room (hj : ms.findIdx? (fun m => m.key = key) = none)
    (hlen : ms.length < maxCollisions) :
    put S (fuel + 1) s (ofSlots f bat) key hash d expected value bitWidth maxCollisions H ourHash =
      writeNode S s (ofSlots (Function.update f (p)
        (.bucket (sortEntries (ms ++ [⟨key, value⟩])))) bat) := by
  have hi : p < slots := hp ▸ mask_lt hash d
  simp only [put]
  rw [hp, bitGet_dataMap hi, vecGet_bucket hi hsl, hsl]
  simp only [Slot.front, Option.isSome_some, if_true, ok_bind, hj, if_pos hlen,
    insertIntoPrefix_ofSlots hi hsl]

theorem put_of_full (hj : ms.findIdx? (fun m => m.key = key) = none)
    (hlen : ¬ ms.length < maxCollisions) :
    put S (fuel + 1) s (ofSlots f bat) key hash d expected value bitWidth maxCollisions H ourHash =
      (do let r ← pushMappingsDownALevel S (fun s c k h v our => put S fuel s c k h (d + 1) none v
            bitWidth maxCollisions H our) s (ofSlots f bat) ms key hash value (d + 1) H
          writeNode S r.2 (ofSlots (Function.update f p (.shard r.1.2)) bat)) := by
  have hi : p < slots := hp ▸ mask_lt hash d
  simp only [put]
  rw [hp, bitGet_dataMap hi, vecGet_bucket hi hsl, hsl]
  simp only [Slot.front, Option.isSome_some, if_true, ok_bind, hj, if_neg hlen,
    copyAndMigrateFromInlineToNode_ofSlots hi hsl]

omit hsl in
theorem put_of_shard {cid : Cid} {child : Champ} (hsl : f p = .shard cid)
    (hload : loadLink S s cid = .ok child) :
    put S (fuel + 1) s (ofSlots f bat) key hash d expected value bitWidth maxCollisions H ourHash =
      (do let r ← put S fuel s child key hash (d + 1) expected value bitWidth maxCollisions H cid
          if r.1.2 = cid then .ok ((ofSlots f bat, ourHash), r.2)
          else writeNode S r.2 (ofSlots (Function.update f p (.shard r.1.2)) bat)) := by
  have hi : p < slots := hp ▸ mask_lt hash d
  have hlink : (ofSlots f bat).childLink hash d bitWidth = .ok cid :=
    childLink_shard (hp.symm ▸ hsl)
  conv_lhs => simp only [put]
  rw [hp, bitGet_dataMap hi, bitGet_nodeMap hi, hsl]
  simp only [Slot.front, Slot.back, Option.isSome_some, Option.isSome_none, if_true,
    Bool.false_eq_true, if_false, getChildWithHash, hlink, hload, ok_bind,
    overwriteChildLink_ofSlots hi hsl]

end Branches

/-- `put` keeps the tree canonical, or fails for a reason. -/
theorem put_ensures (hL : S.Lawful sha256) (hbat : BatReadable bat) {fuel d : ℕ}
    (hfuel : hashCodeLength ≤ fuel + d) {expected : Option CborObject} :
    PutSpec S sha256 H bat d expected fun s c key hash value ourHash =>
      put S fuel s c key hash d expected value bitWidth maxHashCollisionsPerLevel H ourHash := by
  induction fuel generalizing d expected with
  | zero =>
      intro s c es key value ourHash h
      have := h.level_lt
      omega
  | succ fuel ih =>
      intro s c es key value ourHash h hs hn hv hpath hst
      obtain ⟨hd, f, rfl, hf⟩ := canonical_iff.1 h
      have hmask : mask (H key) d bitWidth = slotOf H d key := rfl
      have hne : ∀ j < slots, j ≠ slotOf H d key →
          inSlot H d j (upsert ⟨key, value⟩ es) = inSlot H d j es :=
        fun j _ hj => inSlot_upsert_of_ne hs (Ne.symm hj)
      have hself : inSlot H d (slotOf H d key) (upsert ⟨key, value⟩ es) =
        upsert ⟨key, value⟩ (inSlot H d (slotOf H d key) es) := inSlot_upsert_self hs ⟨key, value⟩
      have hsort : SortedEntries (inSlot H d (slotOf H d key) es) := sorted_inSlot hs
      have hn' := hn.inSlot H d (slotOf H d key)
      have hpath' := hpath.inSlot
      have hmem : ∀ m ∈ es, m.key = key → m ∈ inSlot H d (slotOf H d key) es := by
        rintro m hm rfl
        exact mem_inSlot.2 ⟨hm, rfl⟩
      have hmem' : ∀ m ∈ inSlot H d (slotOf H d key) es, m ∈ es :=
        fun m hm => (mem_inSlot.1 hm).1
      have hslot := hf _ (slotOf_lt H d key)
      generalize inSlot H d (slotOf H d key) es = ei at *
      have hup : Slot.ofEntries (upsert ⟨key, value⟩ ei) = .bucket (upsert ⟨key, value⟩ ei) :=
        Slot.ofEntries_of_ne_nil (upsert_ne_nil _ _)
      rcases hslot with ⟨hlen, hsl⟩ | ⟨hlen, cid, child, hsl, hcid, hchild⟩
      · by_cases hei : ei = []
        · subst hei
          have hone : upsert ⟨key, value⟩ [] = [⟨key, value⟩] := rfl
          simp only [put_of_empty hmask hsl]
          refine (writeSlot_ensures hL hd hf (.refl s) hne (Or.inl ⟨?_, ?_⟩)).mono ?_
            fun _ h => .store h
          · rw [hself, hone]
            exact Nat.succ_le_of_lt (by decide)
          · rw [hself, hone]
            rfl
          · rintro r hr
            exact ⟨hr, fun m hm hk => absurd (hmem m hm hk) (by simp)⟩
        · rw [Slot.ofEntries_of_ne_nil hei] at hsl
          cases hj : ei.findIdx? (fun m => m.key = key) with
          | some j =>
              obtain ⟨m, hm, hk⟩ := findIdx?_some hj
              have hmei : m ∈ ei := List.mem_of_getElem? hm
              simp only [put_of_mapped hmask hsl hj hm]
              by_cases hexp : m.value = expected
              · rw [if_neg (by simpa using hexp),
                  show ei.set j { m with value := value } = upsert ⟨key, value⟩ ei from
                    hk ▸ Keyed.set_eq_upsert hsort hm rfl, ← hup]
                have hlen' : (upsert ⟨key, value⟩ ei).length = ei.length :=
                  Keyed.length_upsert_of_mem hsort hmei hk.symm
                refine (writeSlot_ensures hL hd hf (.refl s) hne (Or.inl ⟨?_, ?_⟩)).mono ?_
                  fun _ h => .store h
                · rw [hself, hlen']
                  exact hlen
                · rw [hself]
                · rintro r hr
                  refine ⟨hr, fun m' hm' hk' => ?_⟩
                  rw [hsort.eq_of_key_eq (hmem m' hm' hk') hmei (hk'.trans hk.symm), hexp]
              · rw [if_pos hexp]
                exact .cas (hmem' m hmei) hk hexp
          | none =>
              have hnew := findIdx?_none hj
              have hnew' : ∀ m ∈ es, m.key = key → m.value = expected :=
                fun m hm hk => absurd hk (Keyed.lookup_eq_none.1 hnew m (hmem m hm hk))
              by_cases hroom : ei.length < maxHashCollisionsPerLevel
              · simp only [put_of_room hmask hsl hj hroom]
                rw [show sortEntries (ei ++ [⟨key, value⟩]) = upsert ⟨key, value⟩ ei from
                  Keyed.sortByKey_append_singleton hsort hnew, ← hup]
                refine (writeSlot_ensures hL hd hf (.refl s) hne (Or.inl ⟨?_, ?_⟩)).mono
                  (fun r hr => ⟨hr, hnew'⟩) fun _ h => .store h
                · rw [hself, show (upsert ⟨key, value⟩ ei).length = ei.length + 1 from Keyed.length_upsert hnew]
                  omega
                · rw [hself]
              · simp only [put_of_full hmask hsl hj hroom]
                have hall : SharesPath H (d + 1) key (upsert ⟨key, value⟩ ei) := by
                  intro m hm j hj
                  rcases Keyed.mem_upsert.1 hm with rfl | ⟨hm, -⟩
                  · rfl
                  · exact hpath' m hm j hj
                refine Ensures.bind ((pushMappingsDownALevel_ensures hL (ih (by omega)) rfl hsort
                  (a := ⟨key, value⟩) (noNull_upsert hn' hv) hall hnew (by omega)).mono
                  (fun _ h => h) ?_) ?_
                · rintro e (he | ⟨rfl, he⟩)
                  · exact .store he
                  · refine .collision (he.mono ?_)
                    intro m hm
                    rw [← hself] at hm
                    exact ⟨m, (mem_inSlot.1 hm).1, rfl⟩
                · rintro ⟨⟨c₁, h₁⟩, s₁⟩ hr
                  refine (writeSlot_ensures hL hd hf hr.keeps hne (Or.inr ⟨?_, ?_⟩)).mono
                    (fun r hr => ⟨hr, hnew'⟩) fun _ h => .store h
                  · rw [hself, show (upsert ⟨key, value⟩ ei).length = ei.length + 1 from Keyed.length_upsert hnew]
                    omega
                  · rw [hself]
                    exact ⟨h₁, c₁, rfl, hr.stored, hr.canonical⟩
      · have hload := loadLink_of_stored hchild hn' hbat hcid
        simp only [put_of_shard hmask hsl hload]
        refine Ensures.bind ((ih (by omega) s child ei key value cid hchild hsort hn' hv hpath'
          hcid).mono (fun _ h => h) ?_) ?_
        · rintro e (he | ⟨hm, hk, hne⟩ | he)
          · exact .store he
          · exact .cas (hmem' _ hm) hk hne
          · refine .collision (he.mono ?_)
            intro m hm
            rw [← hself] at hm
            exact ⟨m, (mem_inSlot.1 hm).1, rfl⟩
        · rintro ⟨⟨c₁, h₁⟩, s₁⟩ ⟨hr, hexp⟩
          have hexp' : ∀ m ∈ es, m.key = key → m.value = expected :=
            fun m hm hk => hexp m (hmem m hm hk) hk
          have hle : ei.length ≤ (upsert ⟨key, value⟩ ei).length :=
            Keyed.length_le_upsert hsort _
          -- the child may hash to what it was: then the link already leads to the new child
          have hslot : SlotHolds S sha256 H bat s₁ (d + 1) (.shard h₁)
              (inSlot H d (slotOf H d key) (upsert ⟨key, value⟩ es)) := by
            rw [hself]
            exact Or.inr ⟨by omega, h₁, c₁, rfl, hr.stored, hr.canonical⟩
          by_cases hsame : h₁ = cid
          · rw [if_pos hsame]
            have := Canonical.update hd hf hr.keeps hne hslot
            rw [hsame, ← hsl, Function.update_eq_self] at this
            exact ⟨⟨this, hst.mono hr.keeps, hr.keeps⟩, hexp'⟩
          · rw [if_neg hsame]
            exact (writeSlot_ensures hL hd hf hr.keeps hne hslot).mono
              (fun r hr => ⟨hr, hexp'⟩) fun _ h => .store h

end Insert

end Champ

end Peergos
