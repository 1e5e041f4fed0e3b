import PeergosClient.Champ.Fitting
import PeergosClient.Core.Mutable

/-!
# Nodes a server makes up

The calls do not panic on a node just if the node fits: for each index that is not inside there is a
call, and a server that sends nodes that fit, on which it is used.
-/

namespace Peergos

namespace Champ

open ChampMerge

/-! ## Nodes that do not fit -/

/-- A storage that gives the same answer to every call. -/
def answering (found : Option CborObject) (link : Cid) : ContentAddressedStorage Unit :=
  ⟨fun _ _ => .ok found, fun _ _ => .ok (link, ())⟩

theorem answering_serves {P : CborObject → Prop} {found : Option CborObject} (link : Cid)
    (h : ∀ b, found = some b → P b) : ServesOnly (answering found link) P where
  get _ _ := nofun
  put _ _ := nofun
  block _ _ b hb := h b (Except.ok.inj hb)

theorem mask_zero {p : ℕ} (hp : p < slots) : mask [UInt8.ofNat p] 0 bitWidth = p := by
  have hp' : p < 8 := hp
  interval_cases p <;> decide

theorem mask_one {p : ℕ} (hp : p < slots) : mask [UInt8.ofNat p] 1 bitWidth = 0 := by
  have hp' : p < 8 := hp
  interval_cases p <;> decide

section Pushed

variable {key : Bytes} {link : Cid} {f : ℕ → Slot} {bat : Option BatId}

/-- A hasher that tells one key from all others, two levels down. -/
def apart (key : Bytes) : KeyHasher := fun k => if k = key then [] else [64]

/-- The server has an empty node under every link. -/
def emptyNodes (link : Cid) : ContentAddressedStorage Unit := answering (some empty.toCbor) link

theorem put_emptyNodes (b : CborObject) : (emptyNodes link).put () b = .ok (link, ()) := rfl

theorem writeNode_emptyNodes (c : Champ) :
    writeNode (emptyNodes link) () c = .ok ((c, link), ()) := rfl

theorem put_below_shard (hslot : f 0 = .shard link) {k : Bytes} (hk : k ≠ key)
    (v : Option CborObject) (ourHash : Cid) :
    put (emptyNodes link) 2 () (ofSlots f bat) k (apart key k) 1 none v bitWidth 0 (apart key)
      ourHash = .ok ((ofSlots f bat, ourHash), ()) := by
  have hload : loadLink (emptyNodes link) () link = .ok (ofSlots (fun _ => .empty) none) :=
    eq_ok_of_toOption rfl
  rw [apart, if_neg hk, put_of_shard (p := 0) (by decide) hslot hload,
    put_of_empty (p := 1) (by decide) rfl, writeNode_emptyNodes, ok_bind, if_pos rfl]

theorem foldlM_below_shard (hslot : f 0 = .shard link) {ms : List KeyElement}
    (hms : ∀ m ∈ ms, m.key ≠ key) (ourHash : Cid) :
    ms.foldlM (fun (cur : (Champ × Cid) × Unit) e =>
      put (emptyNodes link) 2 cur.2 cur.1.1 e.key (apart key e.key) 1 none e.value bitWidth 0
        (apart key) cur.1.2) ((ofSlots f bat, ourHash), ()) =
      .ok ((ofSlots f bat, ourHash), ()) := by
  induction ms with
  | nil => rfl
  | cons e ms ih =>
      rw [List.foldlM_cons, put_below_shard hslot (hms e List.mem_cons_self), ok_bind]
      exact ih fun m hm => hms m (List.mem_cons_of_mem _ hm)

/-- With no room in any bucket the mappings of a node go down past a server that sends empty
nodes, whatever they are. -/
theorem pushMappingsDownALevel_emptyNodes {c : Champ} {ms : List KeyElement}
    (hms : ∀ m ∈ ms, m.key ≠ key) {hash : Bytes} (hhash : mask hash 1 bitWidth = 0)
    (value : Option CborObject) :
    ∃ r, pushMappingsDownALevel (emptyNodes link) (fun s c k h v our =>
      put (emptyNodes link) 2 s c k h 1 none v bitWidth 0 (apart key) our) () c ms key hash value 1
        (apart key) = .ok r := by
  have hstart : ∀ ourHash, put (emptyNodes link) 2 () (ofSlots (fun _ => .empty) c.mirrorBat) key
      hash 1 none value bitWidth 0 (apart key) ourHash =
        .ok ((ofSlots (Function.update (fun _ => .empty) 0 (.bucket [⟨key, value⟩])) c.mirrorBat,
          link), ()) := fun ourHash => by
    rw [put_of_empty hhash rfl]
    rfl
  unfold pushMappingsDownALevel
  rw [if_neg (by decide), empty_withBat]
  dsimp only
  rw [put_emptyNodes, ok_bind]
  dsimp only
  rw [hstart, ok_bind]
  cases ms with
  | nil => exact ⟨_, rfl⟩
  | cons e ms =>
      have hne : e.key ≠ key := hms e List.mem_cons_self
      -- the first mapping meets the new one, and both go down another level
      have hfirst : put (emptyNodes link) 2 () (ofSlots (Function.update (fun _ => .empty) 0
          (.bucket [⟨key, value⟩])) c.mirrorBat) e.key (apart key e.key) 1 none e.value bitWidth 0
            (apart key) link =
          .ok ((ofSlots (Function.update (Function.update (fun _ => .empty) 0
            (.bucket [⟨key, value⟩])) 0 (.shard link)) c.mirrorBat, link), ()) := by
        have hbucket : Function.update (fun _ => Slot.empty) 0 (.bucket [⟨key, value⟩]) 0 =
            .bucket [⟨key, value⟩] := Function.update_self ..
        rw [show apart key e.key = [64] from if_neg hne, put_of_full (p := 0) (by decide) hbucket
          (by simp [hne.symm]) (Nat.not_lt_zero _)]
        unfold pushMappingsDownALevel
        rw [if_neg (by decide), ofSlots_mirrorBat, empty_withBat]
        dsimp only
        rw [put_emptyNodes, ok_bind]
        dsimp only
        rw [put_of_empty (p := 1) (by decide) rfl, writeNode_emptyNodes, ok_bind, List.foldlM_cons,
          show apart key key = [] from if_pos rfl, put_of_empty (p := 0) (by decide) rfl]
        rfl
      rw [List.foldlM_cons, hfirst, ok_bind]
      exact ⟨_, foldlM_below_shard (Function.update_self ..)
        (fun m hm => hms m (List.mem_cons_of_mem _ hm)) link⟩

end Pushed

theorem vecGet_of_le {α : Type} {v : List α} {i : ℕ} (h : v.length ≤ i) :
    vecGet v i = .error .panic := by
  rw [vecGet, List.getElem?_eq_none h]

theorem linkIndex_of_le {c : Champ} {p : ℕ} (h : c.contents.length ≤ getIndex c.nodeMap p) :
    c.linkIndex p = .error .panic := by
  unfold linkIndex usizeSub
  split
  · rw [ok_bind, if_neg (by omega)]
  · rfl

/-- With the running counts a slot is found, or the count goes below zero. -/
theorem getElement_cases (c : Champ) (i dataIndex nodeIndex : ℕ) :
    getElement i dataIndex nodeIndex (some c) = .error .panic ∨
      getElement i dataIndex nodeIndex (some c) = .ok (c.slotPayload i dataIndex nodeIndex) := by
  unfold getElement slotPayload usizeSub
  dsimp only
  split
  · exact Or.inr rfl
  · split
    · split
      · rw [ok_bind]
        split
        · exact Or.inr rfl
        · exact Or.inl rfl
      · exact Or.inl rfl
    · exact Or.inr rfl

theorem diffSlots_running (c : Champ) (order : HashOrder) (i : ℕ) :
    (List.range i).foldlM (diffSlot order [] (some c) none [] [] 0) ⟨0, 0, 0, 0, [], []⟩ =
        .error .panic ∨
      ∃ st, (List.range i).foldlM (diffSlot order [] (some c) none [] [] 0) ⟨0, 0, 0, 0, [], []⟩ =
        .ok st ∧ (st.ld, st.ln) = c.running i := by
  induction i with
  | zero => exact Or.inr ⟨_, rfl, rfl⟩
  | succ i ih =>
      rw [List.range_succ, List.foldlM_append]
      rcases ih with hpanic | ⟨st, hst, hcounts⟩
      · exact Or.inl (by rw [hpanic, error_bind])
      · rw [hst, ok_bind, List.foldlM_cons]
        obtain ⟨hd, hn⟩ := Prod.mk.inj hcounts
        unfold diffSlot
        rw [hd, hn]
        rcases getElement_cases c i (c.running i).1 (c.running i).2 with hpanic | hfound
        · exact Or.inl (by rw [hpanic]; rfl)
        · rw [hfound]
          refine Or.inr ?_
          simp only [getElement, ok_bind]
          split
          · exact ⟨_, rfl, rfl⟩
          · exact ⟨_, rfl, rfl⟩

/-! ## Exactly the nodes that fit -/

/-- What a server may send that sends one block, and otherwise nodes that fit. -/
def Sent (cbor b : CborObject) : Prop := b = cbor ∨ FitBlock b

/-- No call on the node panics, and no walk that may come to its block. -/
structure CallsSafe (cbor : CborObject) (c : Champ) : Prop where
  get : ∀ {σ : Type} (S : ContentAddressedStorage σ), ServesOnly S (Sent cbor) →
    ∀ fuel s key hash depth, NoPanic (c.get S fuel s key hash depth bitWidth)
  put : ∀ {σ : Type} (S : ContentAddressedStorage σ), ServesOnly S (Sent cbor) →
    ∀ fuel s key hash depth expected value maxCollisions keyHasher ourHash,
      NoPanic (c.put S fuel s key hash depth expected value bitWidth maxCollisions keyHasher
        ourHash)
  remove : ∀ {σ : Type} (S : ContentAddressedStorage σ), ServesOnly S (Sent cbor) →
    ∀ fuel s key hash depth expected maxCollisions ourHash,
      NoPanic (c.remove S fuel s key hash depth expected bitWidth maxCollisions ourHash)
  diff : ∀ {σ : Type} (S : ContentAddressedStorage σ), ServesOnly S (Sent cbor) →
    ∀ fuel s order path original updated depth higherLeft higherRight out,
      NoPanic (diff S fuel s order path original updated depth higherLeft higherRight out)
  walk : ∀ {σ : Type} (raw : RawReads σ), ServesRawOnly raw (Sent cbor) →
    ∀ fuel s current mapKey depth gathered,
      NoPanic (champWalkOne raw s fuel current mapKey depth gathered)

section Exactly

variable {cbor : CborObject} {c : Champ} {p : ℕ}

theorem Fits.callsSafe (hcbor : fromCbor cbor = .ok c) (hc : c.Fits) : CallsSafe cbor c := by
  have hsent : ∀ b, Sent cbor b → FitBlock b := by
    rintro b (rfl | hb)
    · intro c' hc'
      cases hcbor.symm.trans hc'
      exact hc
    · exact hb
  have hserves : ∀ {σ : Type} {S : ContentAddressedStorage σ}, ServesOnly S (Sent cbor) →
      ServesOnly S FitBlock :=
    fun hS => ⟨hS.get, hS.put, fun s cid b hb => hsent b (hS.block s cid b hb)⟩
  refine ⟨fun S hS fuel s key hash depth => ?_, fun S hS fuel s key hash depth expected value
    maxCollisions keyHasher ourHash => ?_, fun S hS fuel s key hash depth expected maxCollisions
    ourHash => ?_, fun S hS fuel s order path original updated depth left right out => ?_,
    fun raw hraw fuel s current mapKey depth gathered => ?_⟩
  · exact (safe_get (hserves hS) fuel s c key hash depth hc).noPanic
  · exact (safe_put (hserves hS) fuel s c key hash depth expected value maxCollisions keyHasher
      ourHash hc).noPanic
  · exact (safe_remove (hserves hS) fuel s c key hash depth expected maxCollisions ourHash
      hc).noPanic
  · exact (safe_diff (hserves hS) fuel s order path original updated depth left right out).noPanic
  · exact (safe_champWalkOne ⟨hraw.get, fun s cid bytes b hb hparse =>
      hsent b (hraw.block s cid bytes b hb hparse)⟩ s fuel current mapKey depth gathered).noPanic

theorem nothing_serves (link : Cid) : ServesOnly (answering none link) (Sent cbor) :=
  answering_serves link nofun

theorem CallsSafe.data_lt (h : CallsSafe cbor c) (hp : p < slots)
    (hbit : bitGet c.dataMap p = true) : getIndex c.dataMap p < c.contents.length := by
  by_contra hlen
  refine h.get _ (nothing_serves (byteCid 0)) 1 () [] [UInt8.ofNat p] 0 ?_
  unfold Champ.get
  dsimp only
  rw [mask_zero hp, if_pos hbit, vecGet_of_le (by omega)]
  rfl

theorem CallsSafe.node_lt (h : CallsSafe cbor c) (hp : p < slots)
    (hfree : bitGet c.dataMap p = false) (hnode : bitGet c.nodeMap p = true) :
    getIndex c.nodeMap p < c.contents.length := by
  by_contra hlen
  refine h.get _ (nothing_serves (byteCid 0)) 1 () [] [UInt8.ofNat p] 0 ?_
  unfold Champ.get getChild childLink
  dsimp only
  rw [mask_zero hp, hfree, hnode, if_neg Bool.false_ne_true, if_pos rfl,
    linkIndex_of_le (by omega)]
  rfl

theorem CallsSafe.counted_lt (h : CallsSafe cbor c) (hcbor : fromCbor cbor = .ok c) (hp : p < slots)
    (hfree : bitGet c.dataMap p = false) (hnode : bitGet c.nodeMap p = true) :
    (c.running p).2 < c.contents.length := by
  by_contra hlen
  refine h.diff (answering (some cbor) (byteCid 0)) (answering_serves _ ?_) 1 () (fun _ l => l) []
    (some (byteCid 0)) none 0 [] [] [] ?_
  · rintro _ ⟨⟩
    exact Or.inl rfl
  · have hsplit : List.range slots =
        List.range p ++ (p :: List.range' (p + 1) (slots - (p + 1))) := by
      have hp' : p < 8 := hp
      interval_cases p <;> rfl
    have hload : loadChamp (answering (some cbor) (byteCid 0)) () (some (byteCid 0)) =
        .ok (some c) := by
      show (fromCbor cbor >>= fun champ => .ok (some champ)) = _
      rw [hcbor, ok_bind]
    unfold ChampMerge.diff
    rw [if_neg (Option.some_ne_none _), hload, ok_bind,
      show loadChamp _ () none = .ok none from rfl, ok_bind, hsplit, List.foldlM_append]
    rcases diffSlots_running c (fun _ l => l) p with hpanic | ⟨st, hst, hcounts⟩
    · rw [hpanic]
      rfl
    · obtain ⟨-, hn⟩ := Prod.mk.inj hcounts
      have hpanic : getElement p st.ld st.ln (some c) = .error .panic := by
        unfold getElement usizeSub
        dsimp only
        rw [hfree, hnode, if_neg Bool.false_ne_true, if_pos rfl, hn]
        split
        · rw [ok_bind, if_neg (by omega)]
          rfl
        · rfl
      rw [hst, ok_bind, List.foldlM_cons, diffSlot, hpanic]
      rfl

theorem CallsSafe.pushed_lt (h : CallsSafe cbor c) (hp : p < slots)
    (hbit : bitGet c.dataMap p = true)
    (hbucket : (c.contents[getIndex c.dataMap p]?).map Payload.isShard = some false) :
    getIndex c.nodeMap p < c.contents.length := by
  by_contra hlen
  obtain ⟨ms, hms⟩ : ∃ ms, c.contents[getIndex c.dataMap p]? = some (.mappings ms) := by
    obtain ⟨payload, hpayload, hshard⟩ := Option.map_eq_some_iff.1 hbucket
    cases payload with
    | mappings ms => exact ⟨ms, hpayload⟩
    | link cid => cases hshard
  -- a key that the bucket does not have
  obtain ⟨key, hkey⟩ := Infinite.exists_notMem_finset (ms.map (·.key)).toFinset
  have hkey' : ∀ m ∈ ms, m.key ≠ key := by
    rintro m hm rfl
    exact hkey (List.mem_toFinset.2 (List.mem_map_of_mem hm))
  have hserves : ServesOnly (emptyNodes (byteCid 0)) (Sent cbor) := by
    refine answering_serves _ ?_
    rintro _ ⟨⟩
    refine Or.inr fun c' hc' => ?_
    have hempty : fromCbor empty.toCbor = .ok empty := eq_ok_of_toOption rfl
    cases hempty.symm.trans hc'
    decide
  refine h.put _ hserves 3 () key [UInt8.ofNat p] 0 none none 0 (apart key) (byteCid 0) ?_
  have hfind : ms.findIdx? (fun m => m.key = key) = none := by
    simpa [List.findIdx?_eq_none_iff] using hkey'
  obtain ⟨r, hr⟩ := @pushMappingsDownALevel_emptyNodes key (byteCid 0) c ms hkey' _ (mask_one hp)
    none
  unfold Champ.put
  dsimp only
  rw [mask_zero hp, if_pos hbit, vecGet_of_getElem? hms, ok_bind]
  dsimp only
  rw [hfind]
  dsimp only
  rw [if_neg (Nat.not_lt_zero _), hr, ok_bind]
  unfold copyAndMigrateFromInlineToNode
  rw [linkIndex_of_le (by omega)]
  rfl

/-- A node whose only bucket has one mapping too many. -/
def crowdedNode : Champ :=
  ⟨[1], [], [.mappings ([0, 1, 2, 3, 4].map fun n => ⟨[n], none⟩)], none⟩

/-- The removal of a mapping leaves a bucket that its parent takes in. -/
theorem remove_crowdedNode (hp : p < slots) (found : Option CborObject) (link childLink : Cid) :
    ∃ node, remove (answering found link) 1 () crowdedNode [0] [UInt8.ofNat p] 1 none bitWidth 4
        childLink = .ok ((node, link), ()) ∧
      node.contents.isEmpty = false ∧ node.nodeCount = 0 ∧ node.keyCount = 4 := by
  have hp' : p < 8 := hp
  interval_cases p <;> exact ⟨_, rfl, rfl, rfl, rfl⟩

theorem CallsSafe.inlined_lt (h : CallsSafe cbor c) (hp : p < slots)
    (hfree : bitGet c.dataMap p = false) (hnode : bitGet c.nodeMap p = true)
    (hlink : (c.contents[c.contents.length - 1 - getIndex c.nodeMap p]?).map Payload.isShard =
      some true) (hmore : ¬(c.keyCount = 0 ∧ c.nodeCount = 1)) :
    getIndex c.dataMap p < c.contents.length := by
  by_contra hlen
  have hn := h.node_lt hp hfree hnode
  obtain ⟨cid, hcid⟩ :
      ∃ cid, c.contents[c.contents.length - 1 - getIndex c.nodeMap p]? = some (.link cid) := by
    obtain ⟨payload, hpayload, hshard⟩ := Option.map_eq_some_iff.1 hlink
    cases payload with
    | mappings ms => cases hshard
    | link cid => exact ⟨cid, hpayload⟩
  -- the shrunk child is not written under the link that led to it
  obtain ⟨link, hne⟩ : ∃ link, link ≠ cid := by
    by_cases heq : byteCid 0 = cid
    · exact ⟨byteCid 1, by rw [← heq]; decide⟩
    · exact ⟨byteCid 0, heq⟩
  have hcrowded : fromCbor crowdedNode.toCbor = .ok crowdedNode := eq_ok_of_toOption rfl
  have hserves : ServesOnly (answering (some crowdedNode.toCbor) link) (Sent cbor) := by
    refine answering_serves _ ?_
    rintro _ ⟨⟩
    refine Or.inr fun c' hc' => ?_
    cases hcrowded.symm.trans hc'
    decide
  refine h.remove _ hserves 2 () [0] [UInt8.ofNat p] 0 none 4 (byteCid 0) ?_
  obtain ⟨node, hremove, hfull, hlinks, hkeys⟩ :=
    remove_crowdedNode hp (some crowdedNode.toCbor) link cid
  have hchild : getChildWithHash (answering (some crowdedNode.toCbor) link) () c [UInt8.ofNat p] 0
      bitWidth = .ok (cid, crowdedNode) := by
    unfold getChildWithHash childLink
    dsimp only
    rw [mask_zero hp, linkIndex_of_lt hn, ok_bind, vecGet_of_getElem? hcid, ok_bind]
    dsimp only
    have hload : loadLink (answering (some crowdedNode.toCbor) link) () cid = .ok crowdedNode :=
      hcrowded
    rw [ok_bind, hload, ok_bind]
  unfold Champ.remove
  dsimp only
  rw [mask_zero hp, hfree, hnode, if_neg Bool.false_ne_true, if_pos rfl, hchild, ok_bind]
  dsimp only
  rw [hremove, ok_bind, removedBelow, if_neg hne, hfull, if_neg Bool.false_ne_true,
    if_pos ⟨hlinks, hkeys⟩, if_neg hmore, copyAndMigrateFromNodeToInline, linkIndex_of_lt hn,
    ok_bind, vecRemove_of_lt (by omega), ok_bind]
  unfold vecInsert
  rw [if_neg]
  · rfl
  · rw [List.length_eraseIdx_of_lt (by omega)]
    omega

/-- A node with a bucket and a link. -/
def twoSlotNode : Champ := ⟨[1], [2], [.mappings [⟨[0], none⟩], .link (byteCid 7)], none⟩

/-- A node that promises a bucket and has none. -/
def bareNode : CborObject := .list [.byteString [1], .byteString [], .list []]

end Exactly

end Champ

end Peergos
