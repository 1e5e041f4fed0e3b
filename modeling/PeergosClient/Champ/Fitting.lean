import PeergosClient.Champ.Lookup

/-!
# Nodes whose indices are inside

A node is read from whatever block a server sends, and nothing relates its two bitmaps to the number
of its payloads.  The calls compute every index from the bitmaps: the buckets count from the front,
the links from the end.  `Fits` says of a node that all these indices are inside.  On nodes that fit
no call panics, whatever the server makes of the tree.
-/

namespace Peergos

open Outcome (Ensures)

namespace Champ

open ChampMerge

/-! ## The indices of a slot -/

/-- What `get_element` finds in a slot, for the counts of buckets and links before it. -/
def slotPayload (c : Champ) (i dataIndex nodeIndex : ℕ) : Option Payload :=
  if bitGet c.dataMap i then c.contents[dataIndex]?
  else if bitGet c.nodeMap i then c.contents[c.contents.length - 1 - nodeIndex]?
  else none

/-- The running counts of buckets and links with which `diff` comes to a slot. -/
def running (c : Champ) : ℕ → ℕ × ℕ
  | 0 => (0, 0)
  | i + 1 =>
      let p := c.slotPayload i (c.running i).1 (c.running i).2
      ((c.running i).1 + dataStep p, (c.running i).2 + nodeStep p)

/-- The indices computed at one slot are inside. -/
structure SlotFits (c : Champ) (p : ℕ) : Prop where
  /-- The index of the bucket. -/
  data : bitGet c.dataMap p = true → getIndex c.dataMap p < c.contents.length
  /-- The index of the link that takes the place of a bucket. -/
  pushed : bitGet c.dataMap p = true →
    (c.contents[getIndex c.dataMap p]?).map Payload.isShard = some false →
      getIndex c.nodeMap p < c.contents.length
  /-- The index of the link. -/
  node : bitGet c.dataMap p = false → bitGet c.nodeMap p = true →
    getIndex c.nodeMap p < c.contents.length
  /-- The index of the link with the running count. -/
  counted : bitGet c.dataMap p = false → bitGet c.nodeMap p = true →
    (c.running p).2 < c.contents.length
  /-- The index of the bucket that takes the place of a link, unless the link is all there is. -/
  inlined : bitGet c.dataMap p = false → bitGet c.nodeMap p = true →
    (c.contents[c.contents.length - 1 - getIndex c.nodeMap p]?).map Payload.isShard = some true →
      ¬(c.keyCount = 0 ∧ c.nodeCount = 1) → getIndex c.dataMap p < c.contents.length

instance (c : Champ) (p : ℕ) : Decidable (c.SlotFits p) :=
  decidable_of_iff
    ((bitGet c.dataMap p = true → getIndex c.dataMap p < c.contents.length) ∧
      (bitGet c.dataMap p = true →
        (c.contents[getIndex c.dataMap p]?).map Payload.isShard = some false →
          getIndex c.nodeMap p < c.contents.length) ∧
      (bitGet c.dataMap p = false → bitGet c.nodeMap p = true →
        getIndex c.nodeMap p < c.contents.length) ∧
      (bitGet c.dataMap p = false → bitGet c.nodeMap p = true →
        (c.running p).2 < c.contents.length) ∧
      (bitGet c.dataMap p = false → bitGet c.nodeMap p = true →
        (c.contents[c.contents.length - 1 - getIndex c.nodeMap p]?).map Payload.isShard =
          some true → ¬(c.keyCount = 0 ∧ c.nodeCount = 1) →
            getIndex c.dataMap p < c.contents.length))
    ⟨fun ⟨h₁, h₂, h₃, h₄, h₅⟩ => ⟨h₁, h₂, h₃, h₄, h₅⟩,
      fun ⟨h₁, h₂, h₃, h₄, h₅⟩ => ⟨h₁, h₂, h₃, h₄, h₅⟩⟩

/-- All indices the calls compute are inside. -/
def Fits (c : Champ) : Prop := ∀ p < slots, c.SlotFits p

instance (c : Champ) : Decidable c.Fits := inferInstanceAs (Decidable (∀ p < slots, c.SlotFits p))

theorem getIndex_succ (bitmap : Bytes) (p : ℕ) :
    getIndex bitmap (p + 1) = getIndex bitmap p + (bitGet bitmap p).toNat :=
  Rank.rank_succ (bitGet bitmap) p

/-- There is room for a new bucket. -/
theorem Fits.dataIndex_le {c : Champ} (h : c.Fits) {p : ℕ} (hp : p ≤ slots) :
    getIndex c.dataMap p ≤ c.contents.length := by
  induction p with
  | zero => exact Nat.zero_le _
  | succ p ih =>
      rw [getIndex_succ]
      cases hbit : bitGet c.dataMap p with
      | false => exact ih (by omega)
      | true => exact (h p (by omega)).data hbit

/-! ## The nodes the calls build -/

/-- The layout of an assignment of slots. -/
def Packed (c : Champ) : Prop := ∃ f bat, c = ofSlots f bat

theorem running_ofSlots (f : ℕ → Slot) (bat : Option BatId) {i : ℕ} (hi : i ≤ slots) :
    (ofSlots f bat).running i =
      (Rank.rank (fun j => (f j).front.isSome) i, Rank.rank (fun j => (f j).back.isSome) i) := by
  induction i with
  | zero => rfl
  | succ i ih =>
      have hlt : i < slots := hi
      rw [running, ih hlt.le, Rank.rank_succ, Rank.rank_succ, slotPayload, bitGet_dataMap hlt,
        bitGet_nodeMap hlt]
      cases hslot : f i with
      | empty => rfl
      | bucket ms =>
          have hget := Rank.twoEnded_front_getElem? hlt (f := fun j => (f j).front)
            (fun j => (f j).back) (x := .mappings ms) (by rw [hslot]; rfl)
          rw [ofSlots_contents, show (Slot.bucket ms).front = some (.mappings ms) from rfl,
            Option.isSome_some, if_pos rfl, hget]
          rfl
      | shard cid =>
          have hget := Rank.twoEnded_back_getElem? hlt (fun j => (f j).front)
            (g := fun j => (f j).back) (x := .link cid) (by rw [hslot]; rfl)
          rw [ofSlots_contents, show (Slot.shard cid).front = none from rfl,
            show (Slot.shard cid).back = some (.link cid) from rfl, Option.isSome_none,
            Option.isSome_some, if_neg Bool.false_ne_true, if_pos rfl, hget]
          rfl

theorem Packed.fits {c : Champ} (h : c.Packed) : c.Fits := by
  obtain ⟨f, bat, rfl⟩ := h
  intro p hp
  have hd := getIndex_dataMap f bat hp
  have hn := getIndex_nodeMap f bat hp
  have hlen : (ofSlots f bat).contents.length =
      (Rank.compress slots fun j => (f j).front).length +
        (Rank.compress slots fun j => (f j).back).length := by
    rw [ofSlots_contents, Rank.length_twoEnded]
  have hfront := Rank.rank_le_length hp fun j => (f j).front
  have hback := Rank.rank_le_length hp fun j => (f j).back
  have hdata : bitGet (ofSlots f bat).dataMap p = true →
      Rank.rank (fun j => (f j).front.isSome) p <
        (Rank.compress slots fun j => (f j).front).length := by
    intro hbit
    rw [bitGet_dataMap hp] at hbit
    obtain ⟨x, hx⟩ := Option.isSome_iff_exists.1 hbit
    exact Rank.rank_lt_length hp hx
  have hnode : bitGet (ofSlots f bat).nodeMap p = true →
      Rank.rank (fun j => (f j).back.isSome) p <
        (Rank.compress slots fun j => (f j).back).length := by
    intro hbit
    rw [bitGet_nodeMap hp] at hbit
    obtain ⟨x, hx⟩ := Option.isSome_iff_exists.1 hbit
    exact Rank.rank_lt_length hp hx
  refine ⟨fun hbit => ?_, fun hbit _ => ?_, fun _ hbit => ?_, fun _ hbit => ?_,
    fun _ hbit _ _ => ?_⟩
  · have := hdata hbit
    omega
  · have := hdata hbit
    omega
  · have := hnode hbit
    omega
  · have := hnode hbit
    rw [running_ofSlots f bat hp.le]
    dsimp only
    omega
  · have := hnode hbit
    omega

/-! ## Calls that do not panic -/

/-- The call does not panic. -/
def NoPanic {α : Type} (x : Result α) : Prop := x ≠ .error .panic

/-- The call returns such a value, or fails without a panic. -/
abbrev Safe {α : Type} (x : Result α) (post : α → Prop) : Prop := Ensures x post (· ≠ .panic)

section Safe

variable {α : Type} {x : Result α} {post : α → Prop}

theorem Safe.noPanic (h : Safe x post) : NoPanic x := by
  rintro rfl
  exact h rfl

theorem NoPanic.safe (h : NoPanic x) : Safe x fun a => x = .ok a := by
  cases x with
  | ok a => exact rfl
  | error e => exact fun he => h (congrArg _ he)

theorem Safe.any (h : Safe x post) : Safe x fun _ => True :=
  h.mono (fun _ _ => trivial) fun _ he => he

/-- What a call that did not fail came to is known beside what it ensures. -/
theorem Safe.and_eq (h : Safe x post) : Safe x fun a => post a ∧ x = .ok a := by
  cases x with
  | ok a => exact ⟨h, rfl⟩
  | error e => exact h

theorem safe_err (e : Error) : Safe (.error (.err e)) post := fun h => nomatch h

theorem safe_liftMf (y : Except MfError α) : Safe (liftMf y) fun _ => True := by
  cases y with
  | ok a => exact trivial
  | error e => exact safe_err _

theorem safe_liftCbor (y : Except CborError α) : Safe (liftCbor y) fun a => y = .ok a := by
  cases y with
  | ok a => exact rfl
  | error e => cases e <;> exact safe_err _

theorem safe_vecGet {v : List α} {i : ℕ} (h : i < v.length) :
    Safe (vecGet v i) fun a => v[i]? = some a := by
  rw [vecGet_of_getElem? (List.getElem?_eq_getElem h)]
  exact List.getElem?_eq_getElem h

theorem safe_vecSet {v : List α} {i : ℕ} (h : i < v.length) (a : α) :
    Safe (vecSet v i a) fun v' => v'.length = v.length := by
  rw [vecSet_of_lt h]
  exact List.length_set

theorem safe_vecInsert {v : List α} {i : ℕ} (h : i ≤ v.length) (a : α) :
    Safe (vecInsert v i a) fun _ => True := by
  rw [vecInsert_of_le h]
  exact trivial

theorem safe_vecRemove {v : List α} {i : ℕ} (h : i < v.length) :
    Safe (vecRemove v i) fun v' => v'.length + 1 = v.length := by
  rw [vecRemove_of_lt h]
  show (v.eraseIdx i).length + 1 = v.length
  rw [List.length_eraseIdx_of_lt h]
  omega

end Safe

/-! ## Parsing -/

theorem safe_mappingsFromCbor (l : List CborObject) (h : l.length % 2 = 0) :
    Safe (mappingsFromCbor l) fun _ => True := by
  induction l using mappingsFromCbor.induct with
  | case1 => exact trivial
  | case2 x => simp at h
  | case3 k v rest hkey =>
      rw [mappingsFromCbor, hkey]
      exact safe_err _
  | case4 k v rest key hkey ih =>
      rw [mappingsFromCbor, hkey]
      refine (ih ?_).bind fun ms _ => trivial
      simp only [List.length_cons] at h
      omega

theorem safe_payloadFromCbor (e : CborObject) : Safe (payloadFromCbor e) fun _ => True := by
  unfold payloadFromCbor
  split
  · next mappings =>
      split
      · exact safe_err _
      · next heven => exact (safe_mappingsFromCbor mappings (by omega)).bind fun _ _ => trivial
  · exact (safe_liftMf _).bind fun _ _ => trivial
  · exact safe_err _

theorem safe_contentsFromCbor (l : List CborObject) : Safe (contentsFromCbor l) fun _ => True := by
  induction l with
  | nil => exact trivial
  | cons e l ih => exact (safe_payloadFromCbor e).bind fun _ _ => ih.bind fun _ _ => trivial

theorem safe_fromCborList (cbor : CborObject) : Safe (fromCborList cbor) fun _ => True := by
  unfold fromCborList
  split
  · exact safe_err _
  · split
    · exact safe_err _
    · split
      · exact safe_err _
      · split
        · exact safe_err _
        · exact (safe_contentsFromCbor _).bind fun _ _ => trivial
  · exact safe_err _

theorem safe_batId (cbor : CborObject) : Safe ((BatId.fromCbor cbor).map some) fun _ => True := by
  unfold BatId.fromCbor
  split
  · exact safe_err _
  · next bytes _ =>
      cases Cid.cast bytes with
      | ok id => exact trivial
      | error e => exact safe_err _

theorem safe_fromCbor (cbor : CborObject) :
    Safe (fromCbor cbor) fun c => fromCbor cbor = .ok c := by
  suffices h : Safe (fromCbor cbor) fun _ => True from h.noPanic.safe
  unfold fromCbor
  split
  · next fields =>
      dsimp only
      split
      · refine (safe_batId _).bind fun mirrorBat _ => ?_
        split
        · exact safe_err _
        · exact (safe_fromCborList _).bind fun _ _ => trivial
      · split
        · exact safe_err _
        · exact (safe_fromCborList _).bind fun _ _ => trivial
  · exact safe_fromCborList _

/-! ## What the server may send -/

/-- A block that is no node, or one that fits. -/
def FitBlock (b : CborObject) : Prop := ∀ c, fromCbor b = .ok c → c.Fits

section Calls

variable {σ : Type} {S : ContentAddressedStorage σ} {s : σ} {c : Champ}

/-- A storage that does not panic, and the blocks it serves. -/
structure ServesOnly (S : ContentAddressedStorage σ) (P : CborObject → Prop) : Prop where
  get : ∀ s cid, NoPanic (S.get s cid)
  put : ∀ s b, NoPanic (S.put s b)
  block : ∀ s cid b, S.get s cid = .ok (some b) → P b

/-- Raw reads that do not panic, and the blocks they serve. -/
structure ServesRawOnly (raw : RawReads σ) (P : CborObject → Prop) : Prop where
  get : ∀ s cid, NoPanic (raw s cid)
  block : ∀ s cid bytes b, raw s cid = .ok (some bytes) → CborObject.fromBytes bytes = .ok b → P b

theorem safe_loadLink (hS : ServesOnly S FitBlock) (s : σ) (cid : Cid) :
    Safe (loadLink S s cid) Fits := by
  refine (hS.get s cid).safe.bind fun found hfound => ?_
  cases found with
  | none => exact safe_err _
  | some b => exact (safe_fromCbor b).mono (fun c hc => hS.block s cid b hfound c hc) fun _ he => he

/-! ## Reading -/

theorem linkIndex_of_lt {p : ℕ} (h : getIndex c.nodeMap p < c.contents.length) :
    c.linkIndex p = .ok (c.contents.length - 1 - getIndex c.nodeMap p) := by
  unfold linkIndex
  rw [usizeSub_of_le (by omega), ok_bind, usizeSub_of_le (by omega)]

theorem safe_childLink {hash : Bytes} {depth : ℕ}
    (h : getIndex c.nodeMap (mask hash depth bitWidth) < c.contents.length) :
    Safe (c.childLink hash depth bitWidth) fun cid =>
      c.contents[c.contents.length - 1 - getIndex c.nodeMap (mask hash depth bitWidth)]? =
        some (.link cid) := by
  unfold childLink
  dsimp only
  rw [linkIndex_of_lt h, ok_bind]
  refine (safe_vecGet (by omega)).bind fun p hp => ?_
  cases p with
  | mappings ms => exact safe_err _
  | link cid => exact hp

theorem safe_get (hS : ServesOnly S FitBlock) (fuel : ℕ) (s : σ) (c : Champ) (key hash : Bytes)
    (depth : ℕ) (hc : c.Fits) : Safe (get S fuel s c key hash depth bitWidth) fun _ => True := by
  induction fuel generalizing c depth with
  | zero =>
      intro h
      cases h
  | succ fuel ih =>
      have hslot := hc _ (mask_lt hash depth)
      unfold get
      dsimp only
      split
      · next hbit =>
          refine (safe_vecGet (hslot.data hbit)).bind fun p _ => ?_
          cases p <;> exact trivial
      · next hbit =>
          split
          · next hnode =>
              have hfree : bitGet c.dataMap (mask hash depth bitWidth) = false := by
                simpa using hbit
              have hchild : Safe (getChild S s c hash depth bitWidth) fun child =>
                  ∀ c', child = some c' → c'.Fits := by
                refine (safe_childLink (hslot.node hfree hnode)).any.bind fun link _ => ?_
                refine (hS.get s link).safe.bind fun found hfound => ?_
                cases found with
                | none =>
                    intro _ h
                    cases h
                | some b =>
                    refine Ensures.bind (safe_fromCbor b) fun c' hc' => ?_
                    rintro _ ⟨⟩
                    exact hS.block s link b hfound c' hc'
              refine hchild.bind fun child hfits => ?_
              cases child with
              | none => exact trivial
              | some c' => exact ih c' (depth + 1) (hfits c' rfl)
          · exact trivial

/-! ## The copy helpers -/

theorem safe_writeNode (hS : ServesOnly S FitBlock) (s : σ) (c : Champ) :
    Safe (writeNode S s c) fun r => r.1.1 = c :=
  (hS.put s c.toCbor).safe.bind fun _ _ => rfl

theorem safe_copyAndSetValue {i j : ℕ} {ms : List KeyElement}
    (h : c.contents[i]? = some (.mappings ms)) (hj : j < ms.length) (v : Option CborObject) :
    Safe (c.copyAndSetValue i j v) fun _ => True := by
  unfold copyAndSetValue
  rw [vecGet_of_getElem? h, ok_bind]
  refine (safe_vecGet hj).bind fun m _ => (safe_vecSet hj _).bind fun updated _ => ?_
  exact (safe_vecSet (List.getElem?_eq_some_iff.1 h).1 _).bind fun _ _ => trivial

theorem safe_insertIntoPrefix {i : ℕ} (h : i < c.contents.length) (k : Bytes)
    (v : Option CborObject) : Safe (c.insertIntoPrefix i k v) fun _ => True := by
  unfold insertIntoPrefix
  refine (safe_vecGet h).bind fun p _ => ?_
  cases p with
  | mappings ms => exact (safe_vecSet h _).bind fun _ _ => trivial
  | link cid => exact trivial

theorem safe_addNewPrefix {p : ℕ} (h : getIndex c.dataMap p ≤ c.contents.length) (k : Bytes)
    (v : Option CborObject) : Safe (c.addNewPrefix p k v) fun _ => True :=
  (safe_vecInsert h _).bind fun _ _ => trivial

theorem safe_copyAndMigrateFromInlineToNode {p : ℕ}
    (hd : getIndex c.dataMap p < c.contents.length)
    (hn : getIndex c.nodeMap p < c.contents.length) (cid : Cid) :
    Safe (c.copyAndMigrateFromInlineToNode p cid) fun _ => True := by
  unfold copyAndMigrateFromInlineToNode
  rw [linkIndex_of_lt hn]
  refine (safe_vecRemove hd).bind fun dst hdst => ?_
  exact (safe_vecInsert (by omega) _).bind fun _ _ => trivial

theorem safe_overwriteChildLink {p : ℕ} (hn : getIndex c.nodeMap p < c.contents.length)
    (cid : Cid) : Safe (c.overwriteChildLink p cid) fun _ => True := by
  unfold overwriteChildLink
  rw [linkIndex_of_lt hn]
  exact (safe_vecSet (by omega) _).bind fun _ _ => trivial

theorem safe_copyAndMigrateFromNodeToInline {p : ℕ}
    (hn : getIndex c.nodeMap p < c.contents.length)
    (hd : getIndex c.dataMap p < c.contents.length) (node : Champ) :
    Safe (c.copyAndMigrateFromNodeToInline p node) fun _ => True := by
  unfold copyAndMigrateFromNodeToInline
  rw [linkIndex_of_lt hn]
  refine (safe_vecRemove (by omega)).bind fun dst hdst => ?_
  exact (safe_vecInsert (by omega) _).bind fun _ _ => trivial

theorem safe_removeMapping {p j : ℕ} {ms : List KeyElement}
    (h : c.contents[getIndex c.dataMap p]? = some (.mappings ms)) (hj : j < ms.length) :
    Safe (c.removeMapping p j) fun _ => True := by
  have hd := (List.getElem?_eq_some_iff.1 h).1
  unfold removeMapping
  dsimp only
  rw [vecGet_of_getElem? h, ok_bind]
  dsimp only
  split
  · exact (safe_vecRemove hd).bind fun _ _ => trivial
  · exact (safe_vecRemove hj).bind fun _ _ => (safe_vecSet hd _).bind fun _ _ => trivial

/-! ## Writing -/

variable {fuel : ℕ} {key hash : Bytes} {depth maxCollisions : ℕ}
  {expected value : Option CborObject} {keyHasher : KeyHasher} {ourHash : Cid}

/-- A node laid out from slots is again one after a `put`. -/
theorem packed_put (hc : c.Packed) {r : (Champ × Cid) × σ}
    (h : put S fuel s c key hash depth expected value bitWidth maxCollisions keyHasher ourHash =
      .ok r) : r.1.1.Packed := by
  have hwrite : ∀ {s : σ} {c' : Champ}, c'.Packed → writeNode S s c' = .ok r → r.1.1.Packed := by
    intro s c' hc' hw
    obtain ⟨put, -, hput⟩ := bind_eq_ok.1 hw
    cases hput
    exact hc'
  obtain ⟨f, bat, rfl⟩ := hc
  cases fuel with
  | zero => cases h
  | succ fuel =>
      cases hslot : f (mask hash depth bitWidth) with
      | empty =>
          rw [put_of_empty rfl hslot] at h
          exact hwrite ⟨_, _, rfl⟩ h
      | bucket ms =>
          cases hj : ms.findIdx? (fun m => m.key = key) with
          | some j =>
              obtain ⟨m, hm, -⟩ := findIdx?_some hj
              rw [put_of_mapped rfl hslot hj hm] at h
              split at h
              · cases h
              · exact hwrite ⟨_, _, rfl⟩ h
          | none =>
              by_cases hroom : ms.length < maxCollisions
              · rw [put_of_room rfl hslot hj hroom] at h
                exact hwrite ⟨_, _, rfl⟩ h
              · rw [put_of_full rfl hslot hj hroom] at h
                obtain ⟨_, -, h⟩ := bind_eq_ok.1 h
                exact hwrite ⟨_, _, rfl⟩ h
      | shard cid =>
          have hi := mask_lt hash depth
          unfold put at h
          dsimp only at h
          rw [bitGet_dataMap hi, bitGet_nodeMap hi, hslot] at h
          obtain ⟨⟨childHash, child⟩, -, h⟩ := bind_eq_ok.1 h
          obtain ⟨⟨⟨_, newChildHash⟩, s'⟩, -, h⟩ := bind_eq_ok.1 h
          dsimp only at h
          split at h
          · cases h
            exact ⟨f, bat, rfl⟩
          · obtain ⟨c', hc', h⟩ := bind_eq_ok.1 h
            rw [overwriteChildLink_ofSlots hi hslot] at hc'
            cases hc'
            exact hwrite ⟨_, _, rfl⟩ h

theorem safe_getChildWithHash (hS : ServesOnly S FitBlock) (s : σ)
    (hn : getIndex c.nodeMap (mask hash depth bitWidth) < c.contents.length) :
    Safe (getChildWithHash S s c hash depth bitWidth) fun r => r.2.Fits ∧
      c.contents[c.contents.length - 1 - getIndex c.nodeMap (mask hash depth bitWidth)]? =
        some (.link r.1) := by
  refine (safe_childLink hn).bind fun link hlink => ?_
  exact (safe_loadLink hS s link).bind fun child hchild => ⟨hchild, hlink⟩

/-- A level down every mapping goes into a node that was laid out before. -/
theorem safe_pushMappingsDownALevel (hS : ServesOnly S FitBlock) {fuel : ℕ} {d : ℕ}
    (ih : ∀ (s : σ) (c : Champ) (key hash : Bytes) (value : Option CborObject) (ourHash : Cid),
      c.Fits → Safe (put S fuel s c key hash d none value bitWidth maxCollisions keyHasher ourHash)
        fun _ => True) (s : σ) (c : Champ) (ms : List KeyElement) (key hash : Bytes)
    (value : Option CborObject) (depth : ℕ) :
    Safe (pushMappingsDownALevel S (fun s c k h v our =>
        put S fuel s c k h d none v bitWidth maxCollisions keyHasher our)
      s c ms key hash value depth keyHasher) fun _ => True := by
  unfold pushMappingsDownALevel
  split
  · exact safe_err _
  · dsimp only
    have hfresh : (empty.withBat c.mirrorBat).Packed := ⟨_, _, empty_withBat c.mirrorBat⟩
    refine (hS.put s _).safe.any.bind fun fresh _ => ?_
    refine ((ih _ _ key hash value _ hfresh.fits).and_eq).bind fun start hstart => ?_
    refine Safe.any (Ensures.foldlM (fun _ (cur : (Champ × Cid) × σ) => cur.1.1.Packed) ?_
      (packed_put hfresh hstart.2))
    intro done e rest _ cur hcur
    exact ((ih _ _ _ _ _ _ hcur.fits).and_eq).mono (fun _ h => packed_put hcur h.2) fun _ he => he

theorem safe_put (hS : ServesOnly S FitBlock) (fuel : ℕ) (s : σ) (c : Champ) (key hash : Bytes)
    (depth : ℕ) (expected value : Option CborObject) (maxCollisions : ℕ) (keyHasher : KeyHasher)
    (ourHash : Cid) (hc : c.Fits) :
    Safe (put S fuel s c key hash depth expected value bitWidth maxCollisions keyHasher ourHash)
      fun _ => True := by
  induction fuel generalizing s c key hash depth expected value ourHash with
  | zero => exact fun h => nomatch h
  | succ fuel ih =>
      have hp := mask_lt hash depth
      have hslot := hc _ hp
      unfold put
      dsimp only
      split
      · next hbit =>
          refine (safe_vecGet (hslot.data hbit)).bind fun p hget => ?_
          cases p with
          | link cid => exact safe_err _
          | mappings ms =>
              dsimp only
              split
              · next j hj =>
                  obtain ⟨m, hm, -⟩ := findIdx?_some hj
                  have hlt := (List.getElem?_eq_some_iff.1 hm).1
                  refine (safe_vecGet hlt).any.bind fun m _ => ?_
                  split
                  · exact safe_err _
                  · exact (safe_copyAndSetValue hget hlt _).bind fun c' _ =>
                      (safe_writeNode hS s c').any
              · split
                · exact (safe_insertIntoPrefix (hslot.data hbit) _ _).bind fun c' _ =>
                    (safe_writeNode hS s c').any
                · -- the bucket is full: the link takes its place
                  refine (safe_pushMappingsDownALevel hS (fun s c key hash value our hfits =>
                    ih s c key hash (depth + 1) none value our hfits) s c ms key hash value
                      (depth + 1)).bind fun r _ => ?_
                  exact (safe_copyAndMigrateFromInlineToNode (hslot.data hbit)
                    (hslot.pushed hbit (by rw [hget]; rfl)) _).bind fun c' _ =>
                      (safe_writeNode hS _ c').any
      · next hbit =>
          have hfree : bitGet c.dataMap (mask hash depth bitWidth) = false := by simpa using hbit
          split
          · next hnode =>
              have hn := hslot.node hfree hnode
              refine (safe_getChildWithHash hS s hn).bind fun child hchild => ?_
              refine (ih s child.2 key hash (depth + 1) expected value child.1 hchild.1).bind
                fun r _ => ?_
              split
              · exact trivial
              · exact (safe_overwriteChildLink hn _).bind fun c' _ => (safe_writeNode hS _ c').any
          · exact (safe_addNewPrefix (hc.dataIndex_le hp.le) _ _).bind fun c' _ =>
              (safe_writeNode hS s c').any

theorem safe_removedBelow (hS : ServesOnly S FitBlock) (s : σ) {p : ℕ} (hslot : c.SlotFits p)
    (hfree : bitGet c.dataMap p = false) (hnode : bitGet c.nodeMap p = true)
    (hlink : (c.contents[c.contents.length - 1 - getIndex c.nodeMap p]?).map Payload.isShard =
      some true) (maxCollisions : ℕ) (ourHash childHash : Cid) (newChild : Champ)
    (newChildHash : Cid) :
    Safe (removedBelow S c p maxCollisions ourHash childHash newChild newChildHash s)
      fun _ => True := by
  have hn := hslot.node hfree hnode
  unfold removedBelow
  split
  · exact trivial
  · split
    · exact safe_err _
    · split
      · split
        · exact trivial
        · next hmore =>
            exact (safe_copyAndMigrateFromNodeToInline hn (hslot.inlined hfree hnode hlink hmore)
              newChild).bind fun c' _ => (safe_writeNode hS s c').any
      · exact (safe_overwriteChildLink hn _).bind fun c' _ => (safe_writeNode hS s c').any

theorem safe_remove (hS : ServesOnly S FitBlock) (fuel : ℕ) (s : σ) (c : Champ) (key hash : Bytes)
    (depth : ℕ) (expected : Option CborObject) (maxCollisions : ℕ) (ourHash : Cid) (hc : c.Fits) :
    Safe (remove S fuel s c key hash depth expected bitWidth maxCollisions ourHash)
      fun _ => True := by
  induction fuel generalizing s c depth ourHash with
  | zero => exact fun h => nomatch h
  | succ fuel ih =>
      have hslot := hc _ (mask_lt hash depth)
      unfold remove
      dsimp only
      split
      · next hbit =>
          refine (safe_vecGet (hslot.data hbit)).bind fun p hget => ?_
          cases p with
          | link cid => exact safe_err _
          | mappings ms =>
              dsimp only
              split
              · exact safe_err _
              · next j hj =>
                  obtain ⟨m, hm, -⟩ := findIdx?_some hj
                  have hlt := (List.getElem?_eq_some_iff.1 hm).1
                  refine (safe_vecGet hlt).any.bind fun m _ => ?_
                  split
                  · exact safe_err _
                  · split
                    · exact (safe_writeNode hS s _).any
                    · exact (safe_removeMapping hget hlt).bind fun c' _ =>
                        (safe_writeNode hS s c').any
      · next hbit =>
          have hfree : bitGet c.dataMap (mask hash depth bitWidth) = false := by simpa using hbit
          split
          · next hnode =>
              refine (safe_getChildWithHash hS s (hslot.node hfree hnode)).bind
                fun child hchild => ?_
              refine (ih s child.2 (depth + 1) child.1 hchild.1).bind fun r _ => ?_
              exact safe_removedBelow hS _ hslot hfree hnode (by rw [hchild.2]; rfl) _ _ _ _ _
          · exact trivial

/-! ## Walking -/

/-- The running counts of an optional node. -/
def runningOf (c : Option Champ) (i : ℕ) : ℕ × ℕ := (c.map fun c => c.running i).getD (0, 0)

/-- The body of the loop over the slots finds what the running counts lead to. -/
theorem getElement_eq {c : Champ} {i : ℕ} (h : c.SlotFits i) :
    getElement i (c.running i).1 (c.running i).2 (some c) =
      .ok (c.slotPayload i (c.running i).1 (c.running i).2) := by
  unfold getElement slotPayload
  dsimp only
  split
  · rfl
  · next hbit =>
      split
      · next hnode =>
          have hlt := h.counted (by simpa using hbit) hnode
          rw [usizeSub_of_le (by omega), ok_bind, usizeSub_of_le (by omega), ok_bind]
      · rfl

/-- What a slot of either side adds to the running counts. -/
theorem safe_getElement {c : Option Champ} {i ld ln : ℕ} (hfits : ∀ c', c = some c' → c'.SlotFits i)
    (hcounts : (ld, ln) = runningOf c i) :
    Safe (getElement i ld ln c) fun p =>
      (ld + dataStep p, ln + nodeStep p) = runningOf c (i + 1) := by
  cases c with
  | none =>
      cases hcounts
      exact rfl
  | some c =>
      obtain ⟨rfl, rfl⟩ := Prod.mk.inj hcounts
      rw [getElement_eq (hfits c rfl)]
      exact rfl

theorem safe_diffSlots (order : HashOrder) (path : List ℕ) {left right : Option Champ}
    (hleft : ∀ c, left = some c → c.Fits) (hright : ∀ c, right = some c → c.Fits)
    (higherLeft higherRight : List KeyElement) (depth : ℕ) (out : List DiffEntry) :
    Safe ((List.range slots).foldlM
      (diffSlot order path left right higherLeft higherRight depth) ⟨0, 0, 0, 0, [], out⟩)
      fun _ => True := by
  refine Safe.any (Ensures.foldlM (fun (done : List ℕ) (st : DiffLoop) =>
    (st.ld, st.ln) = runningOf left done.length ∧ (st.rd, st.rn) = runningOf right done.length)
    ?_ ?_)
  · intro done i rest hrange st hst
    have hi : i = done.length := by
      have hget : (List.range slots)[done.length]? = some i := by simp [hrange]
      simpa using (List.getElem?_eq_some_iff.1 hget).2.symm
    have hlt : i < slots := by
      have := congrArg List.length hrange
      simp only [List.length_range, List.length_append, List.length_cons] at this
      omega
    subst hi
    unfold diffSlot
    refine (safe_getElement (fun c hc => hleft c hc _ hlt) hst.1).bind fun lp hlp => ?_
    refine (safe_getElement (fun c hc => hright c hc _ hlt) hst.2).bind fun rp hrp => ?_
    have hnext : (done ++ [done.length]).length = done.length + 1 := by simp
    rw [← hnext] at hlp hrp
    dsimp only
    split
    · exact ⟨hlp, hrp⟩
    · exact ⟨hlp, hrp⟩
  · constructor <;> cases left <;> cases right <;> rfl

theorem safe_loadChamp (hS : ServesOnly S FitBlock) (s : σ) (cid : Option Cid) :
    Safe (loadChamp S s cid) fun found => ∀ c, found = some c → c.Fits := by
  cases cid with
  | none => exact fun _ h => nomatch h
  | some cid =>
      have hblock : Safe (getBlock S s cid) FitBlock := by
        refine (hS.get s cid).safe.bind fun found hfound => ?_
        cases found with
        | none => exact safe_err _
        | some b => exact hS.block s cid b hfound
      refine hblock.bind fun b hb => (safe_fromCbor b).bind fun c hc => ?_
      rintro _ ⟨⟩
      exact hb c hc

theorem safe_diff (hS : ServesOnly S FitBlock) (fuel : ℕ) (s : σ) (order : HashOrder)
    (path : List ℕ) (original updated : Option Cid) (depth : ℕ)
    (higherLeft higherRight : List KeyElement) (out : List DiffEntry) :
    Safe (diff S fuel s order path original updated depth higherLeft higherRight out)
      fun _ => True := by
  induction fuel generalizing path original updated depth higherLeft higherRight out with
  | zero => exact fun h => nomatch h
  | succ fuel ih =>
      unfold diff
      split
      · exact trivial
      · refine (safe_loadChamp hS s original).bind fun left hleft => ?_
        refine (safe_loadChamp hS s updated).bind fun right hright => ?_
        refine (safe_diffSlots order path hleft hright _ _ depth out).bind fun st _ => ?_
        exact Ensures.foldlM (fun _ _ => True) (fun _ p _ _ _ _ => ih _ _ _ _ _ _ _) trivial

theorem safe_champWalkOne {raw : RawReads σ} (hraw : ServesRawOnly raw FitBlock) (s : σ) (fuel : ℕ)
    (current : Cid) (mapKey : Bytes) (depth : ℕ) (g : Gathered) :
    Safe (champWalkOne raw s fuel current mapKey depth g) fun _ => True := by
  induction fuel generalizing current depth g with
  | zero => exact fun h => nomatch h
  | succ fuel ih =>
      unfold champWalkOne
      refine (hraw.get s current).safe.bind fun found hfound => ?_
      cases found with
      | none => exact trivial
      | some bytes =>
          refine (safe_liftCbor _).bind fun cbor hcbor => ?_
          refine (safe_fromCbor cbor).bind fun c hc => ?_
          have hslot := hraw.block s current bytes cbor hfound hcbor c hc _ (mask_lt mapKey depth)
          dsimp only
          split
          · split
            · split
              · next m _ =>
                  unfold walkValue
                  split
                  · exact trivial
                  · refine (safe_liftMf _).bind fun vcid _ => ?_
                    refine (hraw.get s vcid).safe.bind fun value _ => ?_
                    cases value <;> exact trivial
              · exact trivial
            · exact trivial
          · next hbit =>
              split
              · next hnode =>
                  rw [linkIndex_of_lt (hslot.node (by simpa using hbit) hnode), ok_bind]
                  split
                  · exact ih _ _ _
                  · exact trivial
              · exact trivial

end Calls

end Champ

end Peergos
