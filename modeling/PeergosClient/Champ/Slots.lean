import PeergosClient.Champ.Ops

/-!
# A champ node as an assignment of slots

Read through its bitmaps, a node is an assignment of a `Slot` to each of its eight positions:
nothing, a bucket of mappings, or the link to a child.  `ofSlots` lays such an assignment out as
the node of the source, and this file shows that every index computation of the source does what
it says on that layout: each copy helper is `Function.update` at one slot.  From here on no proof
looks at a bitmap or an array index.
-/

namespace Peergos

/-- What a slot of a node holds. -/
inductive Slot where
  | empty
  | bucket (ms : List KeyElement)
  | shard (cid : Cid)
  deriving DecidableEq

namespace Slot

/-- The payload a slot contributes to the front of the array. -/
def front : Slot → Option Payload
  | bucket ms => some (.mappings ms)
  | _ => none

/-- The payload a slot contributes to the tail of the array. -/
def back : Slot → Option Payload
  | shard cid => some (.link cid)
  | _ => none

/-- The inline mappings of a slot. -/
def mappings : Slot → List KeyElement
  | bucket ms => ms
  | _ => []

end Slot

namespace Champ

/-! ## Bitmaps of a set of positions -/

/-- The bitmap of the positions below `slots` that satisfy `p`. -/
def bitsOf (p : ℕ → Bool) : Bytes :=
  (List.range slots).foldl (fun bm i => if p i then bitSet bm i else bm) []

theorem foldl_bitSet (p : ℕ → Bool) (l : List ℕ) (bm : Bytes) (hbm : Trimmed bm) :
    Trimmed (l.foldl (fun bm i => if p i then bitSet bm i else bm) bm) ∧
      ∀ q, bitGet (l.foldl (fun bm i => if p i then bitSet bm i else bm) bm) q =
        (bitGet bm q || (decide (q ∈ l) && p q)) := by
  induction l generalizing bm with
  | nil => simpa using hbm
  | cons i l ih =>
      rw [List.foldl_cons]
      by_cases hp : p i = true
      · obtain ⟨h1, h2⟩ := ih (bitSet bm i) (trimmed_bitSet hbm i)
        rw [if_pos hp]
        refine ⟨h1, fun q => ?_⟩
        rw [h2, bitGet_bitSet]
        by_cases hq : q = i
        · subst hq
          simp [hp]
        · simp [hq]
      · obtain ⟨h1, h2⟩ := ih bm hbm
        rw [if_neg hp]
        refine ⟨h1, fun q => ?_⟩
        rw [h2]
        by_cases hq : q = i
        · subst hq
          simp [hp]
        · simp [hq]

theorem trimmed_bitsOf (p : ℕ → Bool) : Trimmed (bitsOf p) :=
  (foldl_bitSet p _ [] trimmed_nil).1

theorem bitGet_bitsOf (p : ℕ → Bool) (q : ℕ) :
    bitGet (bitsOf p) q = (decide (q < slots) && p q) := by
  rw [bitsOf, (foldl_bitSet p _ [] trimmed_nil).2]
  simp [bitGet]

theorem bitSet_bitsOf (p : ℕ → Bool) {i : ℕ} (hi : i < slots) :
    bitSet (bitsOf p) i = bitsOf (Function.update p i true) := by
  refine (trimmed_bitSet (trimmed_bitsOf p) i).ext (trimmed_bitsOf _) fun q => ?_
  rw [bitGet_bitSet, bitGet_bitsOf, bitGet_bitsOf]
  by_cases hq : q = i
  · subst hq
    simp [hi]
  · simp [hq]

theorem bitClear_bitsOf (p : ℕ → Bool) {i : ℕ} :
    bitClear (bitsOf p) i = bitsOf (Function.update p i false) := by
  refine (trimmed_bitClear _ i).ext (trimmed_bitsOf _) fun q => ?_
  rw [bitGet_bitClear, bitGet_bitsOf, bitGet_bitsOf]
  by_cases hq : q = i
  · subst hq
    simp
  · simp [hq]

theorem getIndex_bitsOf (p : ℕ → Bool) {i : ℕ} (hi : i < slots) :
    getIndex (bitsOf p) i = Rank.rank p i := by
  refine Rank.rank_congr ?_
  intro j hj
  rw [bitGet_bitsOf]
  simp [show j < slots by omega]

/-! ## The layout of a node -/

/-- Lay out an assignment of slots as a node. -/
def ofSlots (f : ℕ → Slot) (bat : Option BatId) : Champ :=
  ⟨bitsOf fun i => (f i).front.isSome, bitsOf fun i => (f i).back.isSome,
    Rank.twoEnded slots (fun i => (f i).front) (fun i => (f i).back), bat⟩

theorem empty_withBat (bat : Option BatId) :
    empty.withBat bat = ofSlots (fun _ => .empty) bat := by
  rfl

@[simp] theorem ofSlots_mirrorBat (f : ℕ → Slot) (bat : Option BatId) :
    (ofSlots f bat).mirrorBat = bat := rfl

theorem ofSlots_contents (f : ℕ → Slot) (bat : Option BatId) : (ofSlots f bat).contents =
    Rank.twoEnded slots (fun i => (f i).front) (fun i => (f i).back) := rfl

theorem ofSlots_dataMap (f : ℕ → Slot) (bat : Option BatId) :
    (ofSlots f bat).dataMap = bitsOf fun i => (f i).front.isSome := rfl

theorem ofSlots_nodeMap (f : ℕ → Slot) (bat : Option BatId) :
    (ofSlots f bat).nodeMap = bitsOf fun i => (f i).back.isSome := rfl

theorem getIndex_dataMap (f : ℕ → Slot) (bat : Option BatId) {i : ℕ} (hi : i < slots) :
    getIndex (ofSlots f bat).dataMap i = Rank.rank (fun j => (f j).front.isSome) i :=
  getIndex_bitsOf (fun j => (f j).front.isSome) hi

theorem getIndex_nodeMap (f : ℕ → Slot) (bat : Option BatId) {i : ℕ} (hi : i < slots) :
    getIndex (ofSlots f bat).nodeMap i = Rank.rank (fun j => (f j).back.isSome) i :=
  getIndex_bitsOf (fun j => (f j).back.isSome) hi

section Layout

variable {f : ℕ → Slot} {bat : Option BatId} {i : ℕ} (hi : i < slots)
include hi

theorem bitGet_dataMap : bitGet (ofSlots f bat).dataMap i = (f i).front.isSome := by
  simp [ofSlots, bitGet_bitsOf, hi]

theorem bitGet_nodeMap : bitGet (ofSlots f bat).nodeMap i = (f i).back.isSome := by
  simp [ofSlots, bitGet_bitsOf, hi]

theorem vecGet_bucket {ms : List KeyElement} (h : f i = .bucket ms) :
    vecGet (ofSlots f bat).contents (getIndex (ofSlots f bat).dataMap i) =
      .ok (.mappings ms) := by
  refine vecGet_of_getElem? ?_
  rw [getIndex_dataMap f bat hi]
  exact Rank.twoEnded_front_getElem? hi (f := fun i => (f i).front) _ (by rw [h]; rfl)

theorem front_index_lt {ms : List KeyElement} (h : f i = .bucket ms) :
    getIndex (ofSlots f bat).dataMap i < (ofSlots f bat).contents.length := by
  rw [getIndex_dataMap f bat hi, ofSlots_contents, Rank.length_twoEnded]
  have := Rank.rank_lt_length hi (f := fun i => (f i).front) (x := .mappings ms) (by rw [h]; rfl)
  omega

/-- The array index of a shard's link. -/
theorem linkIndex_shard {cid : Cid} (h : f i = .shard cid) :
    (ofSlots f bat).linkIndex i =
      .ok ((ofSlots f bat).contents.length - 1 - Rank.rank (fun j => (f j).back.isSome) i) := by
  obtain ⟨pre, post, -, hle, -, -⟩ := Rank.twoEnded_back_split hi (fun j => (f j).front)
    (g := fun j => (f j).back) (x := .link cid) (by rw [h]; rfl)
  unfold linkIndex
  rw [getIndex_nodeMap f bat hi, ofSlots_contents, usizeSub_of_le (by omega), ok_bind, usizeSub_of_le (by omega)]

theorem vecGet_shard {cid : Cid} (h : f i = .shard cid) :
    vecGet (ofSlots f bat).contents
      ((ofSlots f bat).contents.length - 1 - Rank.rank (fun j => (f j).back.isSome) i) =
        .ok (.link cid) :=
  vecGet_of_getElem? (Rank.twoEnded_back_getElem? hi (fun j => (f j).front)
    (g := fun j => (f j).back) (by rw [h]; rfl))

end Layout

theorem childLink_shard {f : ℕ → Slot} {bat : Option BatId} {hash : Bytes} {depth : ℕ} {cid : Cid}
    (h : f (mask hash depth bitWidth) = .shard cid) :
    (ofSlots f bat).childLink hash depth bitWidth = .ok cid := by
  have hi := mask_lt hash depth
  unfold childLink
  simp only
  rw [linkIndex_shard hi h, ok_bind]
  rw [vecGet_shard hi h, ok_bind]

/-- Two assignments that agree below `slots` have the same layout. -/
theorem ofSlots_congr {f g : ℕ → Slot} (h : ∀ i < slots, f i = g i) (bat : Option BatId) :
    ofSlots f bat = ofSlots g bat := by
  have h1 : bitsOf (fun i => (f i).front.isSome) = bitsOf (fun i => (g i).front.isSome) := by
    refine (trimmed_bitsOf _).ext (trimmed_bitsOf _) fun q => ?_
    rw [bitGet_bitsOf, bitGet_bitsOf]
    by_cases hq : q < slots
    · rw [h q hq]
    · simp [hq]
  have h2 : bitsOf (fun i => (f i).back.isSome) = bitsOf (fun i => (g i).back.isSome) := by
    refine (trimmed_bitsOf _).ext (trimmed_bitsOf _) fun q => ?_
    rw [bitGet_bitsOf, bitGet_bitsOf]
    by_cases hq : q < slots
    · rw [h q hq]
    · simp [hq]
  have h3 : Rank.twoEnded slots (fun i => (f i).front) (fun i => (f i).back) =
      Rank.twoEnded slots (fun i => (g i).front) (fun i => (g i).back) := by
    unfold Rank.twoEnded
    rw [Rank.compress_congr (g := fun i => (g i).front) fun j hj => by rw [h j hj],
      Rank.compress_congr (f := fun i => (f i).back) (g := fun i => (g i).back)
        fun j hj => by rw [h j hj]]
  unfold ofSlots
  rw [h1, h2, h3]

/-! ## The copy helpers on the layout -/

section Helpers

variable {f : ℕ → Slot} {bat : Option BatId} {i : ℕ}

theorem front_update (s : Slot) :
    (fun j => (Function.update f i s j).front) = Function.update (fun j => (f j).front) i s.front :=
  Function.comp_update Slot.front f i s

theorem back_update (s : Slot) :
    (fun j => (Function.update f i s j).back) = Function.update (fun j => (f j).back) i s.back :=
  Function.comp_update Slot.back f i s

theorem isSome_update {α : Type} (g : ℕ → Option α) (v : Option α) :
    (fun j => (Function.update g i v j).isSome) =
      Function.update (fun j => (g j).isSome) i v.isSome :=
  Function.comp_update Option.isSome g i v

/-- The layout after one slot changes, spelled out field by field. -/
theorem ofSlots_update (s : Slot) : ofSlots (Function.update f i s) bat =
    ⟨bitsOf (Function.update (fun j => (f j).front.isSome) i s.front.isSome),
      bitsOf (Function.update (fun j => (f j).back.isSome) i s.back.isSome),
      Rank.twoEnded slots (Function.update (fun j => (f j).front) i s.front)
        (Function.update (fun j => (f j).back) i s.back), bat⟩ := by
  unfold ofSlots
  rw [← isSome_update (fun j => (f j).front), ← isSome_update (fun j => (f j).back),
    ← front_update, ← back_update]

theorem update_front_self {s : Slot} (h : (f i).front = s.front) :
    Function.update (fun j => (f j).front) i s.front = fun j => (f j).front := by
  rw [← h]
  exact Function.update_eq_self i _

theorem update_back_self {s : Slot} (h : (f i).back = s.back) :
    Function.update (fun j => (f j).back) i s.back = fun j => (f j).back := by
  rw [← h]
  exact Function.update_eq_self i _

theorem update_isSome_self {α : Type} {g : ℕ → Option α} {b : Bool} (h : (g i).isSome = b) :
    Function.update (fun j => (g j).isSome) i b = fun j => (g j).isSome := by
  rw [← h]
  exact Function.update_eq_self i _

/-- Overwriting a bucket in the array. -/
theorem set_bucket (hi : i < slots) {ms : List KeyElement} (h : f i = .bucket ms)
    (ms' : List KeyElement) :
    (do let dst ← vecSet (ofSlots f bat).contents (getIndex (ofSlots f bat).dataMap i)
          (.mappings ms')
        .ok ((ofSlots f bat).withContents (ofSlots f bat).dataMap (ofSlots f bat).nodeMap dst)) =
      (.ok (ofSlots (Function.update f i (.bucket ms')) bat) : Result Champ) := by
  have hf : (f i).front = some (.mappings ms) := by rw [h]; rfl
  have hb : (f i).back = none := by rw [h]; rfl
  rw [vecSet_of_lt (front_index_lt hi h), ok_bind, ofSlots_update]
  rw [update_isSome_self (g := fun j => (f j).front) (by rw [hf]; rfl),
    update_isSome_self (g := fun j => (f j).back) (by rw [hb]; rfl),
    update_back_self (s := .bucket ms') (by rw [hb]; rfl)]
  congr 1
  unfold withContents
  congr 1
  rw [getIndex_dataMap f bat hi]
  exact Rank.twoEnded_front_set hi (f := fun j => (f j).front) _ hf _

theorem copyAndSetValue_ofSlots (hi : i < slots) {ms : List KeyElement} (h : f i = .bucket ms)
    {j : ℕ} {m : KeyElement} (hj : ms[j]? = some m) (v : Option CborObject) :
    (ofSlots f bat).copyAndSetValue (getIndex (ofSlots f bat).dataMap i) j v =
      .ok (ofSlots (Function.update f i (.bucket (ms.set j { m with value := v }))) bat) := by
  have hlt : j < ms.length := (List.getElem?_eq_some_iff.1 hj).1
  unfold copyAndSetValue
  rw [vecGet_bucket hi h, ok_bind]
  simp only
  rw [vecGet_of_getElem? hj, ok_bind, vecSet_of_lt hlt, ok_bind]
  exact set_bucket hi h _

theorem insertIntoPrefix_ofSlots (hi : i < slots) {ms : List KeyElement} (h : f i = .bucket ms)
    (k : Bytes) (v : Option CborObject) :
    (ofSlots f bat).insertIntoPrefix (getIndex (ofSlots f bat).dataMap i) k v =
      .ok (ofSlots (Function.update f i (.bucket (sortEntries (ms ++ [⟨k, v⟩])))) bat) := by
  unfold insertIntoPrefix
  rw [vecGet_bucket hi h, ok_bind]
  exact set_bucket hi h _

theorem addNewPrefix_ofSlots (hi : i < slots) (h : f i = .empty) (k : Bytes)
    (v : Option CborObject) : (ofSlots f bat).addNewPrefix i k v =
      .ok (ofSlots (Function.update f i (.bucket [⟨k, v⟩])) bat) := by
  have hf : (f i).front = none := by rw [h]; rfl
  have hb : (f i).back = none := by rw [h]; rfl
  have hidx := getIndex_dataMap f bat hi
  have hle : getIndex (ofSlots f bat).dataMap i ≤ (ofSlots f bat).contents.length := by
    rw [hidx, ofSlots_contents, Rank.length_twoEnded]
    have := Rank.rank_le_length hi (fun j => (f j).front)
    omega
  unfold addNewPrefix
  simp only
  rw [vecInsert_of_le hle, ok_bind, ofSlots_update]
  rw [update_isSome_self (g := fun j => (f j).back) (by rw [hb]; rfl),
    update_back_self (s := .bucket [⟨k, v⟩]) (by rw [hb]; rfl)]
  congr 1
  unfold withContents
  congr 1
  · exact bitSet_bitsOf (fun j => (f j).front.isSome) hi
  · rw [hidx]
    exact Rank.twoEnded_front_insertIdx hi (f := fun j => (f j).front) _ hf _

/-- Dropping the only mapping of a bucket drops the slot. -/
theorem removeMapping_ofSlots_last (hi : i < slots) {m : KeyElement} (h : f i = .bucket [m])
    (j : ℕ) : (ofSlots f bat).removeMapping i j =
      .ok (ofSlots (Function.update f i .empty) bat) := by
  have hf : (f i).front = some (.mappings [m]) := by rw [h]; rfl
  have hb : (f i).back = none := by rw [h]; rfl
  unfold removeMapping
  simp only
  rw [vecGet_bucket hi h, ok_bind]
  simp only [List.length_singleton, if_true]
  rw [vecRemove_of_lt (front_index_lt hi h), ok_bind, ofSlots_update]
  rw [update_isSome_self (g := fun j => (f j).back) (by rw [hb]; rfl),
    update_back_self (s := .empty) (by rw [hb]; rfl)]
  congr 1
  unfold withContents
  congr 1
  · exact bitClear_bitsOf (fun j => (f j).front.isSome)
  · rw [getIndex_dataMap f bat hi]
    exact Rank.twoEnded_front_eraseIdx hi (f := fun j => (f j).front) _ hf

/-- Dropping one of several mappings keeps the slot. -/
theorem removeMapping_ofSlots (hi : i < slots) {ms : List KeyElement} (h : f i = .bucket ms)
    (hlen : ms.length ≠ 1) {j : ℕ} (hj : j < ms.length) : (ofSlots f bat).removeMapping i j =
      .ok (ofSlots (Function.update f i (.bucket (ms.eraseIdx j))) bat) := by
  unfold removeMapping
  simp only
  rw [vecGet_bucket hi h, ok_bind]
  simp only [if_neg hlen]
  rw [vecRemove_of_lt hj, ok_bind]
  exact set_bucket hi h _

theorem overwriteChildLink_ofSlots (hi : i < slots) {cid : Cid} (h : f i = .shard cid)
    (cid' : Cid) : (ofSlots f bat).overwriteChildLink i cid' =
      .ok (ofSlots (Function.update f i (.shard cid')) bat) := by
  have hf : (f i).front = none := by rw [h]; rfl
  have hb : (f i).back = some (.link cid) := by rw [h]; rfl
  unfold overwriteChildLink
  rw [linkIndex_shard hi h, ok_bind, vecSet_of_lt, ok_bind, ofSlots_update]
  · rw [update_isSome_self (g := fun j => (f j).front) (by rw [hf]; rfl),
      update_isSome_self (g := fun j => (f j).back) (by rw [hb]; rfl),
      update_front_self (s := .shard cid') (by rw [hf]; rfl)]
    congr 1
    unfold withContents
    congr 1
    exact Rank.twoEnded_back_set hi (fun j => (f j).front) (g := fun j => (f j).back) hb _
  · exact Rank.back_index_lt hi (fun j => (f j).front) (g := fun j => (f j).back) hb

theorem copyAndMigrateFromInlineToNode_ofSlots (hi : i < slots) {ms : List KeyElement}
    (h : f i = .bucket ms) (cid : Cid) : (ofSlots f bat).copyAndMigrateFromInlineToNode i cid =
      .ok (ofSlots (Function.update f i (.shard cid)) bat) := by
  have hf : (f i).front = some (.mappings ms) := by rw [h]; rfl
  have hb : (f i).back = none := by rw [h]; rfl
  have hlt := @front_index_lt f bat i hi ms h
  have hidx := getIndex_dataMap f bat hi
  have hnidx := getIndex_nodeMap f bat hi
  have hc := ofSlots_contents f bat
  -- the bucket leaves the front, so the tail index is counted in an array one shorter
  have herase := Rank.twoEnded_front_eraseIdx hi (f := fun j => (f j).front)
    (fun j => (f j).back) hf
  have hlen : (Rank.twoEnded slots (Function.update (fun j => (f j).front) i none)
      (fun j => (f j).back)).length + 1 = (ofSlots f bat).contents.length := by
    rw [← herase, hc, List.length_eraseIdx_of_lt (by rw [← hidx, ← hc]; exact hlt)]
    have := hlt
    rw [hc] at this
    omega
  have hrank := Rank.back_rank_le hi (Function.update (fun j => (f j).front) i none)
    (g := fun j => (f j).back)
  unfold copyAndMigrateFromInlineToNode linkIndex
  simp only
  rw [hnidx, usizeSub_of_le (by omega), ok_bind, usizeSub_of_le (by omega), ok_bind,
    vecRemove_of_lt hlt, ok_bind, hidx, hc, herase, ← hc,
    show (ofSlots f bat).contents.length - 1 - Rank.rank (fun j => (f j).back.isSome) i =
      (Rank.twoEnded slots (Function.update (fun j => (f j).front) i none)
        (fun j => (f j).back)).length - Rank.rank (fun j => (f j).back.isSome) i by omega,
    vecInsert_of_le (by omega), ok_bind, ofSlots_update]
  congr 1
  unfold withContents
  congr 1
  · exact bitClear_bitsOf (fun j => (f j).front.isSome)
  · exact bitSet_bitsOf (fun j => (f j).back.isSome) hi
  · exact Rank.twoEnded_back_insertIdx hi _ (g := fun j => (f j).back) hb _

theorem copyAndMigrateFromNodeToInline_ofSlots (hi : i < slots) {cid : Cid} (h : f i = .shard cid)
    {node : Champ} {ms : List KeyElement} (hn : node.contents = [.mappings ms]) :
    (ofSlots f bat).copyAndMigrateFromNodeToInline i node =
      .ok (ofSlots (Function.update f i (.bucket ms)) bat) := by
  have hf : (f i).front = none := by rw [h]; rfl
  have hb : (f i).back = some (.link cid) := by rw [h]; rfl
  have hidx := getIndex_dataMap f bat hi
  have herase := Rank.twoEnded_back_eraseIdx hi (fun j => (f j).front)
    (g := fun j => (f j).back) hb
  unfold copyAndMigrateFromNodeToInline
  rw [linkIndex_shard hi h, ok_bind, vecRemove_of_lt, ok_bind, hn]
  · simp only [List.head?_cons, Option.bind_some, Payload.asMappings, Option.getD_some]
    rw [ofSlots_contents, herase, hidx, vecInsert_of_le, ok_bind, ofSlots_update]
    · congr 1
      unfold withContents
      congr 1
      · exact bitSet_bitsOf (fun j => (f j).front.isSome) hi
      · exact bitClear_bitsOf (fun j => (f j).back.isSome)
      · exact Rank.twoEnded_front_insertIdx hi (f := fun j => (f j).front) _ hf _
    · rw [Rank.length_twoEnded]
      have := Rank.rank_le_length hi (fun j => (f j).front)
      omega
  · exact Rank.back_index_lt hi (fun j => (f j).front) (g := fun j => (f j).back) hb

end Helpers

/-! ## Counting and listing a node's payloads -/

theorem filterMap_asMappings_ofSlots (f : ℕ → Slot) (bat : Option BatId) :
    (ofSlots f bat).contents.filterMap Payload.asMappings =
      (List.range slots).filterMap fun i => (f i).front.bind Payload.asMappings := by
  have hb : ((List.range slots).filterMap fun i => (f i).back).filterMap Payload.asMappings =
      [] := by
    rw [List.filterMap_filterMap, List.filterMap_eq_nil_iff]
    intro i _
    cases h : f i <;> rfl
  rw [ofSlots_contents, Rank.twoEnded, List.filterMap_append,
    List.filterMap_reverse]
  unfold Rank.compress
  rw [hb, List.reverse_nil, List.append_nil, List.filterMap_filterMap]

/-- All inline mappings of a node, slot by slot. -/
theorem flatten_mappings_ofSlots (f : ℕ → Slot) (bat : Option BatId) :
    ((ofSlots f bat).contents.filterMap Payload.asMappings).flatten =
      (List.range slots).flatMap fun i => (f i).mappings := by
  rw [filterMap_asMappings_ofSlots]
  induction List.range slots with
  | nil => rfl
  | cons i l ih =>
      rw [List.filterMap_cons, List.flatMap_cons, ← ih]
      cases h : f i <;> simp [Slot.front, Slot.mappings, Payload.asMappings]

theorem keyCount_ofSlots (f : ℕ → Slot) (bat : Option BatId) :
    (ofSlots f bat).keyCount = ((List.range slots).flatMap fun i => (f i).mappings).length := by
  rw [← flatten_mappings_ofSlots f bat, List.length_flatten, keyCount]

theorem nodeCount_ofSlots (f : ℕ → Slot) (bat : Option BatId) :
    (ofSlots f bat).nodeCount = (List.range slots).countP fun i => (f i).back.isSome := by
  have hf : ((List.range slots).filterMap fun i => (f i).front).countP Payload.isShard = 0 := by
    rw [List.countP_eq_zero]
    intro p hp
    obtain ⟨i, -, hi⟩ := List.mem_filterMap.1 hp
    cases h : f i with
    | empty => rw [h] at hi; cases hi
    | bucket ms => rw [h] at hi; cases hi; exact Bool.false_ne_true
    | shard cid => rw [h] at hi; cases hi
  rw [nodeCount, ← List.countP_eq_length_filter, ofSlots_contents,
    Rank.twoEnded, List.countP_append, List.countP_reverse]
  unfold Rank.compress
  rw [hf, Nat.zero_add]
  induction List.range slots with
  | nil => rfl
  | cons i l ih =>
      rw [List.filterMap_cons, List.countP_cons, ← ih]
      cases h : f i with
      | empty => rfl
      | bucket ms => rfl
      | shard cid => exact List.countP_cons

/-- Payloads of a layout come from its slots. -/
theorem mem_contents_ofSlots {f : ℕ → Slot} {bat : Option BatId} {p : Payload}
    (h : p ∈ (ofSlots f bat).contents) :
    ∃ i < slots, (f i).front = some p ∨ (f i).back = some p := by
  rcases List.mem_append.1 h with h | h
  · obtain ⟨i, hi, hp⟩ := List.mem_filterMap.1 h
    exact ⟨i, List.mem_range.1 hi, Or.inl hp⟩
  · obtain ⟨i, hi, hp⟩ := List.mem_filterMap.1 (List.mem_reverse.1 h)
    exact ⟨i, List.mem_range.1 hi, Or.inr hp⟩

/-- An assignment with one bucket, laid out. -/
theorem ofSlots_single {i : ℕ} (hi : i < slots) (ms : List KeyElement) (bat : Option BatId) :
    ofSlots (Function.update (fun _ => .empty) i (.bucket ms)) bat =
      ⟨bitSet [] i, [], [.mappings ms], bat⟩ := by
  have hi' : i < 8 := hi
  interval_cases i <;> rfl

end Champ

end Peergos
