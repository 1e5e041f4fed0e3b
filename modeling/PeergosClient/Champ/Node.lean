import PeergosClient.Champ.Bitmap
import PeergosClient.Lib.Keyed

/-!
# Champ nodes

One node of the champ: two bitmaps over its slots and one array of payloads, the buckets from the
front in the order of `dataMap` and the links from the tail in the order of `nodeMap`.  This file
has the copy helpers of the write path, each a function from a node to a node, and the CBOR form
of a node with its round trip, `fromCbor_toCbor`.
-/

namespace Peergos

/-- `KeyElement`: one mapping. -/
structure KeyElement where
  key : Bytes
  value : Option CborObject
  deriving DecidableEq, Repr

/-- `Payload`: a slot's inline mappings, or the link to its child node. -/
inductive Payload where
  | mappings (ms : List KeyElement)
  | link (cid : Cid)
  deriving DecidableEq, Repr

namespace Payload

/-- `Payload::is_shard`. -/
def isShard : Payload → Bool
  | mappings _ => false
  | link _ => true

/-- `Payload::as_mappings`. -/
def asMappings : Payload → Option (List KeyElement)
  | mappings ms => some ms
  | link _ => none

end Payload

/-- `byte_array_compare`: length first, then unsigned lexicographic. -/
def byteArrayCompare (a b : Bytes) : Ordering := (compare a.length b.length).then (compare a b)

instance : Std.TransCmp byteArrayCompare :=
  inferInstanceAs (Std.TransCmp (compareLex (compareOn List.length) compare))

instance : Std.LawfulEqCmp byteArrayCompare where
  compare_self := by
    intro a
    simp [byteArrayCompare]
  eq_of_compare := by
    intro a b h
    unfold byteArrayCompare at h
    rw [Ordering.then_eq_eq] at h
    exact Std.LawfulEqCmp.eq_of_compare h.2

/-- Strictly sorted by key, as every bucket is. -/
abbrev SortedEntries (l : List KeyElement) : Prop := Keyed.Sorted byteArrayCompare KeyElement.key l

/-- `sort_by(|a, b| byte_array_compare(&a.key, &b.key))`. -/
abbrev sortEntries (l : List KeyElement) : List KeyElement :=
  Keyed.sortByKey byteArrayCompare KeyElement.key l

/-- `BatId`. -/
structure BatId where
  id : Cid
  deriving DecidableEq, Repr

namespace BatId

/-- `BatId::to_cbor`. -/
def toCbor (b : BatId) : CborObject := .byteString b.id.toBytes

/-- `BatId::from_cbor`. -/
def fromCbor (cbor : CborObject) : Result BatId :=
  match cbor.asBytes with
  | none => cborErr "Incorrect cbor for BatId"
  | some bytes => do
      let id ← liftMf (Cid.cast bytes)
      .ok ⟨id⟩

end BatId

/-- `Champ`: one node. -/
structure Champ where
  dataMap : Bytes
  nodeMap : Bytes
  contents : List Payload
  mirrorBat : Option BatId
  deriving DecidableEq, Repr

namespace Champ

/-- `Champ::empty`. -/
def empty : Champ := ⟨[], [], [], none⟩

/-- `Champ::with_bat`. -/
def withBat (c : Champ) (bat : Option BatId) : Champ := { c with mirrorBat := bat }

/-- `Champ::with_contents`. -/
def withContents (c : Champ) (dataMap nodeMap : Bytes) (contents : List Payload) : Champ :=
  ⟨dataMap, nodeMap, contents, c.mirrorBat⟩

/-- `Champ::key_count`. -/
def keyCount (c : Champ) : ℕ := ((c.contents.filterMap Payload.asMappings).map List.length).sum

/-- `Champ::node_count`. -/
def nodeCount (c : Champ) : ℕ := (c.contents.filter Payload.isShard).length

/-- The array index of the link of slot `bitpos`, counted from the tail. -/
def linkIndex (c : Champ) (bitpos : ℕ) : Result ℕ := do
  let last ← usizeSub c.contents.length 1
  usizeSub last (getIndex c.nodeMap bitpos)

/-! ## The copy helpers -/

/-- `Champ::remove_mapping`. -/
def removeMapping (c : Champ) (bitpos payloadIndex : ℕ) : Result Champ := do
  let dataIndex := getIndex c.dataMap bitpos
  match ← vecGet c.contents dataIndex with
  | .mappings m =>
      if m.length = 1 then
        let dst ← vecRemove c.contents dataIndex
        .ok (c.withContents (bitClear c.dataMap bitpos) c.nodeMap dst)
      else
        let remaining ← vecRemove m payloadIndex
        let dst ← vecSet c.contents dataIndex (.mappings remaining)
        .ok (c.withContents c.dataMap c.nodeMap dst)
  | .link _ => .ok (c.withContents c.dataMap c.nodeMap c.contents)

/-- `Champ::copy_and_migrate_from_node_to_inline`. -/
def copyAndMigrateFromNodeToInline (c : Champ) (bitpos : ℕ) (node : Champ) : Result Champ := do
  let oldIndex ← c.linkIndex bitpos
  let newIndex := getIndex c.dataMap bitpos
  let bucket := (node.contents.head?.bind Payload.asMappings).getD []
  let dst ← vecRemove c.contents oldIndex
  let dst ← vecInsert dst newIndex (.mappings bucket)
  .ok (c.withContents (bitSet c.dataMap bitpos) (bitClear c.nodeMap bitpos) dst)

/-- `Champ::copy_and_set_value`. -/
def copyAndSetValue (c : Champ) (setIndex payloadIndex : ℕ) (val : Option CborObject) :
    Result Champ := do
  match ← vecGet c.contents setIndex with
  | .mappings ms =>
      let m ← vecGet ms payloadIndex
      let updated ← vecSet ms payloadIndex { m with value := val }
      let dst ← vecSet c.contents setIndex (.mappings updated)
      .ok (c.withContents c.dataMap c.nodeMap dst)
  | .link _ => .ok (c.withContents c.dataMap c.nodeMap c.contents)

/-- `Champ::insert_into_prefix`. -/
def insertIntoPrefix (c : Champ) (index : ℕ) (key : Bytes) (val : Option CborObject) :
    Result Champ := do
  match ← vecGet c.contents index with
  | .mappings ms =>
      let dst ← vecSet c.contents index (.mappings (sortEntries (ms ++ [⟨key, val⟩])))
      .ok (c.withContents c.dataMap c.nodeMap dst)
  | .link _ => .ok (c.withContents c.dataMap c.nodeMap c.contents)

/-- `Champ::add_new_prefix`. -/
def addNewPrefix (c : Champ) (bitpos : ℕ) (key : Bytes) (val : Option CborObject) :
    Result Champ := do
  let insertIndex := getIndex c.dataMap bitpos
  let dst ← vecInsert c.contents insertIndex (.mappings [⟨key, val⟩])
  .ok (c.withContents (bitSet c.dataMap bitpos) c.nodeMap dst)

/-- `Champ::copy_and_migrate_from_inline_to_node`. -/
def copyAndMigrateFromInlineToNode (c : Champ) (bitpos : ℕ) (nodeHash : Cid) : Result Champ := do
  let oldIndex := getIndex c.dataMap bitpos
  let newIndex ← c.linkIndex bitpos
  let dst ← vecRemove c.contents oldIndex
  let dst ← vecInsert dst newIndex (.link nodeHash)
  .ok (c.withContents (bitClear c.dataMap bitpos) (bitSet c.nodeMap bitpos) dst)

/-- `Champ::overwrite_child_link`. -/
def overwriteChildLink (c : Champ) (bitpos : ℕ) (nodeHash : Cid) : Result Champ := do
  let setIndex ← c.linkIndex bitpos
  let dst ← vecSet c.contents setIndex (.link nodeHash)
  .ok (c.withContents c.dataMap c.nodeMap dst)

/-! ## The CBOR form -/

/-- The flat list of a bucket: key, value, key, value. -/
def mappingsToCbor : List KeyElement → List CborObject
  | [] => []
  | m :: ms => .byteString m.key :: m.value.getD .null :: mappingsToCbor ms

/-- One element of the contents list. -/
def payloadToCbor : Payload → CborObject
  | .link cid => .merkleLink cid.toBytes
  | .mappings ms => .list (mappingsToCbor ms)

/-- `Champ::to_cbor_list`. -/
def toCborList (c : Champ) : CborObject :=
  .list [.byteString c.dataMap, .byteString c.nodeMap, .list (c.contents.map payloadToCbor)]

/-- `Champ::to_cbor`: the map form carries the mirror BAT. -/
def toCbor (c : Champ) : CborObject :=
  match c.mirrorBat with
  | some bat => CborObject.build [("d", c.toCborList), ("bats", .list [bat.toCbor])]
  | none => c.toCborList

/-- The pairs of a bucket's flat list; the length is known to be even. -/
def mappingsFromCbor : List CborObject → Result (List KeyElement)
  | [] => .ok []
  | [_] => .error .panic
  | k :: v :: rest =>
      match k.asBytes with
      | none => cborErr "champ key must be bytes"
      | some key => do
          let value := if v = .null then none else some v
          let ms ← mappingsFromCbor rest
          .ok (⟨key, value⟩ :: ms)

/-- One element of the contents list, read. -/
def payloadFromCbor : CborObject → Result Payload
  | .list mappings =>
      if mappings.length % 2 ≠ 0 then
        cborErr "Invalid cbor for CHAMP mappings: odd number of elements"
      else do
        let ms ← mappingsFromCbor mappings
        .ok (.mappings ms)
  | .merkleLink cidBytes => do
      let cid ← liftMf (Cid.cast cidBytes)
      .ok (.link cid)
  | _ => cborErr "Invalid champ content element"

/-- The contents list, read. -/
def contentsFromCbor : List CborObject → Result (List Payload)
  | [] => .ok []
  | e :: es => do
      let p ← payloadFromCbor e
      let ps ← contentsFromCbor es
      .ok (p :: ps)

/-- `Champ::from_cbor_list`. -/
def fromCborList (cbor : CborObject) : Result Champ :=
  match cbor.asList with
  | none => cborErr "Invalid cbor for CHAMP!"
  | some (d :: n :: c :: _) =>
      match d.asBytes with
      | none => cborErr "Invalid cbor for a champ, is this a btree?"
      | some dataMap =>
          match n.asBytes with
          | none => cborErr "champ nodeMap must be bytes"
          | some nodeMap =>
              match c.asList with
              | none => cborErr "champ contents must be a list"
              | some contentsCbor => do
                  let contents ← contentsFromCbor contentsCbor
                  .ok ⟨dataMap, nodeMap, contents, none⟩
  | some _ => cborErr "champ list needs 3 elements"

/-- `Champ::from_cbor`. -/
def fromCbor (cbor : CborObject) : Result Champ :=
  match cbor with
  | .map _ => do
      let mirrorBat ← match (cbor.get "bats").bind CborObject.asList with
        | some (b :: _) => (BatId.fromCbor b).map some
        | _ => .ok none
      match cbor.get "d" with
      | none => cborErr "champ map missing 'd'"
      | some d => do
          let champ ← fromCborList d
          .ok { champ with mirrorBat := mirrorBat }
  | _ => fromCborList cbor

/-! ## The round trip -/

/-- A payload that reads back: no stored `null`, and a link whose CID casts back. -/
def PayloadReadable : Payload → Prop
  | .mappings ms => ∀ m ∈ ms, m.value ≠ some .null
  | .link cid => Cid.cast cid.toBytes = .ok cid

/-- A mirror BAT that reads back. -/
def BatReadable (bat : Option BatId) : Prop := ∀ b ∈ bat, Cid.cast b.id.toBytes = .ok b.id

theorem length_mappingsToCbor (ms : List KeyElement) :
    (mappingsToCbor ms).length = 2 * ms.length := by
  induction ms with
  | nil => rfl
  | cons m ms ih => simp only [mappingsToCbor, List.length_cons, ih]; omega

theorem mappingsFromCbor_toCbor {ms : List KeyElement} (h : ∀ m ∈ ms, m.value ≠ some .null) :
    mappingsFromCbor (mappingsToCbor ms) = .ok ms := by
  induction ms with
  | nil => rfl
  | cons m ms ih =>
      obtain ⟨key, value⟩ := m
      have hm := h ⟨key, value⟩ (List.mem_cons_self ..)
      have hv : (if value.getD .null = .null then none else some (value.getD .null)) = value := by
        cases value with
        | none => simp
        | some v =>
            have hne : v ≠ .null := fun hv => hm (by rw [hv])
            simp [hne]
      simp only [mappingsToCbor, mappingsFromCbor, CborObject.asBytes,
        ih fun m hm => h m (List.mem_cons_of_mem _ hm), ok_bind, hv]

theorem payloadFromCbor_toCbor {p : Payload} (h : PayloadReadable p) :
    payloadFromCbor (payloadToCbor p) = .ok p := by
  cases p with
  | mappings ms =>
      simp only [payloadToCbor, payloadFromCbor, length_mappingsToCbor,
        mappingsFromCbor_toCbor h, ok_bind]
      simp
  | link cid =>
      have hc : Cid.cast cid.toBytes = .ok cid := h
      simp only [payloadToCbor, payloadFromCbor, hc, liftMf, ok_bind]

theorem contentsFromCbor_toCbor {ps : List Payload} (h : ∀ p ∈ ps, PayloadReadable p) :
    contentsFromCbor (ps.map payloadToCbor) = .ok ps := by
  induction ps with
  | nil => rfl
  | cons p ps ih =>
      simp only [List.map_cons, contentsFromCbor,
        payloadFromCbor_toCbor (h p (List.mem_cons_self ..)), ok_bind,
        ih fun q hq => h q (List.mem_cons_of_mem _ hq)]

/-- A node reads back from its CBOR form. -/
theorem fromCbor_toCbor {c : Champ} (h : ∀ p ∈ c.contents, PayloadReadable p)
    (hbat : BatReadable c.mirrorBat) : fromCbor c.toCbor = .ok c := by
  obtain ⟨dataMap, nodeMap, contents, mirrorBat⟩ := c
  have hlist : fromCborList (toCborList ⟨dataMap, nodeMap, contents, mirrorBat⟩) =
      .ok ⟨dataMap, nodeMap, contents, none⟩ := by
    simp only [toCborList, fromCborList, CborObject.asList, CborObject.asBytes,
      contentsFromCbor_toCbor h, ok_bind]
  cases mirrorBat with
  | none => exact hlist
  | some bat =>
      have hcmp : CborObject.cborStringCmp "bats" "d" = .gt := by decide
      have hb : BatId.fromCbor bat.toCbor = .ok bat := by
        simp only [BatId.fromCbor, BatId.toCbor, CborObject.asBytes, hbat bat rfl, liftMf, ok_bind]
      have hmap : toCbor ⟨dataMap, nodeMap, contents, some bat⟩ =
          .map [("d", toCborList ⟨dataMap, nodeMap, contents, some bat⟩),
            ("bats", .list [bat.toCbor])] := by
        simp [toCbor, CborObject.build, CborObject.mapInsert, hcmp]
      rw [hmap, fromCbor]
      simp [CborObject.get, CborObject.asList, hb, hlist, Except.map]

end Champ

end Peergos
