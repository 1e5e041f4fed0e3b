import PeergosClient.Champ.Node

/-!
# The champ: lookup, insertion, removal

`Champ::get`, `put`, `remove`, `size` and `collect_mappings` over a block store, and the
`ChampWrapper` that holds a root.  The store is passed along explicitly; a node is written by
`S.put` and read back by `S.get` and `Champ.fromCbor`.

The recursions of the source follow links from block to block.  Here they carry a bound `fuel` on
the number of levels, and end in `Fault.fuel` if it is used up.
-/

namespace Peergos

/-- `KeyHasher`. -/
abbrev KeyHasher := Bytes → Bytes

/-- `identity_key_hasher`. -/
def identityKeyHasher : KeyHasher := fun k => k

namespace Champ

variable {σ : Type} (S : ContentAddressedStorage σ)

/-- Fetch and parse the node under a link that must be present. -/
def loadLink (s : σ) (cid : Cid) : Result Champ := do
  match ← S.get s cid with
  | some cbor => fromCbor cbor
  | none => .error (.err (.protocolCid "champ child missing: " cid))

/-! ## The read path -/

/-- The link of the slot a hash falls in. -/
def childLink (c : Champ) (hash : Bytes) (depth bitWidth : ℕ) : Result Cid := do
  let bitpos := mask hash depth bitWidth
  let index ← c.linkIndex bitpos
  match ← vecGet c.contents index with
  | .link cid => .ok cid
  | .mappings _ => protocolErr "expected champ shard link"

/-- `Champ::get_child`: an absent block is not an error here. -/
def getChild (s : σ) (c : Champ) (hash : Bytes) (depth bitWidth : ℕ) : Result (Option Champ) := do
  let link ← c.childLink hash depth bitWidth
  match ← S.get s link with
  | some cbor => (fromCbor cbor).map some
  | none => .ok none

/-- `Champ::get`. -/
def get : ℕ → σ → Champ → Bytes → Bytes → ℕ → ℕ → Result (Option CborObject)
  | 0, _, _, _, _, _, _ => .error .fuel
  | fuel + 1, s, c, key, hash, depth, bitWidth => do
      let bitpos := mask hash depth bitWidth
      if bitGet c.dataMap bitpos then
        match ← vecGet c.contents (getIndex c.dataMap bitpos) with
        | .mappings mappings => .ok ((mappings.find? fun m => m.key = key).bind KeyElement.value)
        | .link _ => .ok none
      else if bitGet c.nodeMap bitpos then
        match ← getChild S s c hash depth bitWidth with
        | some child => get fuel s child key hash (depth + 1) bitWidth
        | none => .ok none
      else .ok none

/-- The body of the loop in `size`, given the count of a child. -/
def sizeStep (sizeOf : Champ → Result ℕ) (s : σ) (count : ℕ) : Payload → Result ℕ
  | .link cid => do
      let child ← loadLink S s cid
      let n ← sizeOf child
      .ok (count + n)
  | .mappings _ => .ok count

/-- `Champ::size`. -/
def size : ℕ → σ → Champ → Result ℕ
  | 0, _, _ => .error .fuel
  | fuel + 1, s, c => c.contents.foldlM (sizeStep S (size fuel s) s) c.keyCount

/-- The body of the loop in `collect_mappings`, given the mappings of a child. -/
def collectStep (collect : Champ → Result (List KeyElement)) (s : σ) (out : List KeyElement) :
    Payload → Result (List KeyElement)
  | .mappings ms => .ok (out ++ ms)
  | .link cid => do
      let child ← loadLink S s cid
      let ms ← collect child
      .ok (out ++ ms)

/-- `Champ::collect_mappings`. -/
def collectMappings : ℕ → σ → Champ → Result (List KeyElement)
  | 0, _, _ => .error .fuel
  | fuel + 1, s, c => c.contents.foldlM (collectStep S (collectMappings fuel s) s) []

/-! ## The write path -/

/-- `Champ::get_child_with_hash`. -/
def getChildWithHash (s : σ) (c : Champ) (hash : Bytes) (depth bitWidth : ℕ) :
    Result (Cid × Champ) := do
  let link ← c.childLink hash depth bitWidth
  let child ← loadLink S s link
  .ok (link, child)

/-- Write a node and return it with its CID. -/
def writeNode (s : σ) (c : Champ) : Result ((Champ × Cid) × σ) := do
  let (h, s) ← S.put s c.toCbor
  .ok ((c, h), s)

/-- `Champ::push_mappings_down_a_level`, given the insertion it uses: the new mapping first, then
the ones of the full bucket, all into an empty node one level down. -/
def pushMappingsDownALevel
    (putAt : σ → Champ → Bytes → Bytes → Option CborObject → Cid → Result ((Champ × Cid) × σ))
    (s : σ) (c : Champ) (mappings : List KeyElement) (key1 hash1 : Bytes)
    (val1 : Option CborObject) (depth : ℕ) (keyHasher : KeyHasher) :
    Result ((Champ × Cid) × σ) := do
  if depth ≥ hashCodeLength then protocolErr "Hash collision!"
  else
    let fresh := empty.withBat c.mirrorBat
    let (emptyHash, s) ← S.put s fresh.toCbor
    let start ← putAt s fresh key1 hash1 val1 emptyHash
    mappings.foldlM (fun (cur : (Champ × Cid) × σ) e =>
      putAt cur.2 cur.1.1 e.key (keyHasher e.key) e.value cur.1.2) start

/-- `Champ::put`. -/
def put : ℕ → σ → Champ → Bytes → Bytes → ℕ → Option CborObject → Option CborObject → ℕ → ℕ →
    KeyHasher → Cid → Result ((Champ × Cid) × σ)
  | 0, _, _, _, _, _, _, _, _, _, _, _ => .error .fuel
  | fuel + 1, s, c, key, hash, depth, expected, value, bitWidth, maxCollisions, keyHasher,
      ourHash => do
      let bitpos := mask hash depth bitWidth
      if bitGet c.dataMap bitpos then
        let index := getIndex c.dataMap bitpos
        match ← vecGet c.contents index with
        | .link _ => protocolErr "expected champ mappings"
        | .mappings mappings =>
            match mappings.findIdx? fun m => m.key = key with
            | some payloadIndex =>
                let mapping ← vecGet mappings payloadIndex
                if mapping.value ≠ expected then protocolErr "champ CAS failed"
                else
                  let champ ← c.copyAndSetValue index payloadIndex value
                  writeNode S s champ
            | none =>
                if mappings.length < maxCollisions then
                  let champ ← c.insertIntoPrefix index key value
                  writeNode S s champ
                else
                  let ((_, childHash), s) ← pushMappingsDownALevel S
                    (fun s c k h v our =>
                      put fuel s c k h (depth + 1) none v bitWidth maxCollisions keyHasher our)
                    s c mappings key hash value (depth + 1) keyHasher
                  let champ ← c.copyAndMigrateFromInlineToNode bitpos childHash
                  writeNode S s champ
      else if bitGet c.nodeMap bitpos then
        let (childHash, child) ← getChildWithHash S s c hash depth bitWidth
        let ((_, newChildHash), s) ← put fuel s child key hash (depth + 1) expected value bitWidth
          maxCollisions keyHasher childHash
        if newChildHash = childHash then .ok ((c, ourHash), s)
        else
          let champ ← c.overwriteChildLink bitpos newChildHash
          writeNode S s champ
      else
        let champ ← c.addNewPrefix bitpos key value
        writeNode S s champ

/-- The node a removal leaves when its remaining mappings fit one bucket: all of them under the
slot of depth 0, for the parent to inline. -/
def collapsed (c : Champ) (key hash : Bytes) (bitWidth : ℕ) : Champ :=
  let remaining := sortEntries
    ((c.contents.filterMap Payload.asMappings).flatten.filter fun m => m.key ≠ key)
  ⟨bitSet [] (mask hash 0 bitWidth), [], [.mappings remaining], c.mirrorBat⟩

/-- The end of `remove` in a node whose child is done: keep the node, take the child's last bucket
in or pass it up, or link the new child. -/
def removedBelow (c : Champ) (bitpos maxCollisions : ℕ) (ourHash childHash : Cid)
    (newChild : Champ) (newChildHash : Cid) (s : σ) : Result ((Champ × Cid) × σ) :=
  if newChildHash = childHash then .ok ((c, ourHash), s)
  else if newChild.contents.isEmpty then protocolErr "Sub-node must have at least one element"
  else if newChild.nodeCount = 0 ∧ newChild.keyCount = maxCollisions then
    if c.keyCount = 0 ∧ c.nodeCount = 1 then .ok ((newChild, newChildHash), s)
    else do
      let champ ← c.copyAndMigrateFromNodeToInline bitpos newChild
      writeNode S s champ
  else do
    let champ ← c.overwriteChildLink bitpos newChildHash
    writeNode S s champ

/-- `Champ::remove`. -/
def remove : ℕ → σ → Champ → Bytes → Bytes → ℕ → Option CborObject → ℕ → ℕ → Cid →
    Result ((Champ × Cid) × σ)
  | 0, _, _, _, _, _, _, _, _, _ => .error .fuel
  | fuel + 1, s, c, key, hash, depth, expected, bitWidth, maxCollisions, ourHash => do
      let bitpos := mask hash depth bitWidth
      if bitGet c.dataMap bitpos then
        match ← vecGet c.contents (getIndex c.dataMap bitpos) with
        | .link _ => protocolErr "expected champ mappings"
        | .mappings mappings =>
            match mappings.findIdx? fun m => m.key = key with
            | none => protocolErr "champ CAS failed: key not present"
            | some payloadIndex =>
                let mapping ← vecGet mappings payloadIndex
                if mapping.value ≠ expected then protocolErr "champ CAS failed on remove"
                else
                  let champ ←
                    if c.keyCount = maxCollisions + 1 ∧ c.nodeCount = 0 ∧ depth > 0 then
                      .ok (c.collapsed key hash bitWidth)
                    else c.removeMapping bitpos payloadIndex
                  writeNode S s champ
      else if bitGet c.nodeMap bitpos then
        let (childHash, child) ← getChildWithHash S s c hash depth bitWidth
        let ((newChild, newChildHash), s) ← remove fuel s child key hash (depth + 1) expected
          bitWidth maxCollisions childHash
        removedBelow S c bitpos maxCollisions ourHash childHash newChild newChildHash s
      else .ok ((c, ourHash), s)

end Champ

/-! ## The wrapper -/

/-- `ChampWrapper`: a handle onto the champ under a root. -/
structure ChampWrapper where
  root : Champ
  rootHash : Cid
  keyHasher : KeyHasher

namespace ChampWrapper

variable {σ : Type} (S : ContentAddressedStorage σ) (fuel : ℕ)

/-- `ChampWrapper::create`. -/
def create (s : σ) (rootHash : Cid) (keyHasher : KeyHasher) : Result ChampWrapper := do
  match ← S.get s rootHash with
  | none => .error (.err (.protocolCid "Champ root not present: " rootHash))
  | some raw =>
      let root ← Champ.fromCbor raw
      .ok ⟨root, rootHash, keyHasher⟩

/-- `ChampWrapper::get`. -/
def get (s : σ) (w : ChampWrapper) (rawKey : Bytes) : Result (Option CborObject) :=
  Champ.get S fuel s w.root rawKey (w.keyHasher rawKey) 0 Champ.bitWidth

/-- `ChampWrapper::put`; the returned CID is the new `rootHash`. -/
def put (s : σ) (w : ChampWrapper) (rawKey : Bytes) (expected value : Option CborObject) :
    Result (ChampWrapper × σ) := do
  let ((root, rootHash), s) ← Champ.put S fuel s w.root rawKey (w.keyHasher rawKey) 0 expected
    value Champ.bitWidth Champ.maxHashCollisionsPerLevel w.keyHasher w.rootHash
  .ok ({ w with root, rootHash }, s)

/-- `ChampWrapper::remove`; the returned CID is the new `rootHash`. -/
def remove (s : σ) (w : ChampWrapper) (rawKey : Bytes) (expected : Option CborObject) :
    Result (ChampWrapper × σ) := do
  let ((root, rootHash), s) ← Champ.remove S fuel s w.root rawKey (w.keyHasher rawKey) 0 expected
    Champ.bitWidth Champ.maxHashCollisionsPerLevel w.rootHash
  .ok ({ w with root, rootHash }, s)

/-- `ChampWrapper::size`. -/
def size (s : σ) (w : ChampWrapper) : Result ℕ := Champ.size S fuel s w.root

end ChampWrapper

end Peergos
