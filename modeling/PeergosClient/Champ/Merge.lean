import PeergosClient.Champ.Ops

/-!
# Three-way merge of champs

`diff` walks two trees in lock-step and lists the keys whose values differ; `mergeChamp` lists the
changes of both sides since `base`, refuses if they share a key, and replays the remote ones onto
our tree.  `mergeWriterData` does this for the `tree` field of three WriterData blocks.

Two places of `diff` iterate over a hash map, in an order the source does not fix.  The order is a
parameter, `HashOrder`: the map is named by the path of slots to where it is built, so that any two
maps may be walked in unrelated orders.
-/

namespace Peergos

namespace ChampMerge

open Champ

/-- `DiffEntry`: a key that differs, with its value in the base and in the other tree. -/
structure DiffEntry where
  key : Bytes
  base : Option CborObject
  other : Option CborObject
  deriving DecidableEq

/-- An iteration order for every hash map of a walk. -/
abbrev HashOrder := List ℕ → List KeyElement → List KeyElement

/-- An order lists what the map holds, each entry once. -/
def HashOrder.Lawful (order : HashOrder) : Prop := ∀ path l, (order path l).Perm l

/-- `HashMap::insert`: the value of a key already there is replaced. -/
def hashMapInsert : List KeyElement → KeyElement → List KeyElement
  | [], m => [m]
  | e :: es, m => if e.key = m.key then { e with value := m.value } :: es
      else e :: hashMapInsert es m

/-- `into_iter().map(..).collect()` into a hash map. -/
def hashMapOf (l : List KeyElement) : List KeyElement := l.foldl hashMapInsert []

/-- `get_element`. -/
def getElement (bit dataIndex nodeIndex : ℕ) : Option Champ → Result (Option Payload)
  | none => .ok none
  | some c =>
      if bitGet c.dataMap bit then .ok c.contents[dataIndex]?
      else if bitGet c.nodeMap bit then do
        let last ← usizeSub c.contents.length 1
        let index ← usizeSub last nodeIndex
        .ok c.contents[index]?
      else .ok none

/-- The group of slot `i` in `hash_and_mask(mappings, depth)`, empty if there is none. -/
def hashAndMask (mappings : List KeyElement) (depth i : ℕ) : List KeyElement :=
  mappings.filter fun m => mask m.key depth bitWidth = i

/-- The differences between two slots that hold mappings: what the left has and the right has not
or has otherwise, then what only the right has. -/
def compareMappings (orderLeft orderRight : List KeyElement → List KeyElement)
    (leftMappings rightMappings : List KeyElement) : List DiffEntry :=
  let lmap := hashMapOf leftMappings
  let rmap := hashMapOf rightMappings
  ((orderLeft lmap).filterMap fun m =>
      match rmap.find? fun r => r.key = m.key with
      | none => some ⟨m.key, m.value, none⟩
      | some r => if r.value ≠ m.value then some ⟨m.key, m.value, r.value⟩ else none) ++
    (orderRight rmap).filterMap fun m =>
      match lmap.find? fun l => l.key = m.key with
      | none => some ⟨m.key, none, m.value⟩
      | some _ => none

/-- The mappings of a slot: its bucket, or what came down from a bucket higher up. -/
def slotMappings (p : Option Payload) (higher : List KeyElement) : List KeyElement :=
  match p with
  | some (.mappings m) => m
  | _ => higher

/-- The link of a slot. -/
def slotShard : Option Payload → Option Cid
  | some (.link c) => some c
  | _ => none

/-- A pair of subtrees still to be compared, with the slot they are under. -/
structure Deeper where
  slot : ℕ
  left : Option Cid
  right : Option Cid
  higherLeft : List KeyElement
  higherRight : List KeyElement

/-- The variables of the loop over the slots in `diff`. -/
structure DiffLoop where
  ld : ℕ
  rd : ℕ
  ln : ℕ
  rn : ℕ
  deeper : List Deeper
  out : List DiffEntry

/-- How a slot moves the running count of buckets. -/
def dataStep (p : Option Payload) : ℕ := if ((p.map Payload.isShard).getD true) then 0 else 1

/-- How a slot moves the running count of links. -/
def nodeStep (p : Option Payload) : ℕ := if ((p.map Payload.isShard).getD false) then 1 else 0

/-- The body of the loop over the slots in `diff`. -/
def diffSlot (order : HashOrder) (path : List ℕ) (left right : Option Champ)
    (higherLeft higherRight : List KeyElement) (depth : ℕ) (st : DiffLoop) (i : ℕ) :
    Result DiffLoop := do
  let lp ← getElement i st.ld st.ln left
  let rp ← getElement i st.rd st.rn right
  let leftMappings := slotMappings lp (hashAndMask higherLeft depth i)
  let rightMappings := slotMappings rp (hashAndMask higherRight depth i)
  let counted := { st with
    ld := st.ld + dataStep lp, rd := st.rd + dataStep rp,
    ln := st.ln + nodeStep lp, rn := st.rn + nodeStep rp }
  if (slotShard lp).isSome || (slotShard rp).isSome then
    let pair : Deeper := ⟨i, slotShard lp, slotShard rp, leftMappings, rightMappings⟩
    .ok { counted with deeper := st.deeper ++ [pair] }
  else
    let changes := compareMappings (order (path ++ [i, 0])) (order (path ++ [i, 1]))
      leftMappings rightMappings
    .ok { counted with out := st.out ++ changes }

section Merge

variable {σ : Type} (S : ContentAddressedStorage σ)

/-- `get_block`. -/
def getBlock (s : σ) (cid : Cid) : Result CborObject := do
  match ← S.get s cid with
  | some cbor => .ok cbor
  | none => .error (.err (.protocolCid "block missing for merge: " cid))

/-- `load_champ`. -/
def loadChamp (s : σ) : Option Cid → Result (Option Champ)
  | some c => do
      let block ← getBlock S s c
      let champ ← fromCbor block
      .ok (some champ)
  | none => .ok none

/-- `diff`. -/
def diff : ℕ → σ → HashOrder → List ℕ → Option Cid → Option Cid → ℕ → List KeyElement →
    List KeyElement → List DiffEntry → Result (List DiffEntry)
  | 0, _, _, _, _, _, _, _, _, _ => .error .fuel
  | fuel + 1, s, order, path, original, updated, depth, higherLeft, higherRight, out =>
      if original = updated then .ok out
      else do
        let left ← loadChamp S s original
        let right ← loadChamp S s updated
        let st ← (List.range slots).foldlM
          (diffSlot order path left right higherLeft higherRight depth) ⟨0, 0, 0, 0, [], out⟩
        st.deeper.foldlM (fun out p => diff fuel s order (path ++ [p.slot]) p.left p.right
          (depth + 1) p.higherLeft p.higherRight out) st.out

/-- The replay of one remote change. -/
def applyEntry (fuel : ℕ) (st : ChampWrapper × σ) (d : DiffEntry) : Result (ChampWrapper × σ) :=
  match d.other with
  | some value => st.1.put S fuel st.2 d.key d.base (some value)
  | none => st.1.remove S fuel st.2 d.key d.base

/-- `merge_champ`; the new nodes are in the returned store. -/
def mergeChamp (fuel : ℕ) (ourOrder remoteOrder : HashOrder) (s : σ) (base ours theirs : Cid) :
    Result (Cid × σ) := do
  let ourDiff ← diff S fuel s ourOrder [] (some base) (some ours) 0 [] [] []
  let remoteDiff ← diff S fuel s remoteOrder [] (some base) (some theirs) 0 [] [] []
  if ourDiff.any fun d => remoteDiff.any fun e => d.key = e.key then
    protocolErr "Concurrent modification of a file or directory!"
  else
    let merged ← ChampWrapper.create S s ours identityKeyHasher
    let (merged, s) ← remoteDiff.foldlM (applyEntry S fuel) (merged, s)
    .ok (merged.rootHash, s)

/-! ## WriterData blocks -/

/-- `tree_root`. -/
def treeRoot (wd : CborObject) : Result Cid :=
  match (wd.get "tree").bind CborObject.asLink with
  | none => cborErr "WriterData has no champ tree"
  | some link => liftMf (Cid.cast link)

/-- `with_tree`. -/
def withTree (wd : CborObject) (treeRoot : Cid) : Result CborObject :=
  match wd with
  | .map m => .ok (.map (CborObject.mapInsert "tree" (.merkleLink treeRoot.toBytes) m))
  | _ => cborErr "WriterData is not a map"

/-- `merge_writer_data`.  The merged block is returned as an object; the source returns the bytes
it encodes to. -/
def mergeWriterData (fuel : ℕ) (ourOrder remoteOrder : HashOrder) (s : σ)
    (baseWd ourWd theirWd : Cid) : Result (CborObject × σ) := do
  let base ← getBlock S s baseWd
  let ours ← getBlock S s ourWd
  let theirs ← getBlock S s theirWd
  let baseTree ← treeRoot base
  let ourTree ← treeRoot ours
  let theirTree ← treeRoot theirs
  let (mergedRoot, s) ← mergeChamp S fuel ourOrder remoteOrder s baseTree ourTree theirTree
  let merged ← withTree theirs mergedRoot
  .ok (merged, s)

end Merge

end ChampMerge

end Peergos
