import PeergosClient.Cbor.Decode
import PeergosClient.Core.Mutable

/-!
# The block buffer

`BufferedStorage` holds the blocks written since the last flush.  A flush sends those reachable
from the new roots: `commitBlocks` groups them into upload batches, and `partitionByRoot` assigns
each to the first root that reaches it.

A hash map is the list of its entries in the order it is iterated in; the source fixes no order.
The read cache only ever holds what the server returned and is left out.
-/

namespace Peergos

/-- `MAX_SMALL_BLOCK_SIZE`. -/
def maxSmallBlockSize : ℕ := 100 * 1024

/-- `MAX_BLOCK_AUTHS`. -/
def maxBlockAuths : ℕ := 50

/-- `MAX_CBOR_BATCH_SIZE`. -/
def maxCborBatchSize : ℕ := 1024 * 1024

/-- `MAX_CBOR_BLOCKS_PER_BATCH`. -/
def maxCborBlocksPerBatch : ℕ := 1000

/-- `BufferedBlock`. -/
structure BufferedBlock where
  data : Bytes
  signature : Bytes
  owner : PublicKeyHash
  writer : PublicKeyHash
  isRaw : Bool
  deriving DecidableEq, Repr

/-- `BufferedStorage`: the buffered blocks, and the owners whose server has no `bulk/commit`. -/
structure BufferedStorage where
  buffer : List (Cid × BufferedBlock)
  bulkUnsupported : List PublicKeyHash
  deriving DecidableEq, Repr

/-- The CIDs a cbor block links to; bytes that do not decode link to nothing. -/
def blockLinks (data : Bytes) (isRaw : Bool) : List Cid :=
  if isRaw then []
  else
    match CborObject.fromBytes data with
    | .ok cbor => cbor.links.filterMap fun link => (Cid.cast link).toOption
    | .error _ => []

namespace BufferedStorage

/-- `buf.get(&cid)`. -/
def lookup (b : BufferedStorage) (cid : Cid) : Option BufferedBlock :=
  (b.buffer.find? fun e => e.1 = cid).map Prod.snd

/-- `buf.insert(cid, block)`. -/
def insert (b : BufferedStorage) (cid : Cid) (block : BufferedBlock) : BufferedStorage :=
  if b.buffer.any fun e => e.1 = cid then
    { b with buffer := b.buffer.map fun e => if e.1 = cid then (cid, block) else e }
  else { b with buffer := b.buffer ++ [(cid, block)] }

/-- `BufferedStorage::total_size`. -/
def totalSize (b : BufferedStorage) : ℕ := (b.buffer.map fun e => e.2.data.length).sum

/-- `BufferedStorage::clear`. -/
def clear (b : BufferedStorage) : BufferedStorage := { b with buffer := [] }

/-- `bulk_unsupported.insert(owner)`. -/
def refuseBulk (b : BufferedStorage) (owner : PublicKeyHash) : BufferedStorage :=
  if owner ∈ b.bulkUnsupported then b
  else { b with bulkUnsupported := b.bulkUnsupported ++ [owner] }

/-- `BufferedStorage::buffer_put`. -/
def bufferPut (sha256 : Bytes → Bytes) (owner writer : PublicKeyHash) (isRaw : Bool)
    (signed blocks : List Bytes) (b : BufferedStorage) : Result (List Cid × BufferedStorage) :=
  if signed.length ≠ blocks.length then protocolErr "blocks/signatures length mismatch"
  else
    (blocks.zip signed).foldlM (fun acc e => do
      let cid ← liftMf (buildCid (sha256 e.1) isRaw)
      .ok (acc.1 ++ [cid], acc.2.insert cid ⟨e.1, e.2, owner, writer, isRaw⟩)) ([], b)

/-- The loop of `BufferedStorage::reachable`, over the blocks kept and the stack.  A block pushes
its links once, so the number of pops is bounded. -/
def reachableLoop (b : BufferedStorage) : ℕ → List Cid → List Cid → List Cid
  | 0, keep, _ => keep
  | _, keep, [] => keep
  | pops + 1, keep, cid :: stack =>
      if cid ∈ keep then reachableLoop b pops keep stack
      else
        match b.lookup cid with
        | none => reachableLoop b pops keep stack
        | some block =>
            reachableLoop b pops (keep ++ [cid])
              ((blockLinks block.data block.isRaw).reverse ++ stack)

/-- How many times `reachable` can pop its stack. -/
def reachablePops (b : BufferedStorage) (roots : List Cid) : ℕ :=
  roots.length + (b.buffer.map fun e => (blockLinks e.2.data e.2.isRaw).length).sum

/-- `BufferedStorage::reachable`. -/
def reachable (b : BufferedStorage) (roots : List Cid) : List Cid :=
  b.reachableLoop (b.reachablePops roots) [] roots.reverse

/-- The part of one root in `partition_by_root`, with the blocks claimed so far. -/
def partitionStep (b : BufferedStorage) (owner : PublicKeyHash)
    (acc : List Cid × List (List (Cid × BufferedBlock))) (root : Option Cid) :
    List Cid × List (List (Cid × BufferedBlock)) :=
  let reachable := match root with
    | some r => b.reachable [r]
    | none => []
  let part := reachable.filterMap fun cid =>
    (b.lookup cid).bind fun block =>
      if block.owner = owner ∧ cid ∉ acc.1 then some (cid, block) else none
  (acc.1 ++ part.map Prod.fst, acc.2 ++ [part])

/-- `BufferedStorage::partition_by_root`. -/
def partitionByRoot (b : BufferedStorage) (owner : PublicKeyHash) (roots : List (Option Cid)) :
    List (List (Cid × BufferedBlock)) :=
  (roots.foldl (b.partitionStep owner) ([], [])).2

/-! ## Upload batches -/

/-- One upload of `commit_blocks`: the writer, whether the blocks are raw, and each block with its
signature. -/
structure Batch where
  writer : PublicKeyHash
  isRaw : Bool
  items : List (Bytes × Bytes)
  deriving DecidableEq, Repr

/-- `group.entry(writer).or_default().push(item)`. -/
def pushGroup (groups : List (PublicKeyHash × List (Bytes × Bytes))) (writer : PublicKeyHash)
    (item : Bytes × Bytes) : List (PublicKeyHash × List (Bytes × Bytes)) :=
  if groups.any fun g => g.1 = writer then
    groups.map fun g => if g.1 = writer then (g.1, g.2 ++ [item]) else g
  else groups ++ [(writer, [item])]

/-- The blocks of one flush group by writer. -/
def groupByWriter (blocks : List BufferedBlock) : List (PublicKeyHash × List (Bytes × Bytes)) :=
  blocks.foldl (fun groups b => pushGroup groups b.writer (b.signature, b.data)) []

/-- The batches of one writer's cbor blocks: at most 1 MiB and 1000 blocks each. -/
def cborBatches (writer : PublicKeyHash) : List (Bytes × Bytes) → List (Bytes × Bytes) → ℕ →
    List Batch
  | [], [], _ => []
  | [], batch, _ => [⟨writer, false, batch⟩]
  | item :: items, batch, size =>
      if batch ≠ [] ∧ (maxCborBatchSize < size + item.2.length ∨
          maxCborBlocksPerBatch ≤ batch.length) then
        ⟨writer, false, batch⟩ :: cborBatches writer items [item] item.2.length
      else cborBatches writer items (batch ++ [item]) (size + item.2.length)

/-- The batches of one writer's raw blocks: at most `maxBlockAuths` each. -/
def rawBatches (writer : PublicKeyHash) : List (Bytes × Bytes) → List (Bytes × Bytes) → List Batch
  | [], [] => []
  | [], batch => [⟨writer, true, batch⟩]
  | item :: items, batch =>
      if maxBlockAuths ≤ batch.length + 1 then
        ⟨writer, true, batch ++ [item]⟩ :: rawBatches writer items []
      else rawBatches writer items (batch ++ [item])

/-- The blocks a flush of `owner` sends. -/
def keepFor (b : BufferedStorage) (owner : PublicKeyHash) (roots : List Cid) : List Cid :=
  (b.reachable roots).filter fun cid =>
    match b.lookup cid with
    | some block => block.owner = owner
    | none => false

/-- The upload batches of `commit_blocks` for the blocks in `keep`. -/
def batches (b : BufferedStorage) (keep : List Cid) : List Batch :=
  let blocks := (b.buffer.filter fun e => e.1 ∈ keep).map Prod.snd
  let cbor := blocks.filter fun x => !x.isRaw
  let smallRaw := blocks.filter fun x => x.isRaw && decide (x.data.length < maxSmallBlockSize)
  let largeRaw := blocks.filter fun x => x.isRaw && decide (maxSmallBlockSize ≤ x.data.length)
  (groupByWriter cbor).flatMap (fun g => cborBatches g.1 g.2 [] 0) ++
    (groupByWriter smallRaw).flatMap (fun g => rawBatches g.1 g.2 []) ++
    (groupByWriter largeRaw).flatMap (fun g => rawBatches g.1 g.2 [])

/-- `buf.retain(|c, _| !keep.contains(c))`. -/
def drop (b : BufferedStorage) (keep : List Cid) : BufferedStorage :=
  { b with buffer := b.buffer.filter fun e => e.1 ∉ keep }

end BufferedStorage

end Peergos
