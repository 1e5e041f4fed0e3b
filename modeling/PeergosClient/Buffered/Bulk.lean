import PeergosClient.Buffered.Blocks

/-!
# Bulk commits

A `bulk/commit` carries a whole logical write for one owner: for each writer the new blocks and the
pointer update, applied together by the server.  A commit too big for one call is `split`: the last
call takes the top of each writer's tree and the pointer updates, the calls before it only blocks.

Where the source holds a signature, the model holds what was signed.
-/

namespace Peergos

/-- `MAX_BULK_COMMIT_SIZE`. -/
def maxBulkCommitSize : ℕ := 2 * 1024 * 1024

/-- `MAX_BULK_COMMIT_BLOCKS`. -/
def maxBulkCommitBlocks : ℕ := 1000

/-- `MAX_BULK_INLINE`. -/
def maxBulkInline : ℕ := maxBulkCommitSize - 64 * 1024

/-- `TransactionId`. -/
abbrev TransactionId := String

/-- `SignedPointerUpdate`. -/
structure SignedPointerUpdate where
  writer : PublicKeyHash
  signed : PointerUpdate
  deriving DecidableEq, Repr

/-- `WriterCommit`. -/
structure WriterCommit where
  writer : PublicKeyHash
  cborBlocks : List Bytes
  rawBlocks : List Bytes
  preWritten : List Cid
  pointer : Option SignedPointerUpdate
  /-- The ordered hashes of the blocks and the sequence the writer is heading for. -/
  blockListSignature : Option (List Cid × Option Int64)
  deriving DecidableEq, Repr

/-- `BulkCommit`. -/
structure BulkCommit where
  tid : Option TransactionId
  writers : List WriterCommit
  deriving DecidableEq, Repr

namespace WriterCommit

/-- `WriterCommit::inline_size`. -/
def inlineSize (w : WriterCommit) : ℕ := ((w.cborBlocks ++ w.rawBlocks).map List.length).sum

/-- `WriterCommit::block_count`. -/
def blockCount (w : WriterCommit) : ℕ := w.cborBlocks.length + w.rawBlocks.length

end WriterCommit

namespace BulkCommit

/-- `BulkCommit::inline_size`. -/
def inlineSize (c : BulkCommit) : ℕ := (c.writers.map WriterCommit.inlineSize).sum

/-- `BulkCommit::block_count`. -/
def blockCount (c : BulkCommit) : ℕ := (c.writers.map WriterCommit.blockCount).sum

/-- `BulkCommit::pre_written_count`. -/
def preWrittenCount (c : BulkCommit) : ℕ := (c.writers.map fun w => w.preWritten.length).sum

/-- The pointer updates of a commit, in order. -/
def pointers (c : BulkCommit) : List SignedPointerUpdate := c.writers.filterMap (·.pointer)

end BulkCommit

/-! ## What an error says -/

/-- `Display for Error`.  A CID at the end of a text has no letter the tests below look for. -/
def Error.display : Error → String
  | .http s => "http error: " ++ s
  | .rateLimited => "rate limited"
  | .quotaExceeded s => "storage quota exceeded: " ++ s
  | .protocol s => "protocol error: " ++ s
  | .protocolCid s _ => "protocol error: " ++ s
  | .cbor s => "cbor error: " ++ s
  | .multiformat s => "multiformat error: " ++ s
  | .crypto s => "crypto error: " ++ s

/-- `str::contains`. -/
def textContains (text part : String) : Bool := decide (part.toList <:+: text.toList)

/-- `is_unimplemented`. -/
def isUnimplemented (e : Error) : Bool :=
  let msg := String.ofList (e.display.toList.map fun c => if c = '+' then ' ' else c)
  textContains msg "status 404" || textContains msg "Not Found" ||
    textContains msg "Unimplemented call"

/-- `is_pointer_cas_failure`. -/
def isPointerCasFailure (e : Error) : Bool := textContains e.display "PointerCAS:"

/-! ## Splitting a commit -/

/-- `InlineBlock`. -/
structure InlineBlock where
  cid : Cid
  data : Bytes
  isRaw : Bool
  deriving DecidableEq, Repr

/-- The inline blocks by hash. -/
def byHash (blocks : List InlineBlock) : List InlineBlock :=
  blocks.foldl (fun m b => m.filter (fun x => x.cid ≠ b.cid) ++ [b]) []

/-- The loop of `from_root_first` over what is left by hash and the queue.  A block queues its
links once, so the number of pops is bounded. -/
def fromRootFirstLoop : ℕ → List InlineBlock → List Cid → List InlineBlock
  | 0, left, _ => left
  | _, left, [] => left
  | pops + 1, left, next :: queue =>
      match left.find? fun b => b.cid = next with
      | none => fromRootFirstLoop pops left queue
      | some b => b :: fromRootFirstLoop pops (left.filter fun x => x.cid ≠ next)
          (queue ++ blockLinks b.data b.isRaw)

/-- `from_root_first`. -/
def fromRootFirst (blocks : List InlineBlock) (root : Option Cid) : List InlineBlock :=
  let left := byHash blocks
  fromRootFirstLoop (1 + (left.map fun b => (blockLinks b.data b.isRaw).length).sum) left
    root.toList

/-- The blocks that fit the last call, in order up to the first that does not, the rest, and what
is left of the two budgets. -/
def takeWithin : ℕ → ℕ → List InlineBlock → List InlineBlock × List InlineBlock × ℕ × ℕ
  | budget, countBudget, [] => ([], [], budget, countBudget)
  | budget, countBudget, b :: rest =>
      if b.data.length ≤ budget ∧ 0 < countBudget then
        let (taken, deferred, budget, countBudget) :=
          takeWithin (budget - b.data.length) (countBudget - 1) rest
        (b :: taken, deferred, budget, countBudget)
      else ([], b :: rest, budget, countBudget)

/-- The data of the cbor, or of the raw, blocks of a list. -/
def dataOf (isRaw : Bool) (blocks : List InlineBlock) : List Bytes :=
  (blocks.filter fun b => b.isRaw = isRaw).map (·.data)

/-- The first loop of `split`: its two budgets, the writers of the last call, and the blocks put
off to an earlier one. -/
structure SplitLoop where
  budget : ℕ
  countBudget : ℕ
  lastWriters : List WriterCommit
  deferred : List (PublicKeyHash × List InlineBlock)

/-- One writer in the first loop of `split`. -/
def splitWriter (sha256 : Bytes → Bytes) (st : SplitLoop) (w : WriterCommit × Option Cid) :
    Result SplitLoop := do
  let cbor ← w.1.cborBlocks.mapM fun data => do
    let cid ← liftMf (buildCid (sha256 data) false)
    .ok (⟨cid, data, false⟩ : InlineBlock)
  let raw ← w.1.rawBlocks.mapM fun data => do
    let cid ← liftMf (buildCid (sha256 data) true)
    .ok (⟨cid, data, true⟩ : InlineBlock)
  let (taken, rest, budget, countBudget) :=
    takeWithin st.budget st.countBudget (fromRootFirst (cbor ++ raw) w.2)
  let last : WriterCommit := { w.1 with
    cborBlocks := dataOf false taken, rawBlocks := dataOf true taken, blockListSignature := none }
  .ok { budget := budget, countBudget := countBudget
        lastWriters := st.lastWriters ++ [last]
        deferred := if rest = [] then st.deferred else st.deferred ++ [(w.1.writer, rest)] }

/-- The groups of one writer's deferred blocks, each within the limits of one call. -/
def deferredGroups : List InlineBlock → List InlineBlock → ℕ → List (List InlineBlock)
  | [], [], _ => []
  | [], group, _ => [group]
  | b :: blocks, group, groupSize =>
      if group = [] then deferredGroups blocks [b] b.data.length
      else if maxBulkInline < groupSize + b.data.length ∨ maxBulkCommitBlocks ≤ group.length then
        group :: deferredGroups blocks [b] b.data.length
      else deferredGroups blocks (group ++ [b]) (groupSize + b.data.length)

/-- The second loop of `split`: the calls so far, and the size and number of blocks of the last. -/
structure CallsLoop where
  calls : List (List WriterCommit)
  used : ℕ
  count : ℕ

/-- One group in the second loop of `split`. -/
def addGroup (writer : PublicKeyHash) (seq : Option Int64) (st : CallsLoop)
    (group : List InlineBlock) : CallsLoop :=
  let size := (group.map fun b => b.data.length).sum
  let cbor := group.filter fun b => !b.isRaw
  let raw := group.filter fun b => b.isRaw
  let commit : WriterCommit :=
    { writer := writer, cborBlocks := cbor.map (·.data), rawBlocks := raw.map (·.data)
      preWritten := [], pointer := none
      blockListSignature := some ((cbor ++ raw).map (·.cid), seq) }
  if st.calls = [] ∨ (0 < st.used ∧ (maxBulkInline < st.used + size ∨
      maxBulkCommitBlocks < st.count + group.length)) then
    { calls := st.calls ++ [[commit]], used := size, count := group.length }
  else
    { calls := st.calls.dropLast ++ [st.calls.getLastD [] ++ [commit]]
      used := st.used + size, count := st.count + group.length }

/-- `split`.  `nextSequence` is `Signers::next_sequence`. -/
def split (sha256 : Bytes → Bytes) (nextSequence : PublicKeyHash → Option Int64)
    (commit : BulkCommit) (roots : List (Option Cid)) (tid : TransactionId) :
    Result (List BulkCommit × BulkCommit) := do
  let start : SplitLoop :=
    ⟨maxBulkInline, maxBulkCommitBlocks - commit.preWrittenCount, [], []⟩
  let st ← (commit.writers.zip roots).foldlM (splitWriter sha256) start
  let calls := st.deferred.foldl (fun st d =>
    (deferredGroups d.2 [] 0).foldl (addGroup d.1 (nextSequence d.1)) st) ⟨[], 0, 0⟩
  let blocksOnly := (calls.calls.filter fun c => c ≠ []).map fun writers =>
    (⟨some tid, writers⟩ : BulkCommit)
  .ok (blocksOnly, ⟨commit.tid, st.lastWriters⟩)

end Peergos
