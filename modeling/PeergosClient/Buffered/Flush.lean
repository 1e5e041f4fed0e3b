import PeergosClient.Buffered.Pointers
import PeergosClient.Champ.Merge

/-!
# Flushing the buffers

`flush` commits each owner's buffered writes in turn: by one `bulk/commit` where the server has it,
else block by block and pointer by pointer, merging where the server has moved on.

The client runs over a `World`: its two buffers and the server.  Every server call is an await
point, where another task of the client may run.  What it does there, buffer a pointer update or a
block, is scripted in `others`, one batch an await point, so that a statement about every script
is a statement about every interleaving.  Between two server calls that have no access to a buffer
between them, such as those of a merge, one batch stands for all.

`trace` records the moments that matter when a run is talked about: an update accepted, with the
state the server was in, an owner's entries read by a flush, entries committed (the server has
answered for all of them), and an owner's entries taken off the list by `commit_pointers` or by
`drop_owner`.  Nothing reads it.
-/

namespace Peergos

/-- The server: `MutablePointers`, and the calls of `ContentAddressedStorage` a flush makes. -/
structure Target (σ : Type) extends MutablePointers σ where
  startTransaction : PublicKeyHash → Exec σ Fault TransactionId
  closeTransaction : PublicKeyHash → TransactionId → Exec σ Fault Bool
  /-- `put` and `put_raw`: a batch of signed blocks of one writer. -/
  putBlocks : PublicKeyHash → BufferedStorage.Batch → TransactionId → Exec σ Fault (List Cid)
  putRawBatch : PublicKeyHash → SigningPrivateKeyAndPublicHash → List Bytes → TransactionId →
    Exec σ Fault (List Cid)
  bulkCommit : PublicKeyHash → BulkCommit → Exec σ Fault (List Cid)
  /-- The blocks a merge reads and writes. -/
  store : ContentAddressedStorage σ

/-- A client of a server: the server's calls and what a merge takes as parameters. -/
structure Client (σ : Type) where
  target : Target σ
  sha256 : Bytes → Bytes
  fuel : ℕ
  ourOrder : ChampMerge.HashOrder
  remoteOrder : ChampMerge.HashOrder

/-- What another task does at an await point. -/
inductive Action where
  | setPointerUpdate (call : SetCall)
  | bufferPut (owner writer : PublicKeyHash) (isRaw : Bool) (signed blocks : List Bytes)

/-- A moment of a run. -/
inductive Event (σ : Type) where
  | accepted (call : SetCall) (server : σ)
  | read (owner : PublicKeyHash)
  | committed (owner : PublicKeyHash) (writes : List WriterUpdate)
  | retained (owner : PublicKeyHash)
  | dropped (owner : PublicKeyHash)
  deriving DecidableEq, Repr

/-- The buffers of a client, its server, and the script of the other task. -/
structure World (σ : Type) where
  pointers : BufferedPointers
  blocks : BufferedStorage
  server : σ
  others : List (List Action)
  trace : List (Event σ)

namespace World

variable {σ : Type}

/-- Record a moment. -/
def record (e : Event σ) (w : World σ) : World σ := { w with trace := w.trace ++ [e] }

/-- A call of `set_pointer_update` is accepted into the buffer. -/
def accept (call : SetCall) (w : World σ) : World σ :=
  { w with pointers := w.pointers.add call }.record (.accepted call w.server)

end World

namespace Client

variable {σ : Type} (c : Client σ)

/-- The other task takes one step; a refused put leaves the buffer alone. -/
def act (w : World σ) : Action → World σ
  | .setPointerUpdate call => w.accept call
  | .bufferPut owner writer isRaw signed blocks =>
      match w.blocks.bufferPut c.sha256 owner writer isRaw signed blocks with
      | .ok (_, b) => { w with blocks := b }
      | .error _ => w

/-- The next batch of the other task. -/
def interfere (w : World σ) : World σ :=
  match w.others with
  | [] => w
  | batch :: rest => batch.foldl c.act { w with others := rest }

/-- Await a call of the server. -/
def await {α : Type} (call : Exec σ Fault α) : Exec (World σ) Fault α := fun w =>
  let w := c.interfere w
  ((call w.server).1, { w with server := (call w.server).2 })

/-! ## Blocks -/

/-- The uploads are spawned together and joined one by one: all of them are made, and the first
failure is the one returned. -/
def joinAll {α : Type} (calls : List (Exec σ Fault α)) : Exec (World σ) Fault (List α) := do
  let results ← Exec.collect calls fun call => Exec.attempt (c.await call)
  results.foldlM (fun acc r => do
    let a ← Exec.lift r
    pure (acc ++ [a])) []

/-- `BufferedStorage::commit_blocks`. -/
def commitBlocks (owner : PublicKeyHash) (roots : List Cid) (tid : TransactionId) :
    Exec (World σ) Fault Unit := do
  let keep ← Exec.reads fun w : World σ => w.blocks.keepFor owner roots
  let batches ← Exec.reads fun w : World σ => w.blocks.batches keep
  let _ ← c.joinAll (batches.map fun batch => c.target.putBlocks owner batch tid)
  Exec.update fun w => { w with blocks := w.blocks.drop keep }

/-- `pre_write`. -/
def preWrite (owner : PublicKeyHash) (signer : SigningPrivateKeyAndPublicHash)
    (large : List Bytes) (tid : TransactionId) : Exec (World σ) Fault (List Cid) := do
  let cids ← c.joinAll ((large.toChunks maxBlockAuths).map fun batch =>
    c.target.putRawBatch owner signer batch tid)
  pure cids.flatten

/-! ## Pointers one by one -/

/-- The branch of `commit_one_with_merge` after a refused compare-and-swap. -/
def mergeOne (owner : PublicKeyHash) (w : WriterUpdate) (remote : PointerUpdate) :
    Exec (World σ) Fault Unit :=
  match w.update.original, w.update.updated, remote.updated with
  | some base, some ours, some theirs => do
      let mergedWd ← c.await (Exec.ofExcept fun s => ChampMerge.mergeWriterData c.target.store
        c.fuel c.ourOrder c.remoteOrder s base ours theirs)
      let mergedRoot ← c.await (Exec.ofExcept fun s => c.target.store.put s mergedWd)
      let resolved : PointerUpdate :=
        ⟨remote.updated, some mergedRoot, remote.sequence.map (· + 1)⟩
      let applied ← c.await (c.target.setPointerUpdate owner w.signer resolved)
      if applied then pure ()
      else Exec.fail (.err (.protocol "pointer commit rejected after merge"))
  | _, _, _ => Exec.fail (.err (.protocol "pointer CAS conflict with no mergeable roots"))

/-- `commit_one_with_merge`.  A failed call counts as refused, by `unwrap_or(false)`. -/
def commitOneWithMerge (owner : PublicKeyHash) (w : WriterUpdate) : Exec (World σ) Fault Unit := do
  let applied ← Exec.attempt (c.await (c.target.setPointerUpdate owner w.signer w.update))
  match applied with
  | .ok true => pure ()
  | .error .panic => Exec.fail .panic
  | .error .fuel => Exec.fail .fuel
  | _ => do
      let remote ← c.await (c.target.getPointerTarget owner w.writer)
      if remote.updated = w.update.updated then pure () else c.mergeOne owner w remote

/-- `BufferedPointers::commit_pointers`. -/
def commitPointers (owner : PublicKeyHash) : Exec (World σ) Fault Unit := do
  let writes ← Exec.reads fun w : World σ => w.pointers.writesFor owner
  Exec.forEach writes (c.commitOneWithMerge owner)
  Exec.update (World.record (.committed owner writes))
  Exec.update fun w =>
    { w with pointers := w.pointers.retainOthers owner }.record (.retained owner)

/-! ## One bulk commit -/

/-- `Signers::next_sequence`. -/
def nextSequence (writes : List WriterUpdate) (writer : PublicKeyHash) : Option Int64 :=
  (writes.find? fun w => w.writer = writer).bind (·.update.sequence)

/-- The transaction a split commit runs in: its own, or a new one. -/
def splitTid (owner : PublicKeyHash) : Option TransactionId → Exec (World σ) Fault TransactionId
  | some t => pure t
  | none => c.await (c.target.startTransaction owner)

/-- `send_bulk_commit`. -/
def sendBulkCommit (owner : PublicKeyHash) (commit : BulkCommit) (writes : List WriterUpdate)
    (roots : List (Option Cid)) : Exec (World σ) Fault Unit := do
  if commit.inlineSize ≤ maxBulkInline ∧
      commit.blockCount + commit.preWrittenCount ≤ maxBulkCommitBlocks then
    let _ ← c.await (c.target.bulkCommit owner commit)
    pure ()
  else
    let tid ← c.splitTid owner commit.tid
    let calls ← Exec.lift (split c.sha256 (nextSequence writes) commit roots tid)
    Exec.forEach calls.1 fun call => do
      let _ ← c.await (c.target.bulkCommit owner call)
      pure ()
    let _ ← c.await (c.target.bulkCommit owner calls.2)
    if commit.tid.isNone then
      let _ ← c.await (c.target.closeTransaction owner tid)
      pure ()
    else pure ()

/-- Write the large blocks of one writer ahead, if there is a transaction to do it in. -/
def preWritten (owner : PublicKeyHash) (signer : SigningPrivateKeyAndPublicHash)
    (large : List Bytes) : Option TransactionId → Exec (World σ) Fault (List Cid)
  | some t => c.preWrite owner signer large t
  | none => pure []

/-- One writer's part of a bulk commit, its large raw blocks written ahead. -/
def writerCommit (owner : PublicKeyHash) (tid : Option TransactionId) (w : WriterUpdate)
    (part : List (Cid × BufferedBlock)) : Exec (World σ) Fault WriterCommit := do
  let blocks := part.map Prod.snd
  let cbor := (blocks.filter fun b => !b.isRaw).map (·.data)
  let raw := (blocks.filter fun b =>
    b.isRaw && decide (b.data.length < maxSmallBlockSize)).map (·.data)
  let large := (blocks.filter fun b =>
    b.isRaw && decide (maxSmallBlockSize ≤ b.data.length)).map (·.data)
  let written ← c.preWritten owner w.signer large tid
  pure ⟨w.writer, cbor, raw, written, some ⟨w.writer, w.update⟩, none⟩

/-- The transaction for blocks written ahead, if there are any. -/
def bulkTid (owner : PublicKeyHash) (needsTid : Bool) :
    Exec (World σ) Fault (Option TransactionId) :=
  if needsTid then do
    let t ← c.await (c.target.startTransaction owner)
    pure (some t)
  else pure none

/-- A failed bulk commit closes the transaction it opened. -/
def bulkResult (owner : PublicKeyHash) (tid : Option TransactionId) :
    Except Fault Unit → Exec (World σ) Fault Unit
  | .ok () => pure ()
  | .error (.err e) =>
      match tid with
      | some t => do
          let _ ← Exec.attempt (c.await (c.target.closeTransaction owner t))
          Exec.fail (.err e)
      | none => Exec.fail (.err e)
  | .error f => Exec.fail f

/-- `bulk_commit_owner` for the entries it has read. -/
def bulkSend (owner : PublicKeyHash) (writes : List WriterUpdate) :
    Exec (World σ) Fault Unit := do
  let roots := writes.map (·.update.updated)
  let parts ← Exec.reads fun w : World σ => w.blocks.partitionByRoot owner roots
  let needsTid := parts.flatten.any fun b =>
    b.2.isRaw && decide (maxSmallBlockSize ≤ b.2.data.length)
  let tid ← c.bulkTid owner needsTid
  let result ← Exec.attempt (do
    let writers ← Exec.collect (writes.zip parts) fun e => c.writerCommit owner tid e.1 e.2
    c.sendBulkCommit owner ⟨tid, writers⟩ writes roots)
  c.bulkResult owner tid result

/-- Nothing is sent for no entries. -/
def bulkSendAny (owner : PublicKeyHash) (writes : List WriterUpdate) : Exec (World σ) Fault Unit :=
  if writes = [] then pure () else c.bulkSend owner writes

/-- `bulk_commit_owner`. -/
def bulkCommitOwner (owner : PublicKeyHash) : Exec (World σ) Fault Unit := do
  Exec.update (World.record (.read owner))
  let writes ← Exec.reads fun w : World σ => w.pointers.writesFor owner
  c.bulkSendAny owner writes
  Exec.update (World.record (.committed owner writes))

/-! ## The flush -/

/-- The old endpoints: write the blocks in a transaction, then commit the pointers. -/
def commitOwner (owner : PublicKeyHash) : Exec (World σ) Fault Unit := do
  Exec.update (World.record (.read owner))
  let roots ← Exec.reads fun w : World σ => w.pointers.rootsFor owner
  let tid ← c.await (c.target.startTransaction owner)
  c.commitBlocks owner roots tid
  c.commitPointers owner
  let _ ← c.await (c.target.closeTransaction owner tid)
  pure ()

/-- What a flush does with the outcome of the bulk path: whether the owner is taken care of. -/
def afterBulk (owner : PublicKeyHash) : Except Fault Unit → Exec (World σ) Fault Bool
  | .ok () => do
      Exec.update fun w =>
        { w with pointers := w.pointers.dropOwner owner }.record (.dropped owner)
      pure true
  | .error (.err e) =>
      if isUnimplemented e then do
        Exec.update fun w => { w with blocks := w.blocks.refuseBulk owner }
        pure false
      else if isPointerCasFailure e then pure false
      else Exec.fail (.err e)
  | .error f => Exec.fail f

/-- The bulk path of an owner, unless its server is known not to have it. -/
def tryBulk (owner : PublicKeyHash) : Exec (World σ) Fault Bool := do
  let unsupported ← Exec.reads fun w : World σ => decide (owner ∈ w.blocks.bulkUnsupported)
  if unsupported then pure false
  else do
    let result ← Exec.attempt (c.bulkCommitOwner owner)
    afterBulk owner result

/-- One owner of a flush. -/
def flushOwner (owner : PublicKeyHash) : Exec (World σ) Fault Unit := do
  let done ← c.tryBulk owner
  if done then pure () else c.commitOwner owner

/-- `flush`. -/
def flush (defaultOwner : PublicKeyHash) : Exec (World σ) Fault Unit := do
  let found ← Exec.reads fun w : World σ => w.pointers.owners
  let owners := if found = [] then [defaultOwner] else found
  Exec.forEach owners c.flushOwner
  Exec.update fun w => { w with blocks := w.blocks.clear, pointers := w.pointers.clear }

/-! ## The buffered pointers as `MutablePointers` -/

/-- `AutoCommit`: the size the block buffer may reach, and whether it is safe to commit now. -/
structure AutoCommit where
  bufferSize : ℕ
  safe : Bool

/-- `BufferedPointers::maybe_auto_commit`. -/
def maybeAutoCommit (auto : Option AutoCommit) (owner : PublicKeyHash) :
    Exec (World σ) Fault Unit :=
  match auto with
  | none => pure ()
  | some auto => do
      let size ← Exec.reads fun w : World σ => w.blocks.totalSize
      let roots ← Exec.reads fun w : World σ => w.pointers.roots
      if !auto.safe ∨ size < auto.bufferSize then pure ()
      else if roots = [] then pure ()
      else c.flush owner

/-- `BufferedPointers` over a target. -/
def buffered (auto : Option AutoCommit) : MutablePointers (World σ) where
  setPointerUpdate owner signer update := do
    Exec.update (World.accept ⟨owner, signer, update⟩)
    c.maybeAutoCommit auto owner
    pure true
  getPointerTarget owner writer := do
    let buffered ← Exec.reads fun w : World σ => w.pointers.latest writer
    match buffered with
    | some update => pure update
    | none => c.await (c.target.getPointerTarget owner writer)

end Client

end Peergos
