import PeergosClient.Buffered.Chain

/-!
# A server in memory

A server that keeps the pointer updates it applied, latest first, and its cbor blocks.  It
compare-and-swaps on the root and the sequence, and knows `bulk/commit` or not.
-/

namespace Peergos

/-- The state of the server. -/
structure RamServer where
  applied : List (PublicKeyHash × PointerUpdate)
  blocks : List (Cid × CborObject)
  deriving DecidableEq

namespace RamServer

/-- The last update applied for a writer. -/
def pointer (s : RamServer) (writer : PublicKeyHash) : PointerUpdate :=
  ((s.applied.find? fun e => e.1 = writer).map Prod.snd).getD .empty

/-- Apply an update if it continues its writer's pointer. -/
def swap (s : RamServer) (u : SignedPointerUpdate) : Option RamServer :=
  if (s.pointer u.writer).Continues u.signed then
    some { s with applied := (u.writer, u.signed) :: s.applied }
  else none

variable (sha256 : Bytes → Bytes)

/-- The cbor blocks as a store. -/
def store : ContentAddressedStorage RamServer where
  get s c := (ContentAddressedStorage.memory sha256).get s.blocks c
  put s b := do
    let (c, blocks) ← (ContentAddressedStorage.memory sha256).put s.blocks b
    .ok (c, { s with blocks := blocks })

/-- Write a list of cbor blocks. -/
def putAll (s : RamServer) (blocks : List Bytes) : Result (List Cid × RamServer) :=
  blocks.foldlM (fun acc data => do
    match CborObject.fromBytes data with
    | .ok b =>
        let (c, s) ← (store sha256).put acc.2 b
        .ok (acc.1 ++ [c], s)
    | .error _ => cborErr "not a cbor block") ([], s)

/-- The hashes of a list of raw blocks, which no merge reads. -/
def rawCids (blocks : List Bytes) : Result (List Cid) :=
  blocks.mapM fun data => liftMf (buildCid (sha256 data) true)

/-- `bulk/commit`: all of it or nothing. -/
def bulkCommit (s : RamServer) (commit : BulkCommit) : Result (List Cid × RamServer) := do
  let (cids, s) ← commit.writers.foldlM (fun acc w => do
    let (cbor, s) ← putAll sha256 acc.2 w.cborBlocks
    let raw ← rawCids sha256 w.rawBlocks
    .ok (acc.1 ++ cbor ++ raw, s)) ([], s)
  match commit.pointers.foldlM swap s with
  | some s => .ok (cids, s)
  | none => .error (.err (.http "status 500: PointerCAS:"))

/-- The calls of the server. -/
def target (bulk : Bool) : Target RamServer where
  setPointerUpdate _ signer u := fun s =>
    match s.swap ⟨signer.publicKeyHash, u⟩ with
    | some s' => (.ok true, s')
    | none => (.ok false, s)
  getPointerTarget _ writer := Exec.reads fun s => s.pointer writer
  startTransaction _ := pure "0"
  closeTransaction _ _ := pure true
  putBlocks _ batch _ := Exec.ofExcept fun s =>
    if batch.isRaw then do
      let cids ← rawCids sha256 (batch.items.map Prod.snd)
      .ok (cids, s)
    else putAll sha256 s (batch.items.map Prod.snd)
  putRawBatch _ _ blocks _ := Exec.lift (rawCids sha256 blocks)
  bulkCommit _ commit :=
    if bulk then Exec.ofExcept fun s => s.bulkCommit sha256 commit
    else Exec.fail (.err (.protocol "Unimplemented call!"))
  store := store sha256

theorem pointer_cons (s : RamServer) (w : PublicKeyHash) (u : PointerUpdate) :
    pointer { s with applied := (w, u) :: s.applied } = Function.update s.pointer w u := by
  funext k
  by_cases h : k = w
  · subst h
    rw [Function.update_self]
    simp [pointer]
  · rw [Function.update_of_ne h]
    simp [pointer, Ne.symm h]

/-- The server compare-and-swaps. -/
theorem compareAndSwap (bulk : Bool) : (target sha256 bulk).CompareAndSwap pointer where
  set_fits := by
    intro s owner signer u h
    refine ⟨{ s with applied := (signer.publicKeyHash, u) :: s.applied }, ?_, pointer_cons s _ u⟩
    simp only [target, swap]
    rw [if_pos h]
  set_refused := by
    intro s owner signer u h
    refine ⟨.ok false, s, ?_, Or.inl rfl, rfl⟩
    simp only [target, swap]
    rw [if_neg h]
  get_pointer := fun s owner writer => ⟨s, rfl, rfl⟩

/-- A client of the server. -/
def client (bulk : Bool) : Client RamServer :=
  ⟨target sha256 bulk, sha256, 32, fun _ l => l, fun _ l => l⟩

/-- A server that holds nothing. -/
def empty : RamServer := ⟨[], []⟩

end RamServer

end Peergos
