import PeergosClient.Sync.Trees

/-!
# A sync of two trees

`sync_dir` takes a snapshot of both trees, compares the snapshots with each other and with what was
synced the last time, and makes the trees alike: small new files are uploaded in batches, files that
are gone locally are deleted in bulk, and every other path is dealt with by itself.  A file that is
new on one side while one with the same hash is gone from it is moved on the other side, not
copied.  The directories come last.

The handlers of the two sides differ in nothing but the side, so each pair is one definition.
`flags` holds `sync_local_deletes` and `sync_remote_deletes`.
-/

namespace Peergos

/-! ## Snapshots -/

/-- The hash of a file that has not been hashed. -/
def zeroHash : Bytes := List.replicate 32 0

/-- The paths of all files and directories are ordered as strings. -/
def joined (p : SyncPath) : String := "/".intercalate p

/-- `BATCH_MAX_COUNT`. -/
def batchMaxCount : ℕ := 1000

/-- `BATCH_MAX_SIZE`. -/
def batchMaxSize : ℕ := 100 * 1024 * 1024

/-- What the walk notes of a file: its synced state if it looks unchanged. -/
def scanned (synced : RamTreeState) (p : SyncPath) (f : SyncedFile) : FileState :=
  let fresh : FileState := ⟨p, f.modificationTime, f.content.length, zeroHash, legacyChunkSize⟩
  match synced.byPath p with
  | some st =>
      if st.modificationTime = f.modificationTime ∧ st.size = f.content.length then st else fresh
  | none => fresh

/-- The chunk size at which a file is hashed, unless it has its own: that of its last sync. -/
def knownChunkSize (synced : RamTreeState) (p : SyncPath) : ℕ :=
  ((synced.byPath p).map (·.chunkSize)).getD chunkSizeForNewFiles

/-- Two files that are alike in all but their chunk sizes. -/
def inStep (l r : FileState) : Bool :=
  l.hash = r.hash ∧ l.modificationTime = r.modificationTime ∧ l.size = r.size

/-- The snapshots of both sides. -/
abbrev Snapshot := SyncSide → RamTreeState

namespace Snapshot

variable (snap : Snapshot)

/-- The files with a hash that one side has and the other does not. -/
def extra (s : SyncSide) (hash : Bytes) : List FileState :=
  ((snap s).byHash hash).filter fun f => f ∉ (snap s.other).byHash hash

/-- There are as many extra files on both sides. -/
def balanced (hash : Bytes) : Bool :=
  (snap.extra .onLocal hash).length = (snap.extra .onRemote hash).length

/-- Where a path stands among the extra files of a side. -/
def index (s : SyncSide) (hash : Bytes) (p : SyncPath) : Option ℕ :=
  (snap.extra s hash).findIdx? fun f => f.relPath = p

/-- What a side has at the path of the extra file across: `local_at_hashed_path` and
`remote_at_hashed_path`. -/
def atHashedPath (s : SyncSide) (hash : Bytes) (p : SyncPath) : Option FileState :=
  if snap.balanced hash then
    (snap.index s hash p).bind fun i =>
      ((snap.extra s.other hash)[i]?).bind fun f => (snap s).byPath f.relPath
  else none

/-- The extra file of a path was renamed. -/
def renamed (s : SyncSide) (hash : Bytes) (p : SyncPath) : Bool :=
  snap.balanced hash && (snap.atHashedPath s hash p).isNone

/-- All paths of files, in order. -/
def allPaths : List SyncPath :=
  ((snap .onLocal).allFilePaths ++ (snap .onRemote).allFilePaths).dedup.insertionSort
    fun p q => joined p ≤ joined q

end Snapshot

/-! ## Classification -/

/-- What the second pass sorts the changed paths into.  The last batch is still being filled. -/
structure SyncPlan where
  batches : List (List SyncPath)
  batch : List SyncPath
  batchCount : ℕ
  batchSize : ℕ
  localDeletes : List SyncPath
  doneFiles : List SyncPath

namespace SyncPlan

/-- Nothing sorted yet. -/
def start : SyncPlan := ⟨[], [], 0, 0, [], []⟩

/-- A small file is added to the current batch, or starts one. -/
def addSmall (c : SyncPlan) (p : SyncPath) (size : ℕ) : SyncPlan :=
  if c.batchCount + 1 ≥ batchMaxCount ∨ c.batchSize + size ≥ batchMaxSize then
    { c with batches := c.batches ++ [c.batch], batch := [p], batchCount := 0, batchSize := 0,
             doneFiles := c.doneFiles ++ [p] }
  else
    { c with batch := c.batch ++ [p], batchCount := c.batchCount + 1,
             batchSize := c.batchSize + size, doneFiles := c.doneFiles ++ [p] }

/-- A file that is gone locally. -/
def addLocalDelete (c : SyncPlan) (p : SyncPath) : SyncPlan :=
  { c with localDeletes := c.localDeletes ++ [p], doneFiles := c.doneFiles ++ [p] }

/-- The state of a small file that is new locally and not a rename. -/
def smallRemoteCopy (snap : Snapshot) (synced : RamTreeState) (p : SyncPath) : Option FileState :=
  match synced.byPath p, (snap .onRemote).byPath p, (snap .onLocal).byPath p with
  | none, none, some l =>
      if l.size < chunkSizeForNewFiles ∧ !snap.renamed .onLocal l.hash p then some l else none
  | _, _, _ => none

/-- A file that is gone locally, unchanged remotely and not renamed. -/
def isLocalDelete (snap : Snapshot) (synced : RamTreeState) (p : SyncPath) : Bool :=
  match (snap .onLocal).byPath p, (snap .onRemote).byPath p, synced.byPath p with
  | none, some r, some st => r.equalsIgnoreModtime st && !snap.renamed .onRemote r.hash p
  | _, _, _ => false

/-- One round of the second pass. -/
def classify (snap : Snapshot) (synced : RamTreeState) (c : SyncPlan) (p : SyncPath) :
    SyncPlan :=
  match smallRemoteCopy snap synced p with
  | some l => c.addSmall p l.size
  | none => if isLocalDelete snap synced p then c.addLocalDelete p else c

end SyncPlan

namespace SyncEnv

variable (env : SyncEnv)

/-- `build_dir_state`. -/
def buildDirState (s : SyncSide) : Exec SyncWorld Fault RamTreeState := do
  let n ← Exec.reads (·.calls)
  let t ← env.look s fun t => .ok t
  let synced ← Exec.reads (·.synced)
  let btree := (env.arrange n (t.filePaths.filter (walked s))).filterMap fun p =>
    (t.file p).map (scanned synced p)
  let pending ← Exec.collect (btree.filter fun f => f.hash = zeroHash) fun f => do
    let (hash, chunkSize) ← env.hashFile s f.relPath (knownChunkSize synced f.relPath)
    pure { f with hash, chunkSize }
  let res := (t.dirPaths.filter (walked s)).foldl RamTreeState.addDir .new
  pure ((pending ++ btree.filter fun f => f.hash ≠ zeroHash).foldl RamTreeState.add res)

variable (flags : SyncSide → Bool)

/-! ## The first pass -/

/-- Suppressed deletes of a path that both sides have are forgotten. -/
def clearDeletes (p : SyncPath) : Exec SyncWorld Fault Unit :=
  Exec.forEach [.onLocal, .onRemote] fun s =>
    sync fun synced => if !flags s && synced.hasDelete s p then synced.removeDelete s p else synced

/-- Whether a path needs no sync. -/
def settled (snap : Snapshot) (p : SyncPath) : Exec SyncWorld Fault Bool := do
  let synced ← Exec.reads fun w : SyncWorld => w.synced.byPath p
  match (snap .onLocal).byPath p, (snap .onRemote).byPath p with
  | some l, some r =>
      if inStep l r then do
        if synced.isNone then sync (·.add l)
        clearDeletes flags p
        pure true
      else
        match synced with
        | some st =>
            if l.hash = r.hash ∧ (st.equalsIgnoreModtime l ∨ st.equalsIgnoreModtime r) then do
              clearDeletes flags p
              pure true
            else pure false
        | none => pure false
  | _, _ => pure false

/-- The first pass: the paths that need a sync. -/
def changedPaths (snap : Snapshot) (paths : List SyncPath) :
    Exec SyncWorld Fault (List SyncPath) := do
  let changed ← Exec.collect paths fun p => do
    if ← settled flags snap p then pure []
    else pure (if isIgnored (p.getLast?.getD "") then [] else [p])
  pure changed.flatten

/-! ## Batches -/

/-- A batch of small files is uploaded. -/
def uploadBatch (snap : Snapshot) (batch : List SyncPath) : Exec SyncWorld Fault Unit :=
  if batch = [] then pure ()
  else do
    let files ← Exec.collect batch fun p => do
      let data ← env.read .onLocal p
      pure (p, data)
    let n ← Exec.reads (·.calls)
    env.uploadSubtree
      ((env.arrange n batch).filterMap fun p => files.find? fun file => file.1 = p)
    Exec.forEach batch fun p =>
      match (snap .onLocal).byPath p with
      | some l => sync (·.add l)
      | none => Exec.fail .panic

/-- The files of one directory that are gone locally are deleted. -/
def deleteFolder (deletes : List SyncPath) (dir : SyncPath) : Exec SyncWorld Fault Unit := do
  let n ← Exec.reads (·.calls)
  let children := env.arrange n (deletes.filter fun p => p.dropLast = dir)
  -- the root is written as a dot
  env.bulkDelete (if dir = [] then ["."] else dir) (children.filterMap List.getLast?)
  Exec.forEach children fun p => sync (·.remove p)

/-- The files that are gone locally are deleted, or it is noted that they were not. -/
def processLocalDeletes (deletes : List SyncPath) : Exec SyncWorld Fault Unit :=
  if flags .onLocal then do
    let n ← Exec.reads (·.calls)
    Exec.forEach (env.arrange n (deletes.map List.dropLast).dedup) (env.deleteFolder deletes)
  else Exec.forEach deletes fun p => sync (·.addDelete .onLocal p)

/-! ## Single files -/

/-- A file is copied to the other side. -/
def copyFile (s : SyncSide) (p : SyncPath) : Exec SyncWorld Fault Unit := do
  if p.dropLast ≠ [] then env.mkdirs s.other p.dropLast
  let data ← env.read s p
  env.write s.other p data

/-- `handle_remote_addition` and `handle_local_addition`: a file is new on side `s`. -/
def handleAddition (s : SyncSide) (snap : Snapshot) (f : FileState) : Exec SyncWorld Fault Unit :=
  if snap.renamed s f.hash f.relPath then
    match (snap.index s f.hash f.relPath).bind fun i => (snap.extra s.other f.hash)[i]? with
    | none => Exec.fail .panic
    | some toMove => do
        if ← unwrapOr (env.fileExists s f.relPath) false then do
          env.moveTo s.other toMove.relPath f.relPath
          sync fun synced => (synced.remove toMove.relPath).add f
        else pure ()
  else do
    env.copyFile s f.relPath
    sync (·.add f)

/-- The local file is renamed aside, and both files are copied to the side that lacks them. -/
def keepBoth (l r : FileState) : Exec SyncWorld Fault Unit := do
  let aside ← renameOnConflict (env.filesystem .onLocal) env.overflow env.fuel l.relPath l
  env.copyFile .onRemote r.relPath
  sync (·.add r)
  env.copyFile .onLocal aside.relPath
  sync (·.add aside)

/-- `handle_concurrent_addition`. -/
def handleConcurrentAddition (l r : FileState) : Exec SyncWorld Fault Unit :=
  if l.hash = r.hash then
    if r.modificationTime < l.modificationTime then do
      env.setModificationTime .onRemote l.relPath l.modificationTime
      sync (·.add l)
    else if l.modificationTime < r.modificationTime then do
      env.setModificationTime .onLocal l.relPath r.modificationTime
      sync (·.add r)
    else sync (·.add l)
  else env.keepBoth l r

/-- A suppressed delete of a path is forgotten. -/
def forgetDelete (s : SyncSide) (p : SyncPath) : Exec SyncWorld Fault Unit :=
  sync fun synced => if !flags s && synced.hasDelete s p then synced.removeDelete s p else synced

/-- `handle_local_delete` and `handle_remote_delete`: a file is gone from side `s`, and `f` is what
the other side has. -/
def handleDelete (s : SyncSide) (snap : Snapshot) (st f : FileState) :
    Exec SyncWorld Fault Unit :=
  if st.equalsIgnoreModtime f then
    -- the path is looked for among the extra files of the side that does not have it
    if snap.renamed s f.hash st.relPath then pure ()
    else if flags s then do
      env.delete s.other st.relPath
      sync (·.remove st.relPath)
    else sync (·.addDelete s st.relPath)
  else if f.hash = st.hash then sync (·.add f)
  else do
    env.copyFile s.other f.relPath
    sync (·.add f)
    forgetDelete flags s f.relPath

/-- `handle_concurrent_change`. -/
def handleConcurrentChange (st l r : FileState) : Exec SyncWorld Fault Unit :=
  if l = r then sync (·.add l)
  else if st.hash = r.hash then do
    env.copyFile .onLocal l.relPath
    sync (·.add l)
  else env.keepBoth l r

/-- A change on side `s` only, of which `f` is the state there and `kept` that on the other side. -/
def handleChange (s : SyncSide) (l r f kept : FileState) : Exec SyncWorld Fault Unit := do
  let synced ← Exec.reads fun w : SyncWorld => w.synced
  if f.hash = kept.hash then do
    sync (·.add l)
    forgetDelete flags .onLocal f.relPath
    forgetDelete flags .onRemote f.relPath
  else if synced.hasDelete s f.relPath then do
    env.keepBoth l r
    sync (·.removeDelete s f.relPath)
  else do
    env.copyFile s f.relPath
    sync (·.add f)

/-- `handle_both_exist`. -/
def handleBothExist (st l r : FileState) : Exec SyncWorld Fault Unit :=
  if st.equalsIgnoreModtime l then env.handleChange flags .onRemote l r r l
  else if st.equalsIgnoreModtime r then env.handleChange flags .onLocal l r l r
  else env.handleConcurrentChange st l r

/-- `sync_file`. -/
def syncFile (snap : Snapshot) (p : SyncPath) : Exec SyncWorld Fault Unit := do
  let synced ← Exec.reads fun w : SyncWorld => w.synced.byPath p
  match synced, (snap .onLocal).byPath p, (snap .onRemote).byPath p with
  | none, none, some r => env.handleAddition .onRemote snap r
  | none, some l, none => env.handleAddition .onLocal snap l
  | none, some l, some r => env.handleConcurrentAddition l r
  | none, none, none => pure ()
  | some st, none, none => sync (·.remove st.relPath)
  | some st, none, some r => env.handleDelete flags .onLocal snap st r
  | some st, some l, none => env.handleDelete flags .onRemote snap st l
  | some st, some l, some r => env.handleBothExist flags st l r

/-! ## Directories -/

/-- A directory that only side `s` has. -/
def syncDirectoryOf (s : SyncSide) (p : SyncPath) : Exec SyncWorld Fault Unit := do
  if ← Exec.reads fun w : SyncWorld => w.synced.hasDir p then
    if flags s.other then do
      env.delete s p
      sync (·.removeDir p)
    else pure ()
  else do
    env.mkdirs s.other p
    sync (·.addDir p)

/-- One round of the directory pass. -/
def syncDirectory (snap : Snapshot) (p : SyncPath) : Exec SyncWorld Fault Unit :=
  match (snap .onLocal).hasDir p, (snap .onRemote).hasDir p with
  | true, true => sync (·.addDir p)
  | false, false => sync (·.removeDir p)
  | true, false => env.syncDirectoryOf flags .onLocal p
  | false, true => env.syncDirectoryOf flags .onRemote p

/-- All directories, the longest names first. -/
def allDirs (snap : Snapshot) (synced : RamTreeState) : List SyncPath :=
  ((snap .onLocal).dirs ++ (snap .onRemote).dirs ++ synced.dirs).dedup.insertionSort fun p q =>
    (joined q).utf8ByteSize < (joined p).utf8ByteSize ∨
      (joined q).utf8ByteSize = (joined p).utf8ByteSize ∧ joined q ≤ joined p

/-! ## The sync -/

/-- `sync_dir` after the snapshots: the files. -/
def syncFiles (snap : Snapshot) : Exec SyncWorld Fault Unit := do
  let changed ← changedPaths flags snap snap.allPaths
  let synced ← Exec.reads fun w : SyncWorld => w.synced
  let c := changed.foldl (SyncPlan.classify snap synced) .start
  Exec.forEach (c.batches ++ [c.batch]) (env.uploadBatch snap)
  env.processLocalDeletes flags c.localDeletes
  Exec.forEach (changed.filter fun p => !c.doneFiles.contains p) (env.syncFile flags snap)

/-- `sync_dir` after the files: the directories. -/
def syncDirectories (snap : Snapshot) : Exec SyncWorld Fault Unit := do
  let synced ← Exec.reads fun w : SyncWorld => w.synced
  Exec.forEach (allDirs snap synced) (env.syncDirectory flags snap)

/-- `sync_dir`. -/
def syncDir : Exec SyncWorld Fault Unit := do
  let localState ← env.buildDirState .onLocal
  let remoteState ← env.buildDirState .onRemote
  let snap : Snapshot := fun s =>
    match s with
    | .onLocal => localState
    | .onRemote => remoteState
  env.syncFiles flags snap
  env.syncDirectories flags snap

end SyncEnv

end Peergos
