import PeergosClient.Fs.Linking
import PeergosClient.Fs.Rewrite
import PeergosClient.Lib.Sha256

/-!
# Uploading a file

A streaming upload reads the content twice: once for the hash tree and the first bytes the type is
told from, once to build the chunks.  The chunks and the link of the new file in its directory are
committed together.

A reader is the bytes it will yield; `open` yields the same reader each time.  The type of a file
and the thumbnail of a picture come from the media code, and are parameters.
-/

namespace Peergos

open Chunks

/-- What the media code says of a content: `calculate_mime_type` of its first bytes and its name,
and `auto_thumbnail`. -/
structure Media where
  calculateMimeType : Bytes → String → String
  autoThumbnail : Option (String × Bytes) → String → Bytes → Option (String × Bytes)

/-- `HEADER_BYTES_TO_IDENTIFY_MIME_TYPE`. -/
def headerBytesToIdentifyMimeType : ℕ := 40

/-- `chunk_len`. -/
def chunkLen (size chunkSize n i : ℕ) : ℕ :=
  if i + 1 = n then size - i * chunkSize else chunkSize

/-- A pass over all chunks of a reader, from chunk `i` on. -/
def readPass (size chunkSize n : ℕ) : ℕ → ℕ → Bytes → Result (List Bytes)
  | 0, _, _ => pure []
  | remaining + 1, i, reader => do
      let (chunk, reader) ← readExact reader (chunkLen size chunkSize n i)
      let rest ← readPass size chunkSize n remaining (i + 1) reader
      pure (chunk :: rest)

/-- The link back to the parent directory. -/
def toParentLink (dirCap : AbsoluteCapability) (dirParentKey : SymmetricKey) : RelativeCapability :=
  ⟨none, dirCap.mapKey, dirCap.bat, dirParentKey, none⟩

/-- The link of a new file in its directory. -/
def fileChildLink (dirCap : AbsoluteCapability) (name mime : String) (epoch : ℤ) (keys : FileKeys)
    (wBaseKey : SymmetricKey) : NamedRelativeCapability :=
  ⟨name, ⟨none, keys.mapKey, keys.bat, keys.rBaseKey,
    dirCap.wBaseKey.map fun parentKey => .build parentKey wBaseKey⟩, some false, some mime,
    some epoch⟩

/-- How a directory is changed: the fuel to walk its chunks, `max_child_links_per_blob`, and the
locations drawn for new chunks. -/
structure DirParams where
  fuel : ℕ
  maxLinks : ℕ
  fresh : List (Bytes × Bat)

/-- The arguments of an upload, and the keys and the time it draws. -/
structure UploadRequest where
  dirCap : AbsoluteCapability
  name : String
  size : ℕ
  hidden : Bool
  chunkSize : ℕ
  thumbnail : Option (String × Bytes)
  entrySigner : Option SigningPrivateKeyAndPublicHash
  mirrorBat : Option BatId
  epoch : ℤ
  keys : FileKeys
  wBaseKey : SymmetricKey

section Defs

variable (H : ContentHasher) (media : Media)

/-- The loop of the second pass, from chunk `i` on. -/
def uploadChunks (r : UploadRequest) (toParent : RelativeCapability) (mime : String)
    (thumbnail : Option (String × Bytes)) (tree : HashTree) (n : ℕ) :
    ℕ → ℕ → Bytes → Bytes → Option Bat → DirWriteContext → Result DirWriteContext
  | 0, _, _, _, _, ctx => pure ctx
  | remaining + 1, i, reader, mapKey, bat, ctx => do
      let (data, reader) ← readExact reader (chunkLen r.size r.chunkSize n i)
      let next ← calculateNextMapKey H r.keys.streamSecret mapKey bat
      let block ← fileChunk bat r.mirrorBat r.keys.rBaseKey r.keys.dataKey none next toParent
        (chunkProps r.name mime r.size r.epoch r.keys.streamSecret thumbnail r.chunkSize r.hidden
          tree i) data
      let ctx ← putChildChunk ctx mapKey block
      uploadChunks r toParent mime thumbnail tree n remaining (i + 1) reader next.1 next.2 ctx

/-- `upload_file_streaming_inner`. -/
def uploadFileStreamingInner (dir : DirParams) (r : UploadRequest) (reader : Bytes) :
    Exec Network Fault AbsoluteCapability := do
  let fileCap ← Exec.lift (AbsoluteCapability.new r.dirCap.owner r.dirCap.writer r.keys.mapKey
    r.keys.bat r.keys.rBaseKey (some r.wBaseKey))
  let n := chunkCount r.size r.chunkSize
  let chunks ← Exec.lift (readPass r.size r.chunkSize n n 0 reader)
  let tree ← Exec.lift (H.buildTree
    (chunks.mapIdx fun i chunk => H.chunkHash chunk i r.chunkSize (n = 1)) r.chunkSize)
  let mime := media.calculateMimeType
    ((chunks.headD []).take headerBytesToIdentifyMimeType) r.name
  let thumbnail := media.autoThumbnail r.thumbnail mime reader
  let ctx ← Exec.query fun net => beginDirWrite net r.dirCap r.entrySigner r.mirrorBat
  let ctx ← Exec.lift (uploadChunks H r (toParentLink r.dirCap ctx.dirParentKey) mime thumbnail tree
    n n 0 reader r.keys.mapKey r.keys.bat ctx)
  finishDirWriteMulti dir.fuel dir.maxLinks dir.fresh ctx r.dirCap
    [fileChildLink r.dirCap r.name mime r.epoch r.keys r.wBaseKey]
  pure fileCap

/-- `upload_file_streaming`: `chunkSize` and `hidden` of the request are not looked at. -/
def uploadFileStreaming (dir : DirParams) (r : UploadRequest) (reader : Bytes) :
    Exec Network Fault AbsoluteCapability :=
  uploadFileStreamingInner H media dir { r with chunkSize := chunkSizeForNewFiles, hidden := false }
    reader

/-- `upload_file_streaming_at_chunk_size`. -/
def uploadFileStreamingAtChunkSize (dir : DirParams) (r : UploadRequest) (reader : Bytes) :
    Exec Network Fault AbsoluteCapability :=
  if r.chunkSize ≠ legacyChunkSize ∧ r.chunkSize ≠ defaultChunkSize then
    Exec.fail (.err (.protocol s!"Unsupported chunk size: {r.chunkSize}"))
  else uploadFileStreamingInner H media dir { r with hidden := false, thumbnail := none } reader

/-- The two ways to stream an upload: at the chunk size of new files, or at a given one. -/
inductive UploadMode where
  | newFile
  | atChunkSize
  deriving DecidableEq, Repr

/-- The upload. -/
def UploadMode.upload (dir : DirParams) (r : UploadRequest) (reader : Bytes) :
    UploadMode → Exec Network Fault AbsoluteCapability
  | newFile => uploadFileStreaming H media dir r reader
  | atChunkSize => uploadFileStreamingAtChunkSize H media dir r reader

/-- The chunk size of the file an upload makes. -/
def UploadMode.chunkSize (r : UploadRequest) : UploadMode → ℕ
  | newFile => chunkSizeForNewFiles
  | atChunkSize => r.chunkSize

end Defs

/-! ## Reading the content -/

section Reading

variable {size c n i : ℕ} {reader : Bytes}

theorem chunkLen_eq (hc : 0 < c) (hi : i < chunkCount size c) :
    chunkLen size c (chunkCount size c) i = min c (size - i * c) := by
  have hle := size_le_chunkCount_mul size hc
  unfold chunkLen
  split
  · next hlast =>
      rw [← hlast, Nat.succ_mul] at hle
      omega
  · have hnext : i + 1 < chunkCount size c := by omega
    have := ((lt_chunkCount_iff hc).1 hnext).resolve_left (Nat.succ_ne_zero i)
    rw [Nat.succ_mul] at this
    omega

/-- A read at the start of a chunk. -/
theorem readExact_chunk (hc : 0 < c) (hi : i < chunkCount size c) (hsize : size ≤ reader.length) :
    readExact (reader.drop (i * c)) (chunkLen size c (chunkCount size c) i) =
      .ok (chunkAt c i (reader.take size),
        (reader.drop (i * c)).drop (min c (size - i * c))) := by
  have hlen : min c (size - i * c) ≤ (reader.drop (i * c)).length := by
    rw [List.length_drop]
    omega
  rw [chunkLen_eq hc hi, readExact, if_pos hlen, chunkAt, List.drop_take, List.take_take]

/-- After a chunk that is not the last one, the reader is at the start of the next. -/
theorem drop_chunk (hc : 0 < c) (hi : i + 1 < chunkCount size c) :
    (reader.drop (i * c)).drop (min c (size - i * c)) = reader.drop ((i + 1) * c) := by
  have hnext := ((lt_chunkCount_iff hc).1 hi).resolve_left (Nat.succ_ne_zero i)
  rw [Nat.succ_mul] at hnext ⊢
  rw [List.drop_drop, show min c (size - i * c) = c by omega]

theorem readPass_eq (hc : 0 < c) (hsize : size ≤ reader.length) {remaining : ℕ}
    (hi : i + remaining = chunkCount size c) :
    readPass size c (chunkCount size c) remaining i (reader.drop (i * c)) =
      .ok ((List.range' i remaining).map fun j => chunkAt c j (reader.take size)) := by
  induction remaining generalizing i with
  | zero => rfl
  | succ remaining ih =>
      unfold readPass
      simp only [readExact_chunk hc (show i < chunkCount size c by omega) hsize, bind, Except.bind,
        List.range'_succ, List.map_cons]
      cases remaining with
      | zero => rfl
      | succ remaining =>
          simp only [drop_chunk hc (show i + 1 < chunkCount size c by omega),
            ih (i := i + 1) (by omega), pure, Except.pure]

/-- A pass that ends has read the whole size. -/
theorem size_le_of_readPass (hc : 0 < c) {remaining : ℕ} {chunks : List Bytes}
    (hi : i + (remaining + 1) = chunkCount size c)
    (hrun : readPass size c (chunkCount size c) (remaining + 1) i (reader.drop (i * c)) =
      .ok chunks) : size ≤ reader.length := by
  induction remaining generalizing i chunks with
  | zero =>
      unfold readPass at hrun
      obtain ⟨⟨chunk, rest⟩, hread, -⟩ := bind_eq_ok.1 hrun
      rw [chunkLen_eq hc (by omega), readExact] at hread
      have hle := size_le_chunkCount_mul size hc
      rw [← hi, Nat.add_mul] at hle
      split at hread
      · next h =>
          rw [List.length_drop] at h
          have hlt : i < chunkCount size c := by omega
          rcases (lt_chunkCount_iff hc).1 hlt with h0 | h0
          · subst h0
            omega
          · omega
      · cases hread
  | succ remaining ih =>
      unfold readPass at hrun
      obtain ⟨⟨chunk, rest⟩, hread, hrun⟩ := bind_eq_ok.1 hrun
      obtain ⟨chunks', hrest, -⟩ := bind_eq_ok.1 hrun
      rw [chunkLen_eq hc (by omega), readExact] at hread
      split at hread
      · cases hread
        rw [drop_chunk hc (by omega)] at hrest
        exact ih (by omega) hrest
      · cases hread

/-- What a whole pass reads. -/
theorem readPass_ok (hc : 0 < c) {chunks : List Bytes}
    (hrun : readPass size c (chunkCount size c) (chunkCount size c) 0 reader = .ok chunks) :
    size ≤ reader.length ∧
      chunks = (List.range' 0 (chunkCount size c)).map fun j => chunkAt c j (reader.take size) := by
  obtain ⟨m, hm⟩ := Nat.exists_eq_add_one_of_ne_zero (chunkCount_pos size c).ne'
  have hrun' : readPass size c (chunkCount size c) (m + 1) 0 (reader.drop (0 * c)) = .ok chunks := by
    rw [Nat.zero_mul, List.drop_zero, ← hm]
    exact hrun
  have hsize := size_le_of_readPass hc (by omega) hrun'
  exact ⟨hsize, Except.ok.inj (hrun'.symm.trans (hm ▸ readPass_eq hc hsize (Nat.zero_add _)))⟩

end Reading

/-! ## Locations -/

/-- The first `limit` locations of a file. -/
def FileHandle.Location (H : ContentHasher) (limit : ℕ) (f : FileHandle) (k : Bytes) : Prop :=
  ∃ i < limit, k = f.key H i

/-- Keys nobody has used: the chunks of the file have distinct locations, nothing is stored in
them, and no node and no location drawn for a directory leads to one. -/
structure NewKeys (H : ContentHasher) (limit : ℕ) (keys : FileKeys) (fresh : List (Bytes × Bat))
    (t : Tree) : Prop where
  distinct : ∀ i < limit, ∀ j < limit,
    chunkKey H keys.streamSecret keys.mapKey i = chunkKey H keys.streamSecret keys.mapKey j → i = j
  absent : ∀ i < limit, t (chunkKey H keys.streamSecret keys.mapKey i) = none
  unlinked : ∀ k b, t k = some b → ∀ i < limit,
    b.fromBaseKey.secret.nextChunk.mapKey ≠ chunkKey H keys.streamSecret keys.mapKey i
  notFresh : ∀ e ∈ fresh, ∀ i < limit, e.1 ≠ chunkKey H keys.streamSecret keys.mapKey i

section Locations

variable {H : ContentHasher} {limit : ℕ} {f : FileHandle} {fresh : List (Bytes × Bat)} {t : Tree}

theorem NewKeys.distinctKeys (h : NewKeys H limit f.keys fresh t) : f.DistinctKeys H limit :=
  h.distinct

theorem NewKeys.apart (h : NewKeys H limit f.keys fresh t) : Apart (f.Location H limit) t := by
  rintro k b - hb ⟨i, hi, heq⟩
  exact h.unlinked k b hb i hi heq

theorem NewKeys.not_location_fresh (h : NewKeys H limit f.keys fresh t) :
    ∀ e ∈ fresh, ¬f.Location H limit e.1 := by
  rintro e he ⟨i, hi, heq⟩
  exact h.notFresh e he i hi heq

/-- What is stored is not in one of the new locations. -/
theorem NewKeys.not_location (h : NewKeys H limit f.keys fresh t) {k : Bytes} {b : CryptreeBlock}
    (hb : t k = some b) : ¬f.Location H limit k := by
  rintro ⟨i, hi, rfl⟩
  have hnone : t (f.key H i) = none := h.absent i hi
  rw [hb] at hnone
  cases hnone

/-- Chunks that are written in their locations change nothing elsewhere. -/
theorem writeAll_of_not_location {n : ℕ} (hn : n ≤ limit) (block : ℕ → CryptreeBlock) {k : Bytes}
    (hk : ¬f.Location H limit k) :
    t.writeAll id ((List.range' 0 n).map fun j => (f.key H j, block j)) k = t k := by
  refine Tree.writeAll_of_not_mem ?_
  simp only [List.map_map, List.mem_map, List.mem_range'_1, Function.comp]
  rintro ⟨j, ⟨-, hj⟩, rfl⟩
  exact hk ⟨j, by omega, rfl⟩

end Locations

/-! ## The chunks of an upload -/

section Chunks

variable {H : ContentHasher} {limit : ℕ} {f : FileHandle} {r : UploadRequest}

theorem putChildChunk_of_absent {ctx : DirWriteContext} {k : Bytes} (h : ctx.champ k = none)
    (block : CryptreeBlock) : putChildChunk ctx k block =
      .ok { ctx with champ := Function.update ctx.champ k (some block) } := by
  simp only [putChildChunk, Tree.put, h, bind, Except.bind]
  rfl

/-- The nodes of a file ask for the BATs of their places and lead from one chunk to the next, all
derived from the stream secret. -/
def Chained (H : ContentHasher) (f : FileHandle) (mirrorBat : Option BatId)
    (parts : ℕ → ChunkParts) : Prop :=
  ∀ i, nodeBatsOpt (chunkBat H f.streamSecret f.cap.bat i) mirrorBat = .ok (parts i).bats ∧
    (parts i).nextChunk = .subsequentChunk (f.key H (i + 1))
      (chunkBat H f.streamSecret f.cap.bat (i + 1)) f.cap.rBaseKey

/-- The second pass puts the chunks of the content. -/
theorem uploadChunks_eq (hkeys : r.keys = f.keys) (hc : r.chunkSize = f.chunkSize)
    (hdistinct : f.DistinctKeys H limit) (hlimit : chunkCount r.size f.chunkSize ≤ limit)
    {reader : Bytes} (hsize : r.size ≤ reader.length) (toParent : RelativeCapability)
    (mime : String) (thumbnail : Option (String × Bytes)) (tree : HashTree) :
    ∃ q : ℕ → ChunkParts,
      (∀ j, (q j).props = chunkProps r.name mime r.size r.epoch f.streamSecret thumbnail
        f.chunkSize r.hidden tree j) ∧
      Chained H f r.mirrorBat q ∧
      ∀ remaining i ctx, i + remaining = chunkCount r.size f.chunkSize →
        (∀ j < limit, i ≤ j → ctx.champ (f.key H j) = none) →
        uploadChunks H r toParent mime thumbnail tree (chunkCount r.size f.chunkSize) remaining i
            (reader.drop (i * f.chunkSize)) (f.key H i) (chunkBat H f.streamSecret f.cap.bat i) ctx =
          .ok { ctx with champ := ctx.champ.writeAll id ((List.range' i remaining).map fun j =>
            (f.key H j, f.block (q j) (chunkAt f.chunkSize j (reader.take r.size)))) } := by
  have hchunk : ∀ j, ∃ p : ChunkParts,
      p.props = chunkProps r.name mime r.size r.epoch f.streamSecret thumbnail f.chunkSize r.hidden
        tree j ∧
      nodeBatsOpt (chunkBat H f.streamSecret f.cap.bat j) r.mirrorBat = .ok p.bats ∧
      p.nextChunk = .subsequentChunk (f.key H (j + 1))
        (chunkBat H f.streamSecret f.cap.bat (j + 1)) f.cap.rBaseKey ∧
      fileChunk (chunkBat H f.streamSecret f.cap.bat j) r.mirrorBat f.cap.rBaseKey f.dataKey none
        (f.key H (j + 1), chunkBat H f.streamSecret f.cap.bat (j + 1)) toParent
        (chunkProps r.name mime r.size r.epoch f.streamSecret thumbnail f.chunkSize r.hidden tree j)
        (chunkAt f.chunkSize j (reader.take r.size)) =
        .ok (f.block p (chunkAt f.chunkSize j (reader.take r.size))) := fun j =>
    exists_fileChunk_linked _ _ _ _ _
      (f.key H (j + 1), chunkBat H f.streamSecret f.cap.bat (j + 1)) _ _ _
  choose q hq hbats hnext hblock using hchunk
  refine ⟨q, hq, fun j => ⟨hbats j, hnext j⟩, fun remaining => ?_⟩
  induction remaining with
  | zero => exact fun i ctx _ _ => rfl
  | succ remaining ih =>
      intro i ctx hi habsent
      have hput := putChildChunk_of_absent (habsent i (by omega) le_rfl)
        (f.block (q i) (chunkAt f.chunkSize i (reader.take r.size)))
      unfold uploadChunks
      rw [hkeys, hc, show f.keys.streamSecret = f.streamSecret from rfl,
        show f.keys.rBaseKey = f.cap.rBaseKey from rfl, show f.keys.dataKey = f.dataKey from rfl,
        readExact_chunk f.chunkSize_pos (show i < chunkCount r.size f.chunkSize by omega) hsize,
        f.calculateNextMapKey_key]
      simp only [bind, Except.bind, hblock i, hput, List.range'_succ, List.map_cons]
      cases remaining with
      | zero => rfl
      | succ remaining =>
          rw [drop_chunk f.chunkSize_pos (show i + 1 < chunkCount r.size f.chunkSize by omega),
            ih (i + 1) _ (by omega)]
          · rfl
          · intro j hj hij
            have hne : f.key H j ≠ f.key H i := fun heq => by
              have := hdistinct j hj i (by omega) heq
              omega
            exact (Function.update_of_ne hne _ _).trans (habsent j hj (by omega))

/-- The hash tree of the first pass. -/
theorem buildTree_readPass {c size : ℕ} {reader : Bytes} (hsize : size ≤ reader.length) :
    H.buildTree (((List.range' 0 (chunkCount size c)).map fun j =>
        chunkAt c j (reader.take size)).mapIdx fun i chunk =>
          H.chunkHash chunk i c (chunkCount size c = 1)) c =
      contentTree H c (reader.take size) := by
  have hlen : (reader.take size).length = size := List.length_take_of_le hsize
  unfold contentTree
  rw [hlen, ← List.range_eq_range']
  congr 1
  refine List.ext_getElem (by simp) fun i hi hi' => ?_
  simp

/-- The directory a write begins in. -/
theorem beginDirWrite_ok {net : Network} {dirCap : AbsoluteCapability}
    {entrySigner : Option SigningPrivateKeyAndPublicHash} {mirrorBat : Option BatId}
    {ctx : DirWriteContext} (h : beginDirWrite net dirCap entrySigner mirrorBat = .ok ctx) :
    net dirCap.writer = some ctx.champ ∧
      fetchChunkNode ctx.champ dirCap.rBaseKey dirCap.mapKey = some ctx.dirNode := by
  unfold beginDirWrite at h
  obtain ⟨champ, hopen, h⟩ := bind_eq_ok.1 h
  split at h
  · cases h
  · next node hnode =>
      split at h
      · cases h
      · obtain ⟨signer, -, h⟩ := bind_eq_ok.1 h
        obtain ⟨base, -, h⟩ := bind_eq_ok.1 h
        cases h
        refine ⟨?_, hnode⟩
        unfold openWriterRoot at hopen
        split at hopen
        · next t ht =>
            cases hopen
            exact ht
        · cases hopen

theorem beginDirWrite_baseBlock {net : Network} {dirCap : AbsoluteCapability}
    {entrySigner : Option SigningPrivateKeyAndPublicHash} {mirrorBat : Option BatId}
    {ctx : DirWriteContext} (h : beginDirWrite net dirCap entrySigner mirrorBat = .ok ctx) :
    ∃ base, ctx.dirNode.baseBlock dirCap.rBaseKey = .ok base := by
  unfold beginDirWrite at h
  obtain ⟨champ, -, h⟩ := bind_eq_ok.1 h
  split at h
  · cases h
  · split at h
    · cases h
    · obtain ⟨signer, -, h⟩ := bind_eq_ok.1 h
      obtain ⟨base, hbase, h⟩ := bind_eq_ok.1 h
      cases h
      exact ⟨base, hbase⟩

/-- A write begins in the same way on a champ that has the same node for the directory. -/
theorem beginDirWrite_congr {net net' : Network} {dirCap : AbsoluteCapability}
    {entrySigner : Option SigningPrivateKeyAndPublicHash} {mirrorBat : Option BatId}
    {ctx : DirWriteContext} {u : Tree}
    (h : beginDirWrite net dirCap entrySigner mirrorBat = .ok ctx)
    (hnet : net' dirCap.writer = some u) (hu : u dirCap.mapKey = ctx.champ dirCap.mapKey) :
    beginDirWrite net' dirCap entrySigner mirrorBat = .ok { ctx with champ := u } := by
  obtain ⟨-, hnode⟩ := beginDirWrite_ok h
  have hnode' : fetchChunkNode u dirCap.rBaseKey dirCap.mapKey = some ctx.dirNode := by
    rw [fetchChunkNode, hu]
    exact hnode
  unfold beginDirWrite at h ⊢
  obtain ⟨champ, hopen, h⟩ := bind_eq_ok.1 h
  rw [show openWriterRoot net' dirCap.writer = .ok u by rw [openWriterRoot, hnet], ok_bind, hnode']
  dsimp only
  split at h
  · cases h
  · next node hnode₀ =>
      split at h
      · cases h
      · next hdir =>
          obtain ⟨signer, hsigner, h⟩ := bind_eq_ok.1 h
          obtain ⟨base, hbase, h⟩ := bind_eq_ok.1 h
          cases h
          rw [if_neg hdir, hsigner, ok_bind, hbase, ok_bind]
          rfl

end Chunks

/-! ## The upload -/

section Upload

variable {H : ContentHasher} {media : Media} {limit : ℕ} {dir : DirParams} {r : UploadRequest}
  {reader : Bytes} {net net' : Network} {cap : AbsoluteCapability}

/-- The file an upload makes. -/
def UploadRequest.handle (r : UploadRequest) (cap : AbsoluteCapability) (hc : 0 < r.chunkSize) :
    FileHandle := ⟨cap, r.keys.dataKey, r.keys.streamSecret, r.chunkSize, hc⟩

theorem UploadRequest.keys_eq_of_new (hc : 0 < r.chunkSize)
    (h : AbsoluteCapability.new r.dirCap.owner r.dirCap.writer r.keys.mapKey r.keys.bat
      r.keys.rBaseKey (some r.wBaseKey) = .ok cap) :
    r.keys = (r.handle cap hc).keys ∧ cap.writer = r.dirCap.writer := by
  unfold AbsoluteCapability.new at h
  split at h
  · cases h
    exact ⟨rfl, rfl⟩
  · cases h

/-- The second pass and the commit. -/
theorem commit_uploadChunks {f : FileHandle} {ctx ctx' : DirWriteContext}
    {toParent : RelativeCapability} {mime : String} {thumbnail : Option (String × Bytes)}
    {tree : HashTree} {links : List NamedRelativeCapability} (hkeys : r.keys = f.keys)
    (hc : r.chunkSize = f.chunkSize) (hnew : NewKeys H limit f.keys dir.fresh ctx.champ)
    (hlimit : chunkCount r.size f.chunkSize ≤ limit) (hsize : r.size ≤ reader.length)
    (hnode : fetchChunkNode ctx.champ r.dirCap.rBaseKey r.dirCap.mapKey = some ctx.dirNode)
    (htree : contentTree H f.chunkSize (reader.take r.size) = .ok tree)
    (hchunks : uploadChunks H r toParent mime thumbnail tree (chunkCount r.size r.chunkSize)
      (chunkCount r.size r.chunkSize) 0 reader r.keys.mapKey r.keys.bat ctx = .ok ctx')
    (hfinish : finishDirWriteMulti dir.fuel dir.maxLinks dir.fresh ctx' r.dirCap links net =
      (.ok (), net')) :
    ∃ t parts, net' = Function.update net r.dirCap.writer (some t) ∧
      HoldsFile H limit f t parts (reader.take r.size) ∧
      Hashed H f.chunkSize (reader.take r.size) parts ∧ Chained H f r.mirrorBat parts := by
  have hcontent : (reader.take r.size).length = r.size := List.length_take_of_le hsize
  have habsent : ∀ i < limit, ctx.champ (f.key H i) = none := hnew.absent
  obtain ⟨q, hq, hchained, hloop⟩ := uploadChunks_eq hkeys hc hnew.distinctKeys hlimit hsize toParent mime
    thumbnail tree
  have hloop := hloop (chunkCount r.size f.chunkSize) 0 ctx (Nat.zero_add _)
    fun j hj _ => habsent j hj
  rw [Nat.zero_mul, List.drop_zero] at hloop
  rw [hkeys, hc] at hchunks
  obtain rfl := Except.ok.inj (hchunks.symm.trans hloop)
  obtain ⟨b, hb, -⟩ := Option.map_eq_some_iff.1 hnode
  obtain ⟨t, hnet, htree'⟩ := finishDirWriteMulti_ok hnew.apart (hnew.not_location hb) hnode
    hnew.not_location_fresh (fun k hk => writeAll_of_not_location hlimit _ hk) hfinish
  refine ⟨t, q, hnet, ⟨⟨?_, fun i hi => ?_, fun i hi hge => ?_, fun i => ?_, ?_, ?_⟩, ?_⟩,
    hashed_chunkProps htree hq, hchained⟩
  · rw [hcontent]
    exact hlimit
  · rw [hcontent] at hi
    rw [htree' _ ⟨i, by omega, rfl⟩]
    exact Tree.writeAll_range (fun a _ ha b _ hb => hnew.distinctKeys a (by omega) b (by omega))
      (Nat.zero_le i) (by omega)
  · rw [hcontent] at hge
    rw [htree' _ ⟨i, hi, rfl⟩, Tree.writeAll_of_not_mem, habsent i hi]
    simp only [List.map_map, List.mem_map, List.mem_range'_1, Function.comp]
    rintro ⟨j, ⟨-, hj⟩, heq⟩
    have := hnew.distinctKeys j (by omega) i hi heq
    omega
  · rw [hq]
    rfl
  · rw [hq, hcontent]
    rfl
  · rw [hq]
    rfl
  · rw [hq]
    rfl

/-- An upload that succeeds: the tree holds the bytes it was to read, with the hashes of these. -/
theorem uploadFileStreamingInner_ok (hc : 0 < r.chunkSize)
    (hnew : ∀ t, net r.dirCap.writer = some t → NewKeys H limit r.keys dir.fresh t)
    (hlimit : chunkCount (reader.take r.size).length r.chunkSize ≤ limit)
    (hrun : uploadFileStreamingInner H media dir r reader net = (.ok cap, net')) :
    r.keys = (r.handle cap hc).keys ∧ cap.writer = r.dirCap.writer ∧
      (r.handle cap hc).DistinctKeys H limit ∧ ∃ t parts,
      net' = Function.update net cap.writer (some t) ∧
      HoldsFile H limit (r.handle cap hc) t parts (reader.take r.size) ∧
      Hashed H r.chunkSize (reader.take r.size) parts ∧
      Chained H (r.handle cap hc) r.mirrorBat parts ∧ r.size ≤ reader.length := by
  unfold uploadFileStreamingInner at hrun
  obtain ⟨fileCap, hcap, hrun⟩ := Exec.lift_bind_eq_ok hrun
  obtain ⟨chunks, hchunks, hrun⟩ := Exec.lift_bind_eq_ok hrun
  obtain ⟨tree, htree, hrun⟩ := Exec.lift_bind_eq_ok hrun
  obtain ⟨ctx, hctx, hrun⟩ := Exec.query_bind_eq_ok hrun
  obtain ⟨ctx', hctx', hrun⟩ := Exec.lift_bind_eq_ok hrun
  obtain ⟨⟨⟩, net₁, hfinish, hrun⟩ := Exec.bind_eq_ok hrun
  cases hrun
  obtain ⟨hkeys, hwriter⟩ := r.keys_eq_of_new hc hcap
  obtain ⟨hsize, rfl⟩ := readPass_ok hc hchunks
  obtain ⟨hnet, hnode⟩ := beginDirWrite_ok hctx
  have hnew := hkeys ▸ hnew ctx.champ hnet
  rw [List.length_take_of_le hsize] at hlimit
  rw [buildTree_readPass hsize] at htree
  refine ⟨hkeys, hwriter, hnew.distinctKeys, ?_⟩
  rw [hwriter]
  obtain ⟨t, parts, hnet', hholds, hhashed, hchained⟩ := commit_uploadChunks
    (f := r.handle cap hc) hkeys rfl hnew hlimit hsize hnode htree hctx' hfinish
  exact ⟨t, parts, hnet', hholds, hhashed, hchained, hsize⟩

/-- An upload of a content that is there succeeds, into a directory that takes the link. -/
theorem uploadFileStreamingInner_succeeds (hc : 0 < r.chunkSize) {ctx : DirWriteContext}
    (hctx : beginDirWrite net r.dirCap r.entrySigner r.mirrorBat = .ok ctx)
    (hsigner : ctx.signer.publicKeyHash = r.dirCap.writer)
    (hlinked : ∀ mime, (linkedChamp dir.fuel dir.maxLinks dir.fresh ctx r.dirCap
      [fileChildLink r.dirCap r.name mime r.epoch r.keys r.wBaseKey]).toOption.isSome = true)
    (hmap : r.keys.mapKey.length = 32)
    (hnew : NewKeys H limit r.keys dir.fresh ctx.champ)
    (hlimit : chunkCount r.size r.chunkSize ≤ limit) (hsize : r.size ≤ reader.length)
    (htree : (contentTree H r.chunkSize (reader.take r.size)).toOption.isSome = true) :
    ∃ cap net', uploadFileStreamingInner H media dir r reader net = (.ok cap, net') := by
  obtain ⟨tree, htree⟩ := exists_eq_ok htree
  obtain ⟨cap, hcap⟩ : ∃ cap, AbsoluteCapability.new r.dirCap.owner r.dirCap.writer r.keys.mapKey
      r.keys.bat r.keys.rBaseKey (some r.wBaseKey) = .ok cap := ⟨_, dif_pos hmap⟩
  obtain ⟨hkeys, -⟩ := r.keys_eq_of_new hc hcap
  have hread := readPass_eq hc hsize (Nat.zero_add (chunkCount r.size r.chunkSize))
  rw [Nat.zero_mul, List.drop_zero] at hread
  rw [← buildTree_readPass hsize] at htree
  obtain ⟨hnet, hnode⟩ := beginDirWrite_ok hctx
  obtain ⟨b, hb, -⟩ := Option.map_eq_some_iff.1 hnode
  have hnew' : NewKeys H limit (r.handle cap hc).keys dir.fresh ctx.champ := hkeys ▸ hnew
  have hchunks := fun mime thumbnail => uploadChunks_eq (f := r.handle cap hc) hkeys rfl
    hnew'.distinctKeys hlimit hsize (toParentLink r.dirCap ctx.dirParentKey) mime thumbnail tree
  unfold uploadFileStreamingInner
  rw [Exec.bind_of_ok (by rw [Exec.lift_run, hcap])]
  dsimp only
  rw [Exec.bind_of_ok (by rw [Exec.lift_run, hread]),
    Exec.bind_of_ok (by rw [Exec.lift_run, htree]),
    Exec.bind_of_ok (by rw [Exec.query_run, hctx])]
  generalize media.calculateMimeType _ _ = mime
  obtain ⟨q, -, -, hloop⟩ := hchunks mime (media.autoThumbnail r.thumbnail mime reader)
  have hloop := hloop (chunkCount r.size r.chunkSize) 0 ctx (Nat.zero_add _)
    fun j hj _ => hnew'.absent j hj
  rw [Nat.zero_mul, List.drop_zero, show (r.handle cap hc).key H 0 = r.keys.mapKey by rw [hkeys]; rfl,
    show chunkBat H (r.handle cap hc).streamSecret (r.handle cap hc).cap.bat 0 = r.keys.bat by
      rw [hkeys]; rfl] at hloop
  obtain ⟨net', hfinish⟩ := finishDirWriteMulti_succeeds net hnew'.apart (hnew'.not_location hb)
    hnode hnew'.not_location_fresh (fun k hk => writeAll_of_not_location hlimit _ hk) hsigner
    (hlinked mime)
  rw [Exec.bind_of_ok (by rw [Exec.lift_run]; exact congrArg (·, net) hloop),
    Exec.bind_of_ok hfinish]
  exact ⟨cap, net', rfl⟩

/-- The file an upload of either kind makes. -/
theorem UploadMode.upload_ok (mode : UploadMode)
    (hnew : ∀ t, net r.dirCap.writer = some t → NewKeys H limit r.keys dir.fresh t)
    (hlimit : chunkCount (reader.take r.size).length (mode.chunkSize r) ≤ limit)
    (hrun : mode.upload H media dir r reader net = (.ok cap, net')) :
    ∃ f : FileHandle, f.cap = cap ∧ cap.writer = r.dirCap.writer ∧
      f.chunkSize = mode.chunkSize r ∧ r.keys = f.keys ∧
      f.DistinctKeys H limit ∧ ∃ t parts, net' cap.writer = some t ∧
        HoldsFile H limit f t parts (reader.take r.size) ∧
        Hashed H f.chunkSize (reader.take r.size) parts ∧ Chained H f r.mirrorBat parts ∧
        r.size ≤ reader.length := by
  -- both kinds are the same upload of a request
  obtain ⟨r', hr, hkeys, hsize, hdir, hbat, hc, hinner⟩ : ∃ r' : UploadRequest,
      r'.chunkSize = mode.chunkSize r ∧ r'.keys = r.keys ∧ r'.size = r.size ∧
      r'.dirCap = r.dirCap ∧ r'.mirrorBat = r.mirrorBat ∧ 0 < r'.chunkSize ∧
      uploadFileStreamingInner H media dir r' reader net = (.ok cap, net') := by
    cases mode with
    | newFile =>
        exact ⟨{ r with chunkSize := chunkSizeForNewFiles, hidden := false }, rfl, rfl, rfl, rfl, rfl,
          (by decide : 0 < legacyChunkSize), hrun⟩
    | atChunkSize =>
        rw [UploadMode.upload, uploadFileStreamingAtChunkSize] at hrun
        split_ifs at hrun with hsupported
        · cases hrun
        · refine ⟨{ r with hidden := false, thumbnail := none }, rfl, rfl, rfl, rfl, rfl, ?_,
            hrun⟩
          have hsize : r.chunkSize = legacyChunkSize ∨ r.chunkSize = defaultChunkSize := by
            by_contra hnot
            exact hsupported (not_or.1 hnot)
          rcases hsize with hsize | hsize
          · exact hsize ▸ (by decide : 0 < legacyChunkSize)
          · exact hsize ▸ (by decide : 0 < defaultChunkSize)
  obtain ⟨hhandle, hwriter, hdistinct, t, parts, hnet, hholds, hhashed, hchained, hread⟩ :=
    uploadFileStreamingInner_ok hc (by rw [hdir, hkeys]; exact hnew)
      (by rw [hsize, hr]; exact hlimit) hinner
  refine ⟨r'.handle cap hc, rfl, hdir ▸ hwriter, hr, hkeys ▸ hhandle, hdistinct, t, parts, ?_,
    hsize ▸ hholds, hsize ▸ hhashed, hbat ▸ hchained, hsize ▸ hread⟩
  rw [hnet, Function.update_self]

end Upload

/-! ## An empty directory -/

/-- The hash functions, for files of the legacy chunk size: these do not use BLAKE3. -/
def legacyHasher : ContentHasher where
  sha256 := Sha256.sha256
  sha256_length := Sha256.length_sha256
  blake3 _ := []
  blake3ChainingValue _ _ := []
  blake3MergeSubtree _ := []
  blake3MergeAsRoot _ := []

/-- The key made of one byte. -/
def byteSymmetricKey (n : UInt8) : SymmetricKey := ⟨List.replicate 32 n, false⟩

/-- A directory of the writer 2, with its own keys. -/
def rootCap : AbsoluteCapability :=
  ⟨byteKey 1, byteKey 2, List.replicate 32 3, none, byteSymmetricKey 4, none, rfl⟩

/-- The node of an empty directory. -/
def rootBlock : CryptreeBlock :=
  ⟨[], .build rootCap.rBaseKey ⟨byteSymmetricKey 5, none,
      .subsequentChunk (List.replicate 32 6) none rootCap.rBaseKey⟩,
    .build (byteSymmetricKey 5)
      ⟨none, ⟨"", true, false, "", 0, false, 0, 0, none, none, none, legacyChunkSize⟩⟩,
    .build rootCap.rBaseKey (.named [])⟩

/-- A network with nothing but this directory. -/
def rootNetwork : Network := fun w =>
  if w = byteKey 2 then some fun k => if k = List.replicate 32 3 then some rootBlock else none
  else none

/-- An upload into it. -/
def rootUpload (name : String) (size : ℕ) : UploadRequest :=
  ⟨rootCap, name, size, false, legacyChunkSize, none, some (byteSigner 2), none, 0,
    ⟨List.replicate 32 7, none, byteSymmetricKey 8, byteSymmetricKey 9, List.replicate 32 10⟩,
    byteSymmetricKey 11⟩

/-- The capability of the file it makes. -/
def rootFileCap : AbsoluteCapability :=
  ⟨byteKey 1, byteKey 2, List.replicate 32 7, none, byteSymmetricKey 8, some (byteSymmetricKey 11),
    rfl⟩

/-- Room for the walk over the directory. -/
def rootParams : DirParams := ⟨2, 500, []⟩

/-- Media code that knows no type. -/
def plainMedia : Media := ⟨fun _ _ => "application/octet-stream", fun thumbnail _ _ => thumbnail⟩

/-- The keys of the upload are new. -/
theorem newKeys_rootUpload (name : String) (size : ℕ) :
    ∀ t, rootNetwork (rootUpload name size).dirCap.writer = some t →
      NewKeys legacyHasher 2 (rootUpload name size).keys rootParams.fresh t := by
  have hdistinct : ∀ i < 2, ∀ j < 2,
      chunkKey legacyHasher (List.replicate 32 10) (List.replicate 32 7) i =
        chunkKey legacyHasher (List.replicate 32 10) (List.replicate 32 7) j → i = j := by
    decide +kernel
  have hother : ∀ i < 2,
      chunkKey legacyHasher (List.replicate 32 10) (List.replicate 32 7) i ≠ List.replicate 32 3 ∧
      List.replicate 32 6 ≠
        chunkKey legacyHasher (List.replicate 32 10) (List.replicate 32 7) i := by
    decide +kernel
  intro t ht
  obtain rfl : (fun k => if k = List.replicate 32 3 then some rootBlock else none) = t :=
    Option.some.inj ht
  refine ⟨hdistinct, fun i hi => if_neg (hother i hi).1, fun k b hb i hi => ?_,
    fun e he => absurd he List.not_mem_nil⟩
  split at hb
  · cases hb
    exact (hother i hi).2
  · cases hb

/-- The context of a write to the directory. -/
def rootContext : DirWriteContext :=
  ⟨fun k => if k = List.replicate 32 3 then some rootBlock else none, byteSigner 2,
    { rootBlock with isDirectory := true }, byteSymmetricKey 5, none⟩

theorem beginDirWrite_root :
    beginDirWrite rootNetwork rootCap (some (byteSigner 2)) none = .ok rootContext := rfl

/-- The directory takes a link. -/
theorem linkedChamp_root (link : NamedRelativeCapability) :
    (linkedChamp rootParams.fuel rootParams.maxLinks rootParams.fresh rootContext rootCap
      [link]).toOption.isSome = true := rfl

/-- A content of up to two chunks can be uploaded. -/
theorem rootUpload_succeeds (name : String) {size : ℕ} {reader : Bytes}
    (hlimit : chunkCount size legacyChunkSize ≤ 2) (hsize : size ≤ reader.length)
    (htree : (contentTree legacyHasher legacyChunkSize (reader.take size)).toOption.isSome = true) :
    ∃ cap net, UploadMode.newFile.upload legacyHasher plainMedia rootParams (rootUpload name size)
      reader rootNetwork = (.ok cap, net) :=
  uploadFileStreamingInner_succeeds (r := rootUpload name size)
    (show 0 < legacyChunkSize by decide) beginDirWrite_root rfl
    (fun _ => linkedChamp_root _) rfl (newKeys_rootUpload name size _ rfl) hlimit hsize htree

end Peergos
