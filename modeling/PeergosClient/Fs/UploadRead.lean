import PeergosClient.Fs.Blake3Root
import PeergosClient.Fs.EditRuns
import PeergosClient.Fs.ParallelHash

/-!
# Reading back an upload

The uploader lays the chunks of a file out ahead of time, from the stream secret and the index of
each; the reader goes from one chunk to the next.  An upload into a directory that takes it succeeds,
and the file reads back as the bytes that went in, whatever their number and whichever chunk size is
used; what it says of its size, of its hash tree and of the places of its chunks is true.  Contents
of more chunks than a hash tree has room for are refused.
-/

namespace Peergos

open Chunks

/-- A chunk as the reader finds it: it asks for the BAT of its index, names the next chunk, and
stores a branch of the hash tree if it is the first of a group of 1024. -/
structure ChunkInPlace (H : ContentHasher) (keys : FileKeys) (mirrorBat : Option BatId)
    (tree : HashTree) (i : ℕ) (node : CryptreeNode) : Prop where
  bats : nodeBatsOpt (chunkBat H keys.streamSecret keys.bat i) mirrorBat = .ok node.bats
  next : (node.baseBlock keys.rBaseKey).map (·.nextChunk) =
    .ok (.subsequentChunk (chunkKey H keys.streamSecret keys.mapKey (i + 1))
      (chunkBat H keys.streamSecret keys.bat (i + 1)) keys.rBaseKey)
  treeHash : (node.getProperties keys.rBaseKey).map (·.treeHash) =
    .ok (if i % 1024 = 0 then some (tree.branch i) else none)

/-- The file under `cap` is the content: what `read_file` gives, and the chunks it is made of. -/
structure ReadsAs (H : ContentHasher) (limit : ℕ) (keys : FileKeys) (mirrorBat : Option BatId)
    (c : ℕ) (cap : AbsoluteCapability) (net : Network) (content : Bytes) : Prop where
  /-- The capability leads to the keys that were drawn. -/
  location : cap.mapKey = keys.mapKey ∧ cap.bat = keys.bat ∧ cap.rBaseKey = keys.rBaseKey
  /-- Reading ends, with the content and with properties that match it.  The root hash among them
  is the one the file hasher gives, with any number of threads. -/
  reads : ∃ props tree, contentTree H c content = .ok tree ∧
    (∀ fuel, chunkCount content.length c ≤ fuel → readFile H fuel net cap = .ok (props, content)) ∧
    props.size = content.length ∧ props.chunkSize = c ∧
    props.streamSecret = some keys.streamSecret ∧ props.treeHash = some (tree.branch 0) ∧
    ∀ o run nThreads, hashFileWithThreads H o run content content.length c nThreads =
      .ok (tree.branch 0).rootHash
  /-- The chunks are where the stream secret puts them, and there are no others. -/
  chunks : ∃ t tree, net cap.writer = some t ∧ contentTree H c content = .ok tree ∧
    (∀ i < chunkCount content.length c, ∃ node,
      fetchChunkNode t keys.rBaseKey (chunkKey H keys.streamSecret keys.mapKey i) = some node ∧
      ChunkInPlace H keys mirrorBat tree i node) ∧
    ∀ i < limit, chunkCount content.length c ≤ i →
      fetchChunkNode t keys.rBaseKey (chunkKey H keys.streamSecret keys.mapKey i) = none

/-! ## How many chunks a hash tree has room for -/

section Room

variable {H : ContentHasher} {hashes : List Bytes} {c : ℕ} {content : Bytes}

theorem length_hashLevel (level : List ChunkHashList) :
    (H.hashLevel level).length = level.length := List.length_map _

theorem length_mergeBlobs (level : List ChunkHashList) :
    (H.mergeBlobs level).length = level.length := List.length_map _

/-- Three levels of 1024 are enough for up to 1024 to the third chunks. -/
theorem exists_buildTree (hne : hashes ≠ []) (hmax : hashes.length ≤ 1024 ^ 3) :
    ∃ tree, H.buildTree hashes c = .ok tree := by
  have hpos := List.length_pos_iff.2 hne
  simp only [ContentHasher.buildTree, ContentHasher.buildBlake3, ContentHasher.length_buildLevel,
    length_hashLevel, length_mergeBlobs, if_neg hne]
  split_ifs
  all_goals first | exact ⟨_, rfl⟩ | omega

/-- For more chunks there is no tree, of either kind. -/
theorem buildTree_too_long (hlong : 1024 ^ 3 < hashes.length) :
    ∃ msg, H.buildTree hashes c = protocolErr msg := by
  have hne : hashes ≠ [] := by
    rintro rfl
    simp at hlong
  simp only [ContentHasher.buildTree, ContentHasher.buildBlake3, ContentHasher.length_buildLevel,
    length_hashLevel, length_mergeBlobs, if_neg hne]
  split_ifs
  all_goals first | exact ⟨_, rfl⟩ | omega

theorem exists_contentTree (hmax : chunkCount content.length c ≤ 1024 ^ 3) :
    ∃ tree, contentTree H c content = .ok tree :=
  exists_buildTree (by simpa using (chunkCount_pos content.length c).ne') (by simpa using hmax)

theorem contentTree_too_long (hlong : 1024 ^ 3 < chunkCount content.length c) :
    ∃ msg, contentTree H c content = protocolErr msg :=
  buildTree_too_long (by simpa using hlong)

end Room

section Uploaded

variable {H : ContentHasher} {limit : ℕ} {f : FileHandle} {t : Tree} {parts : ℕ → ChunkParts}
  {content : Bytes} {net : Network}

/-- A chunk of a chained file is in its place. -/
theorem chunkInPlace_of_chained {mirrorBat : Option BatId} {tree : HashTree} {i : ℕ}
    (hchained : Chained H f mirrorBat parts)
    (hhash : (parts i).props.treeHash = if i % 1024 = 0 then some (tree.branch i) else none)
    (data : Bytes) :
    ChunkInPlace H f.keys mirrorBat tree i ((parts i).node f.cap.rBaseKey f.dataKey data) := by
  obtain ⟨hbats, hnext⟩ := hchained i
  refine ⟨hbats, ?_, ?_⟩
  · show (CryptreeNode.baseBlock _ f.cap.rBaseKey).map _ = _
    simp only [ChunkParts.baseBlock_node, Except.map, hnext]
    rfl
  · show (CryptreeNode.getProperties _ f.cap.rBaseKey).map _ = _
    simp only [ChunkParts.getProperties_node, Except.map, hhash]

/-- A held file that is hashed and chained reads as its content. -/
theorem HoldsFile.readsAs (h : HoldsFile H limit f t parts content) (hnet : net f.cap.writer = some t)
    (hhashed : Hashed H f.chunkSize content parts) {mirrorBat : Option BatId}
    (hchained : Chained H f mirrorBat parts) :
    ReadsAs H limit f.keys mirrorBat f.chunkSize f.cap net content := by
  obtain ⟨tree, htree, hparts⟩ := hhashed
  have hroot : ∀ o run nThreads,
      hashFileWithThreads H o run content content.length f.chunkSize nThreads =
        .ok (tree.branch 0).rootHash := fun o run nThreads => by
    rw [hashFileWithThreads_of_pos H o run content f.chunkSize_pos nThreads, htree]
    rfl
  refine ⟨⟨rfl, rfl, rfl⟩, ⟨(parts 0).props, tree, htree, fun fuel hfuel => h.readFile_eq hnet hfuel,
    h.size, h.chunkSize, h.streamSecret, hparts 0, hroot⟩,
    ⟨t, tree, hnet, htree, fun i hi => ?_, fun i hi hge => ?_⟩⟩
  · exact ⟨(parts i).node f.cap.rBaseKey f.dataKey (chunkAt f.chunkSize i content), h.fetch hi,
      chunkInPlace_of_chained hchained (hparts i) _⟩
  · show (t (f.key H i)).map _ = none
    rw [h.absent i hi hge, Option.map_none]

end Uploaded

section Upload

variable {H : ContentHasher} {limit : ℕ} {media : Media} {dir : DirParams} {r : UploadRequest}
  {reader : Bytes} {net net' : Network} {cap : AbsoluteCapability}

/-- What an upload that succeeded has read is what the file under its capability reads back as. -/
theorem readsAs_of_upload (mode : UploadMode)
    (hnew : ∀ t, net r.dirCap.writer = some t → NewKeys H limit r.keys dir.fresh t)
    (hlimit : chunkCount r.size (mode.chunkSize r) ≤ limit)
    (hupload : mode.upload H media dir r reader net = (.ok cap, net')) :
    ReadsAs H limit r.keys r.mirrorBat (mode.chunkSize r) cap net' (reader.take r.size) := by
  have hlimit' : chunkCount (reader.take r.size).length (mode.chunkSize r) ≤ limit :=
    (chunkCount_mono (List.length_take_le _ _)).trans hlimit
  obtain ⟨f, rfl, -, hc, hkeys, -, t, parts, hnet, hholds, hhashed, hchained, -⟩ :=
    mode.upload_ok hnew hlimit' hupload
  rw [hkeys, ← hc]
  exact hholds.readsAs hnet hhashed hchained

/-- A directory that takes the link of an uploaded file, and keys for the file that nobody has
used. -/
structure UploadReady (H : ContentHasher) (limit : ℕ) (dir : DirParams) (r : UploadRequest)
    (net : Network) (ctx : DirWriteContext) : Prop where
  begun : beginDirWrite net r.dirCap r.entrySigner r.mirrorBat = .ok ctx
  signer : ctx.signer.publicKeyHash = r.dirCap.writer
  linked : ∀ mime, (linkedChamp dir.fuel dir.maxLinks dir.fresh ctx r.dirCap
    [fileChildLink r.dirCap r.name mime r.epoch r.keys r.wBaseKey]).toOption.isSome = true
  mapKey : r.keys.mapKey.length = 32
  newKeys : NewKeys H limit r.keys dir.fresh ctx.champ

/-- Both kinds of uploads are the same upload of a request. -/
theorem UploadMode.upload_eq (mode : UploadMode) (H : ContentHasher) (media : Media)
    (dir : DirParams) (reader : Bytes)
    (hc : mode.chunkSize r = legacyChunkSize ∨ mode.chunkSize r = defaultChunkSize) :
    ∃ r' : UploadRequest, r'.dirCap = r.dirCap ∧ r'.name = r.name ∧ r'.size = r.size ∧
      r'.entrySigner = r.entrySigner ∧ r'.mirrorBat = r.mirrorBat ∧ r'.epoch = r.epoch ∧
      r'.keys = r.keys ∧ r'.wBaseKey = r.wBaseKey ∧ r'.chunkSize = mode.chunkSize r ∧
      mode.upload H media dir r reader = uploadFileStreamingInner H media dir r' reader := by
  cases mode with
  | newFile =>
      exact ⟨{ r with chunkSize := chunkSizeForNewFiles, hidden := false }, rfl, rfl, rfl, rfl, rfl,
        rfl, rfl, rfl, rfl, rfl⟩
  | atChunkSize =>
      refine ⟨{ r with hidden := false, thumbnail := none }, rfl, rfl, rfl, rfl, rfl, rfl, rfl, rfl,
        rfl, if_neg ?_⟩
      rintro ⟨hlegacy, hdefault⟩
      exact hc.elim hlegacy hdefault

theorem UploadMode.chunkSize_pos {mode : UploadMode}
    (hc : mode.chunkSize r = legacyChunkSize ∨ mode.chunkSize r = defaultChunkSize) :
    0 < mode.chunkSize r := by
  rcases hc with h | h <;> rw [h] <;> decide

/-- A content of more chunks than a hash tree has room for is refused, before anything is written. -/
theorem UploadMode.upload_too_long (mode : UploadMode) (media : Media)
    (hc : mode.chunkSize r = legacyChunkSize ∨ mode.chunkSize r = defaultChunkSize)
    (hmap : r.keys.mapKey.length = 32) (hsize : r.size ≤ reader.length)
    (hlong : 1024 ^ 3 < chunkCount r.size (mode.chunkSize r)) :
    ∃ msg, mode.upload H media dir r reader net = (protocolErr msg, net) := by
  obtain ⟨r', hdir, -, hsize', -, -, -, hkeys, hbase, hc', hrun⟩ := mode.upload_eq H media dir
    reader hc
  have hpos : 0 < r'.chunkSize := hc' ▸ mode.chunkSize_pos hc
  rw [← hsize'] at hsize hlong
  rw [← hc'] at hlong
  have hread := readPass_eq hpos hsize (Nat.zero_add (chunkCount r'.size r'.chunkSize))
  rw [Nat.zero_mul, List.drop_zero] at hread
  obtain ⟨msg, htree⟩ := contentTree_too_long (H := H)
    (show 1024 ^ 3 < chunkCount (reader.take r'.size).length r'.chunkSize by
      rwa [List.length_take_of_le hsize])
  rw [← buildTree_readPass hsize] at htree
  obtain ⟨cap, hcap⟩ : ∃ cap, AbsoluteCapability.new r'.dirCap.owner r'.dirCap.writer
      r'.keys.mapKey r'.keys.bat r'.keys.rBaseKey (some r'.wBaseKey) = .ok cap :=
    ⟨_, dif_pos (hkeys ▸ hmap)⟩
  refine ⟨msg, ?_⟩
  rw [hrun]
  unfold uploadFileStreamingInner
  rw [Exec.bind_of_ok (by rw [Exec.lift_run, hcap])]
  dsimp only
  rw [Exec.bind_of_ok (by rw [Exec.lift_run, hread])]
  exact Exec.bind_of_error (by rw [Exec.lift_run, htree]; rfl)

/-- **Upload then read is the identity.**  Into a directory that takes the link, an upload of either
kind succeeds, and the file under the capability it returns reads back as the content, for as many
chunks as a hash tree has room for; with more there is an error and nothing is written. -/
theorem upload_then_read (mode : UploadMode) (media : Media)
    (hc : mode.chunkSize r = legacyChunkSize ∨ mode.chunkSize r = defaultChunkSize)
    {ctx : DirWriteContext} (hready : UploadReady H limit dir r net ctx)
    (hlimit : chunkCount r.size (mode.chunkSize r) ≤ limit) (hsize : r.size ≤ reader.length) :
    (chunkCount r.size (mode.chunkSize r) ≤ 1024 ^ 3 →
      ∃ cap net', mode.upload H media dir r reader net = (.ok cap, net') ∧
        ReadsAs H limit r.keys r.mirrorBat (mode.chunkSize r) cap net' (reader.take r.size)) ∧
    (1024 ^ 3 < chunkCount r.size (mode.chunkSize r) →
      ∃ msg, mode.upload H media dir r reader net = (protocolErr msg, net)) := by
  refine ⟨fun hmax => ?_, mode.upload_too_long media hc hready.mapKey hsize⟩
  obtain ⟨hnet, -⟩ := beginDirWrite_ok hready.begun
  have hnew : ∀ t, net r.dirCap.writer = some t → NewKeys H limit r.keys dir.fresh t := by
    intro t ht
    rw [hnet] at ht
    exact Option.some.inj ht ▸ hready.newKeys
  obtain ⟨cap, net', hupload⟩ : ∃ cap net',
      mode.upload H media dir r reader net = (.ok cap, net') := by
    obtain ⟨r', hdir, hname, hsize', hentry, hbat, hepoch, hkeys, hbase, hc', hrun⟩ :=
      mode.upload_eq H media dir reader hc
    have hbegun : beginDirWrite net r'.dirCap r'.entrySigner r'.mirrorBat = .ok ctx := by
      rw [hdir, hentry, hbat]
      exact hready.begun
    have hlinked : ∀ mime, (linkedChamp dir.fuel dir.maxLinks dir.fresh ctx r'.dirCap
        [fileChildLink r'.dirCap r'.name mime r'.epoch r'.keys r'.wBaseKey]).toOption.isSome =
          true := by
      rw [hdir, hname, hepoch, hkeys, hbase]
      exact hready.linked
    have htree : (contentTree H r'.chunkSize (reader.take r'.size)).toOption.isSome = true := by
      obtain ⟨tree, htree⟩ := exists_contentTree (H := H) (c := r'.chunkSize)
        (show chunkCount (reader.take r'.size).length r'.chunkSize ≤ 1024 ^ 3 by
          rwa [hsize', hc', List.length_take_of_le hsize])
      rw [htree]
      rfl
    rw [hrun]
    exact uploadFileStreamingInner_succeeds (hc' ▸ mode.chunkSize_pos hc) hbegun
      (hdir ▸ hready.signer) hlinked (hkeys ▸ hready.mapKey) (hkeys ▸ hready.newKeys)
      (by rwa [hsize', hc']) (by rwa [hsize']) htree
  exact ⟨cap, net', hupload, readsAs_of_upload mode hnew hlimit hupload⟩

/-- The sample directory takes the link of a file of up to two chunks. -/
theorem uploadReady_root (name : String) (size : ℕ) :
    UploadReady legacyHasher 2 rootParams (rootUpload name size) rootNetwork rootContext :=
  ⟨beginDirWrite_root, rfl, fun _ => linkedChamp_root _, rfl, newKeys_rootUpload name size _ rfl⟩

/-- The empty file and a file of a chunk and three bytes. -/
theorem upload_then_read_samples :
    (∃ cap net, UploadMode.newFile.upload legacyHasher plainMedia rootParams (rootUpload "a" 0) []
        rootNetwork = (.ok cap, net) ∧
      ReadsAs legacyHasher 2 (rootUpload "a" 0).keys none legacyChunkSize cap net []) ∧
    ∃ cap net, UploadMode.newFile.upload legacyHasher plainMedia rootParams
        (rootUpload "a" (legacyChunkSize + 3)) (List.replicate (legacyChunkSize + 3) 1)
        rootNetwork = (.ok cap, net) ∧
      ReadsAs legacyHasher 2 (rootUpload "a" (legacyChunkSize + 3)).keys none legacyChunkSize cap net
        (List.replicate (legacyChunkSize + 3) 1) := by
  have hempty := (upload_then_read .newFile plainMedia (.inl rfl) (uploadReady_root "a" 0) (by decide)
    (Nat.zero_le ([] : Bytes).length)).1 (by decide)
  have htwo := (upload_then_read .newFile plainMedia (.inl rfl)
    (uploadReady_root "a" (legacyChunkSize + 3)) (by decide)
    (show legacyChunkSize + 3 ≤ (List.replicate (legacyChunkSize + 3) (1 : UInt8)).length by
      simp)).1 (by decide)
  have htake : (List.replicate (legacyChunkSize + 3) (1 : UInt8)).take
      (rootUpload "a" (legacyChunkSize + 3)).size = List.replicate (legacyChunkSize + 3) 1 := by
    simp [rootUpload]
  rw [htake] at htwo
  exact ⟨hempty, htwo⟩

/-- A content of one byte more than a hash tree has room for is not uploaded. -/
theorem upload_too_long_fails : UploadReady legacyHasher 2 rootParams
      (rootUpload "a" (1024 ^ 3 * legacyChunkSize + 1)) rootNetwork rootContext ∧
    ∀ cap net, UploadMode.newFile.upload legacyHasher plainMedia rootParams
      (rootUpload "a" (1024 ^ 3 * legacyChunkSize + 1))
      (List.replicate (1024 ^ 3 * legacyChunkSize + 1) 0) rootNetwork ≠ (.ok cap, net) := by
  refine ⟨uploadReady_root _ _, fun cap net h => ?_⟩
  obtain ⟨msg, hfail⟩ := UploadMode.newFile.upload_too_long (H := legacyHasher)
    (r := rootUpload "a" (1024 ^ 3 * legacyChunkSize + 1)) plainMedia (.inl rfl) rfl
    (show 1024 ^ 3 * legacyChunkSize + 1 ≤
      (List.replicate (1024 ^ 3 * legacyChunkSize + 1) (0 : UInt8)).length by simp) (by decide)
  rw [hfail] at h
  cases h

end Upload

end Peergos
