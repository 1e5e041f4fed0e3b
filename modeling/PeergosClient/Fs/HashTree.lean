import PeergosClient.Core.Storage

/-!
# The content hash tree of a file

Each chunk of a file has a value of 32 bytes.  The values are grouped into lists of up to 1024, the
lists are combined up the levels to a root, and the first chunk of each group carries the branch of
the tree above it in its properties.  Files of the legacy chunk size hash each level with SHA-256;
other files use the chaining values and merges of BLAKE3.

The hash functions are those of another library and parameters here.
-/

namespace Peergos

/-! ## Chunk sizes -/

/-- `LEGACY_CHUNK_SIZE`. -/
def legacyChunkSize : ℕ := 5 * 1024 * 1024

/-- `DEFAULT_CHUNK_SIZE`. -/
def defaultChunkSize : ℕ := 4 * 1024 * 1024

/-- `uses_blake3`. -/
def usesBlake3 (chunkSize : ℕ) : Bool := chunkSize ≠ legacyChunkSize

/-- `chunk_size_for_new_files`. -/
def chunkSizeForNewFiles : ℕ := legacyChunkSize

/-- The hash functions of the crypto library. -/
structure ContentHasher where
  sha256 : Bytes → Bytes
  sha256_length : ∀ b, (sha256 b).length = 32
  blake3 : Bytes → Bytes
  blake3ChainingValue : Bytes → ℕ → Bytes
  blake3MergeSubtree : List Bytes → Bytes
  blake3MergeAsRoot : List Bytes → Bytes

/-! ## The tree -/

/-- `RootHash`. -/
structure RootHash where
  hash : Bytes
  deriving DecidableEq, Repr

/-- `ChunkHashList`: up to 1024 values one after another. -/
structure ChunkHashList where
  chunkHashes : Bytes
  deriving DecidableEq, Repr

/-- `HashBranch`. -/
structure HashBranch where
  rootHash : RootHash
  level1 : Option ChunkHashList
  level2 : Option ChunkHashList
  level3 : Option ChunkHashList
  deriving DecidableEq, Repr

/-- `HashTree`. -/
structure HashTree where
  rootHash : RootHash
  level1 : List ChunkHashList
  level2 : List ChunkHashList
  level3 : List ChunkHashList
  deriving DecidableEq, Repr

/-- `ChunkHashList::to_cbor`. -/
def ChunkHashList.toCbor (l : ChunkHashList) : CborObject :=
  .build [("h", .byteString l.chunkHashes)]

/-- `ChunkHashList::hashes`. -/
def ChunkHashList.hashes (l : ChunkHashList) : List Bytes := l.chunkHashes.toChunks 32

/-- `build_level`. -/
def buildLevel (hashes : List Bytes) : List ChunkHashList :=
  (hashes.toChunks 1024).map fun group => ⟨group.flatten⟩

namespace ContentHasher

variable (H : ContentHasher)

/-- The bytes of one chunk of BLAKE3. -/
def blake3ChunkLen : ℕ := 1024

/-- `chunk_hash`. -/
def chunkHash (data : Bytes) (chunkIndex chunkSize : ℕ) (isOnlyChunk : Bool) : Bytes :=
  if !usesBlake3 chunkSize then H.sha256 data
  else if isOnlyChunk then H.blake3 data
  else H.blake3ChainingValue data (chunkIndex * (chunkSize / blake3ChunkLen))

/-- `hash_level`. -/
def hashLevel (level : List ChunkHashList) : List Bytes :=
  level.map fun l => H.sha256 l.toCbor.toBytes

/-- `merge_blobs`. -/
def mergeBlobs (level : List ChunkHashList) : List Bytes :=
  level.map fun blob => H.blake3MergeSubtree blob.hashes

/-- `list_root`. -/
def listRoot (level : List ChunkHashList) : RootHash :=
  ⟨H.sha256 (CborObject.list (level.map ChunkHashList.toCbor)).toBytes⟩

/-- `HashTree::build_blake3`. -/
def buildBlake3 (chunkCvs : List Bytes) : Result HashTree :=
  let level1 := buildLevel chunkCvs
  if chunkCvs.length = 1 then .ok ⟨⟨chunkCvs.headD []⟩, level1, [], []⟩
  else if level1.length = 1 then .ok ⟨⟨H.blake3MergeAsRoot chunkCvs⟩, level1, [], []⟩
  else
    let level2Cvs := H.mergeBlobs level1
    let level2 := buildLevel level2Cvs
    if level2.length = 1 then .ok ⟨⟨H.blake3MergeAsRoot level2Cvs⟩, level1, level2, []⟩
    else
      let level3Cvs := H.mergeBlobs level2
      let level3 := buildLevel level3Cvs
      if level3.length = 1 then .ok ⟨⟨H.blake3MergeAsRoot level3Cvs⟩, level1, level2, level3⟩
      else protocolErr "Files bigger than 4 EiB are not supported in HashTree!"

/-- `HashTree::build`. -/
def buildTree (chunkHashes : List Bytes) (chunkSize : ℕ) : Result HashTree :=
  if chunkHashes = [] then protocolErr "A file cannot have no chunk hashes"
  else if usesBlake3 chunkSize then H.buildBlake3 chunkHashes
  else
    let level1 := buildLevel chunkHashes
    if level1.length = 1 then .ok ⟨H.listRoot level1, level1, [], []⟩
    else
      let level2 := buildLevel (H.hashLevel level1)
      if level2.length = 1 then .ok ⟨H.listRoot level2, level1, level2, []⟩
      else
        let level3 := buildLevel (H.hashLevel level2)
        if level3.length = 1 then .ok ⟨H.listRoot level3, level1, level2, level3⟩
        else protocolErr "Files bigger than 5 PiB are not supported"

end ContentHasher

/-- `HashTree::branch`. -/
def HashTree.branch (t : HashTree) (chunkIndex : ℕ) : HashBranch :=
  ⟨t.rootHash, t.level1[chunkIndex / 1024]?, t.level2[chunkIndex / 1024 / 1024]?,
    t.level3[chunkIndex / 1024 / 1024 / 1024]?⟩

end Peergos
