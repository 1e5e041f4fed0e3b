import PeergosClient.Fs.Directory
import PeergosClient.Lib.Chunks

/-!
# Files

A file is a chain of chunks, each a node of its own with at most the file's chunk size of data.
The properties of the first chunk have the size, the chunk size and the stream secret the map keys
of the others are derived with.  Files are uploaded, read, written to in place, cut short and
rewritten chunk by chunk.

Times and random values are arguments.  `mimeType` is `calculate_mime_type`.
-/

namespace Peergos

open Chunks

/-- `chunk_count`. -/
def chunkCount (size chunkSize : ℕ) : ℕ := max ((size + chunkSize - 1) / chunkSize) 1

/-- `read_exact` on a reader over the remaining bytes. -/
def readExact (reader : Bytes) (n : ℕ) : Result (Bytes × Bytes) :=
  if n ≤ reader.length then .ok (reader.take n, reader.drop n)
  else protocolErr "read error: failed to fill whole buffer"

/-- The node of a file chunk. -/
def fileChunk (bat : Option Bat) (mirrorBat : Option BatId) (rBaseKey dataKey : SymmetricKey)
    (signer : Option (CipherText SigningPrivateKeyAndPublicHash)) (next : Bytes × Option Bat)
    (toParent : RelativeCapability) (props : FileProperties) (data : Bytes) :
    Result CryptreeBlock := do
  let bats ← nodeBatsOpt bat mirrorBat
  pure ⟨bats, .build rBaseKey ⟨dataKey, signer, .subsequentChunk next.1 next.2 rBaseKey⟩,
    .build rBaseKey ⟨some toParent, props⟩, .build dataKey (.data data)⟩

/-- The keys and the location of a file. -/
structure FileKeys where
  mapKey : Bytes
  bat : Option Bat
  rBaseKey : SymmetricKey
  dataKey : SymmetricKey
  streamSecret : Bytes
  deriving DecidableEq, Repr

section Ops

variable (H : ContentHasher)

/-! ## Reading -/

/-- The loop of `read_file_to`: what it hands to the sink from `node` on. -/
def readChunks (t : Tree) (rBaseKey : SymmetricKey) (props : FileProperties) :
    ℕ → CryptreeNode → Bytes → Option Bat → ℕ → Result Bytes
  | 0, _, _, _, _ => .error .fuel
  | fuel + 1, node, mapKey, bat, written => do
      let dataKey ← node.getDataKey rBaseKey
      let chunk ← getAndDecryptBytes node.childrenOrData dataKey
      let taken := chunk.take (min chunk.length (props.size - written))
      let written := written + taken.length
      if props.size ≤ written then pure taken
      else
        match props.streamSecret with
        | none => protocolErr "multi-chunk file without a stream secret"
        | some streamSecret => do
            let (mapKey, bat) ← calculateNextMapKey H streamSecret mapKey bat
            match fetchChunkNode t rBaseKey mapKey with
            | some node => do
                let rest ← readChunks t rBaseKey props fuel node mapKey bat written
                pure (taken ++ rest)
            | none => pure taken

/-- `read_file`. -/
def readFile (fuel : ℕ) (net : Network) (cap : AbsoluteCapability) :
    Result (FileProperties × Bytes) := do
  let t ← openWriterRoot net cap.writer
  match fetchChunkNode t cap.rBaseKey cap.mapKey with
  | none => protocolErr "map key not found in tree"
  | some first =>
      if first.isDirectory then protocolErr "capability points to a directory, not a file"
      else do
        let props ← first.getProperties cap.rBaseKey
        let data ← readChunks H t cap.rBaseKey props fuel first cap.mapKey cap.bat 0
        pure (props, data)

/-! ## Rewriting -/

/-- The hash tree of a content. -/
def contentTree (chunkSize : ℕ) (content : Bytes) : Result HashTree :=
  let n := chunkCount content.length chunkSize
  H.buildTree ((List.range n).map fun i =>
    H.chunkHash (chunkAt chunkSize i content) i chunkSize (n = 1)) chunkSize

/-- The properties of chunk `i` of a file with a fresh hash tree. -/
def chunkProps (name mime : String) (size : ℕ) (created : ℤ) (streamSecret : Bytes)
    (thumbnail : Option (String × Bytes)) (chunkSize : ℕ) (hidden : Bool) (tree : HashTree)
    (i : ℕ) : FileProperties :=
  { FileProperties.newFile name mime size created streamSecret
      (if i = 0 then thumbnail else none) with
    isHidden := hidden
    chunkSize := chunkSize
    treeHash := if i % 1024 = 0 then some (tree.branch i) else none }

/-- The loop of `write_file_chunks`, from chunk `i` on. -/
def writeFileChunksLoop (keys : FileKeys) (chunkSize : ℕ) (toParent : RelativeCapability)
    (writerLink : Option (CipherText SigningPrivateKeyAndPublicHash)) (name mime : String)
    (created : ℤ) (thumbnail : Option (String × Bytes)) (mirrorBat : Option BatId)
    (content : Bytes) (tree : HashTree) :
    ℕ → ℕ → Bytes → Option Bat → Result (List (Bytes × CryptreeBlock))
  | 0, _, _, _ => pure []
  | remaining + 1, i, mapKey, bat => do
      let next ← calculateNextMapKey H keys.streamSecret mapKey bat
      let block ← fileChunk bat mirrorBat keys.rBaseKey keys.dataKey
        (if i = 0 then writerLink else none) next toParent
        (chunkProps name mime content.length created keys.streamSecret thumbnail chunkSize false
          tree i) (chunkAt chunkSize i content)
      let rest ← writeFileChunksLoop keys chunkSize toParent writerLink name mime created thumbnail
        mirrorBat content tree remaining (i + 1) next.1 next.2
      pure ((mapKey, block) :: rest)

/-- `write_file_chunks`. -/
def writeFileChunks (keys : FileKeys) (chunkSize : ℕ) (toParent : RelativeCapability)
    (writerLink : Option (CipherText SigningPrivateKeyAndPublicHash)) (name mime : String)
    (created : ℤ) (thumbnail : Option (String × Bytes)) (mirrorBat : Option BatId)
    (content : Bytes) : Result (List (Bytes × CryptreeBlock)) := do
  let tree ← contentTree H chunkSize content
  writeFileChunksLoop H keys chunkSize toParent writerLink name mime created thumbnail mirrorBat
    content tree (chunkCount content.length chunkSize) 0 keys.mapKey keys.bat

/-- The removals of `rewrite_file_content`: the chunks from `newN` on. -/
def dropTrailing (streamSecret : Bytes) (newN : ℕ) :
    ℕ → ℕ → Bytes → Option Bat → Tree → Result Tree
  | 0, _, _, _, t => pure t
  | remaining + 1, i, mapKey, bat, t => do
      let t := if newN ≤ i then t.removeEntry mapKey else t
      let (mapKey, bat) ← calculateNextMapKey H streamSecret mapKey bat
      dropTrailing streamSecret newN remaining (i + 1) mapKey bat t

/-- `rewrite_file_content`. -/
def rewriteFileContent (cap : AbsoluteCapability) (newContent : Bytes)
    (signer : SigningPrivateKeyAndPublicHash) (mirrorBat : Option BatId) :
    Exec Network Fault Unit := do
  let t ← Exec.query fun net => openWriterRoot net cap.writer
  match fetchChunkNode t cap.rBaseKey cap.mapKey with
  | none => Exec.fail (.err (.protocol "map key not found in tree"))
  | some node => do
      let oldProps ← Exec.lift (node.getProperties cap.rBaseKey)
      if node.isDirectory then Exec.fail (.err (.protocol "cannot rewrite a directory"))
      else do
        let base ← Exec.lift (node.baseBlock cap.rBaseKey)
        let dataKey ← Exec.lift (node.getDataKey cap.rBaseKey)
        let parentLink ← Exec.lift (node.parentLink cap.rBaseKey)
        match parentLink, oldProps.streamSecret with
        | none, _ => Exec.fail (.err (.protocol "file has no parent link"))
        | _, none => Exec.fail (.err (.protocol "file without a stream secret"))
        | some toParent, some streamSecret => do
            let oldN := chunkCount oldProps.size oldProps.chunkSize
            let keys : FileKeys := ⟨cap.mapKey, cap.bat, cap.rBaseKey, dataKey, streamSecret⟩
            let newChunks ← Exec.lift (writeFileChunks H keys oldProps.chunkSize toParent
              base.signer oldProps.name oldProps.mimeType oldProps.createdEpoch oldProps.thumbnail
              mirrorBat newContent)
            let t ← Exec.lift (newChunks.foldlM (fun t e => t.put e.1 (t e.1) e.2) t)
            let t ← Exec.lift (dropTrailing H streamSecret newChunks.length oldN 0 cap.mapKey
              cap.bat t)
            commitTree cap.writer signer t "file rewrite pointer rejected (concurrent modification?)"

/-! ## Writing in place -/

/-- `resized_props`. -/
def resizedProps (props : FileProperties) (newSize : ℕ) (now : ℤ) : FileProperties :=
  { props with size := newSize, treeHash := none, modifiedEpoch := now }

/-- `open_file_for_write`. -/
def openFileForWrite (net : Network) (cap : AbsoluteCapability) :
    Result (Tree × CryptreeNode × FileProperties) := do
  let t ← openWriterRoot net cap.writer
  match fetchChunkNode t cap.rBaseKey cap.mapKey with
  | none => protocolErr "map key not found in tree"
  | some first =>
      if first.isDirectory then protocolErr "cannot write to a directory"
      else do
        let props ← first.getProperties cap.rBaseKey
        pure (t, first, props)

/-- The node of chunk `index`: the first one is at hand. -/
def chunkNode (t : Tree) (cap : AbsoluteCapability) (first : CryptreeNode) (index : ℕ)
    (mapKey : Bytes) : Result CryptreeNode :=
  if index = 0 then .ok first
  else
    match fetchChunkNode t cap.rBaseKey mapKey with
    | some node => .ok node
    | none => protocolErr "chunk not found"

/-- `reupload_nodes`. -/
def reuploadNodes (cap : AbsoluteCapability) (updates : List (Bytes × CryptreeNode))
    (removals : List Bytes) (signer : SigningPrivateKeyAndPublicHash) :
    Exec Network Fault Unit := do
  let t ← Exec.query fun net => openWriterRoot net cap.writer
  let t ← Exec.lift (updates.foldlM (fun t e => t.put e.1 (t e.1) e.2.toCbor) t)
  commitTree cap.writer signer (removals.foldl Tree.removeEntry t)
    "section overwrite pointer rejected (concurrent modification?)"

/-- What a section write works from: the file as it was opened, and the range. -/
structure SectionWrite where
  t : Tree
  cap : AbsoluteCapability
  first : CryptreeNode
  props : FileProperties
  dataKey : SymmetricKey
  streamSecret : Bytes
  offset : ℕ
  data : Bytes
  mirrorBat : Option BatId
  now : ℤ

namespace SectionWrite

variable (w : SectionWrite)

/-- `new_size`. -/
def newSize : ℕ := max w.props.size (w.offset + w.data.length)

/-- `first_props`. -/
def firstProps : Option FileProperties :=
  if w.newSize ≠ w.props.size then some (resizedProps w.props w.newSize w.now) else none

/-- A chunk that exists: its data is patched, and the first chunk gets the new size. -/
def existingChunk (index : ℕ) (mapKey : Bytes) : Result CryptreeNode := do
  let node ← chunkNode w.t w.cap w.first index mapKey
  let bytes ← getAndDecryptBytes node.childrenOrData w.dataKey
  let bytes := patch 0 bytes (index * w.props.chunkSize) w.props.chunkSize w.offset w.data
  let node ← node.overwriteChunkData w.cap.rBaseKey (.build w.dataKey (.data bytes)) w.now
  match w.firstProps, index with
  | some p, 0 => node.updateProperties w.cap.rBaseKey p
  | _, _ => pure node

/-- A chunk past the old end, laid out as an upload lays out every chunk after the first. -/
def newChunk (index : ℕ) (bat : Option Bat) (next : Bytes × Option Bat) :
    Result CryptreeNode := do
  let parentLink ← w.first.parentLink w.cap.rBaseKey
  match parentLink with
  | none => protocolErr "file has no parent link"
  | some toParent => do
      let bytes := patch 0 [] (index * w.props.chunkSize) w.props.chunkSize w.offset w.data
      let block ← fileChunk bat w.mirrorBat w.cap.rBaseKey w.dataKey none next toParent
        { w.firstProps.getD w.props with thumbnail := none } bytes
      pure { block with isDirectory := false }

/-- The new node of chunk `index`. -/
def chunk (index : ℕ) (mapKey : Bytes) (bat : Option Bat) (next : Bytes × Option Bat) :
    Result CryptreeNode :=
  if index < chunkCount w.props.size w.props.chunkSize then w.existingChunk index mapKey
  else w.newChunk index bat next

/-- The loop over the chunks the range overlaps. -/
def loop : ℕ → ℕ → Bytes → Option Bat → Result (List (Bytes × CryptreeNode))
  | 0, _, _, _ => pure []
  | remaining + 1, index, mapKey, bat => do
      let next ← calculateNextMapKey H w.streamSecret mapKey bat
      let node ← w.chunk index mapKey bat next
      let rest ← loop remaining (index + 1) next.1 next.2
      pure ((mapKey, node) :: rest)

/-- All nodes to be written. -/
def updates : Result (List (Bytes × CryptreeNode)) := do
  let startChunk := w.offset / w.props.chunkSize
  let endChunk := (w.offset + w.data.length - 1) / w.props.chunkSize
  let (mapKey, bat) ← advanceMapKey H w.streamSecret w.cap.mapKey w.cap.bat startChunk
  let written ← w.loop H (endChunk + 1 - startChunk) startChunk mapKey bat
  match w.firstProps with
  | some p =>
      if 0 < startChunk then do
        let first ← w.first.updateProperties w.cap.rBaseKey p
        pure (written ++ [(w.cap.mapKey, first)])
      else pure written
  | none => pure written

end SectionWrite

/-- `write_file_section`. -/
def writeFileSection (cap : AbsoluteCapability) (offset : ℕ) (data : Bytes)
    (signer : SigningPrivateKeyAndPublicHash) (mirrorBat : Option BatId) (now : ℤ) :
    Exec Network Fault (List Bytes) :=
  if data = [] then pure []
  else do
    let (t, first, props) ← Exec.query fun net => openFileForWrite net cap
    if props.size < offset then
      Exec.fail (.err (.protocol
        s!"cannot write at {offset}, past the end of a {props.size} byte file"))
    else
      match props.streamSecret with
      | none => Exec.fail (.err (.protocol "file without a stream secret"))
      | some streamSecret => do
          let dataKey ← Exec.lift (first.getDataKey cap.rBaseKey)
          let updates ← Exec.lift (SectionWrite.updates H
            ⟨t, cap, first, props, dataKey, streamSecret, offset, data, mirrorBat, now⟩)
          reuploadNodes cap updates [] signer
          pure (updates.map Prod.fst)

/-- The map keys of the chunks `truncate_file` removes. -/
def keysFrom (streamSecret : Bytes) : ℕ → Bytes → Option Bat → Result (List Bytes)
  | 0, _, _ => pure []
  | remaining + 1, mapKey, bat => do
      let next ← calculateNextMapKey H streamSecret mapKey bat
      let rest ← keysFrom streamSecret remaining next.1 next.2
      pure (mapKey :: rest)

/-- The nodes `truncate_file` writes, and the keys it removes. -/
def truncation (t : Tree) (cap : AbsoluteCapability) (first : CryptreeNode)
    (props : FileProperties) (streamSecret : Bytes) (newSize : ℕ) (now : ℤ) :
    Result (List (Bytes × CryptreeNode) × List Bytes) := do
  let oldN := chunkCount props.size props.chunkSize
  let keep := chunkCount newSize props.chunkSize
  let last := keep - 1
  let dataKey ← first.getDataKey cap.rBaseKey
  let firstProps := resizedProps props newSize now
  let (lastKey, lastBat) ← advanceMapKey H streamSecret cap.mapKey cap.bat last
  let lastNode ← chunkNode t cap first last lastKey
  let bytes ← getAndDecryptBytes lastNode.childrenOrData dataKey
  let bytes := bytes.take (newSize - last * props.chunkSize)
  let lastNew ← lastNode.overwriteChunkData cap.rBaseKey (.build dataKey (.data bytes)) now
  let next ← calculateNextMapKey H streamSecret lastKey lastBat
  let removed ← keysFrom H streamSecret (oldN - keep) next.1 next.2
  if last = 0 then do
    let lastNew ← lastNew.updateProperties cap.rBaseKey firstProps
    pure ([(lastKey, lastNew)], removed)
  else do
    let first ← first.updateProperties cap.rBaseKey firstProps
    pure ([(cap.mapKey, first), (lastKey, lastNew)], removed)

/-- `truncate_file`. -/
def truncateFile (cap : AbsoluteCapability) (newSize : ℕ)
    (signer : SigningPrivateKeyAndPublicHash) (now : ℤ) : Exec Network Fault (List Bytes) := do
  let (t, first, props) ← Exec.query fun net => openFileForWrite net cap
  if props.size ≤ newSize then pure []
  else
    match props.streamSecret with
    | none => Exec.fail (.err (.protocol "file without a stream secret"))
    | some streamSecret => do
        let (updates, removed) ← Exec.lift (truncation H t cap first props streamSecret newSize now)
        reuploadNodes cap updates removed signer
        pure (updates.map Prod.fst ++ removed)

end Ops

end Peergos
