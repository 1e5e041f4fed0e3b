import PeergosClient.Fs.Tree

/-!
# Directories

The children of a directory are listed in a chain of chunks in the directory's writing space, each
with up to a fixed number of links and the location of the next one.  A change to a directory runs
in a context opened on the writer's champ: the nodes of new children are put into it, the links are
added to the chunks, and the whole is committed by one pointer update.

The chain has no bound of its own; walking it takes as much fuel as it has chunks.  Random
locations for new chunks are drawn from `fresh`.
-/

namespace Peergos

/-- `node_bats_opt`. -/
def nodeBatsOpt (bat : Option Bat) (mirrorBat : Option BatId) : Result (List BatId) :=
  match bat with
  | some b => do
      let id ← BatId.inline b
      pure (id :: mirrorBat.toList)
  | none => pure mirrorBat.toList

/-- `FileProperties::empty_subsequent_chunk`. -/
def FileProperties.emptySubsequentChunk : FileProperties :=
  ⟨".subsequent-dir-chunk", true, false, "", 0, false, 0, 0, none, none, none, legacyChunkSize⟩

/-- `DirWriteContext`. -/
structure DirWriteContext where
  champ : Tree
  signer : SigningPrivateKeyAndPublicHash
  dirNode : CryptreeNode
  dirParentKey : SymmetricKey
  mirrorBat : Option BatId

/-- `CryptreeNode::get_signer`. -/
def CryptreeNode.getSigner (n : CryptreeNode) (rBaseKey wBaseKey : SymmetricKey) :
    Result SigningPrivateKeyAndPublicHash := do
  let base ← n.baseBlock rBaseKey
  match base.signer with
  | some link => link.decrypt wBaseKey
  | none => protocolErr "No link to private signing key on this node"

/-- The signer of a directory write: the directory's own, else the one of its entry point. -/
def dirSigner (dirCap : AbsoluteCapability) (dirNode : CryptreeNode)
    (entrySigner : Option SigningPrivateKeyAndPublicHash) :
    Result SigningPrivateKeyAndPublicHash :=
  let own := dirCap.wBaseKey.bind fun wb => (dirNode.getSigner dirCap.rBaseKey wb).toOption
  match own.or entrySigner with
  | some signer => .ok signer
  | none => protocolErr "no writer available; supply the entry-point signer"

/-- `begin_dir_write`. -/
def beginDirWrite (net : Network) (dirCap : AbsoluteCapability)
    (entrySigner : Option SigningPrivateKeyAndPublicHash) (mirrorBat : Option BatId) :
    Result DirWriteContext := do
  let champ ← openWriterRoot net dirCap.writer
  match fetchChunkNode champ dirCap.rBaseKey dirCap.mapKey with
  | none => protocolErr "directory not found in tree"
  | some dirNode =>
      if !dirNode.isDirectory then protocolErr "capability is not a directory"
      else do
        let signer ← dirSigner dirCap dirNode entrySigner
        let base ← dirNode.baseBlock dirCap.rBaseKey
        pure ⟨champ, signer, dirNode, base.parentOrData, mirrorBat⟩

/-- `put_child_chunk`. -/
def putChildChunk (ctx : DirWriteContext) (mapKey : Bytes) (block : CryptreeBlock) :
    Result DirWriteContext := do
  let champ ← ctx.champ.put mapKey none block
  pure { ctx with champ := champ }

/-- `DirChunk`. -/
structure DirChunk where
  mapKey : Bytes
  node : CryptreeNode
  children : List NamedRelativeCapability
  champValue : Option CryptreeBlock
  nextMapKey : Bytes
  nextBat : Option Bat
  modified : Bool

/-- `get_and_decrypt` of a directory chunk. -/
def decryptChildren (c : CipherText ChildrenOrData) (rBaseKey : SymmetricKey) :
    Result (List NamedRelativeCapability) := do
  match ← c.decrypt rBaseKey with
  | .named links => pure links
  | .legacy _ => protocolErr "legacy directory format not supported for writes"
  | .data _ => cborErr "Incorrect cbor for ChildrenLinks"

/-- Walk the chunk chain from a node, collecting each chunk's direct children. -/
def collectDirChunks (champ : Tree) (rBaseKey : SymmetricKey) :
    ℕ → Bytes → CryptreeNode → Result (List DirChunk)
  | 0, _, _ => .error .fuel
  | fuel + 1, mapKey, node => do
      let children ← decryptChildren node.childrenOrData rBaseKey
      let base ← node.baseBlock rBaseKey
      let chunk : DirChunk := ⟨mapKey, node, children, champ mapKey, base.nextChunk.mapKey,
        base.nextChunk.bat, false⟩
      match (fetchChunkNode champ rBaseKey base.nextChunk.mapKey).filter (·.isDirectory) with
      | some next => do
          let rest ← collectDirChunks champ rBaseKey fuel base.nextChunk.mapKey next
          pure (chunk :: rest)
      | none => pure [chunk]

/-- Drop the children whose names are being added. -/
def DirChunk.dedup (newNames : List String) (chunk : DirChunk) : DirChunk :=
  let kept := chunk.children.filter fun c => c.name ∉ newNames
  { chunk with
    children := kept
    modified := chunk.modified || decide (kept.length ≠ chunk.children.length) }

/-- A fresh chunk at the end of the chain, with the location of the one after it. -/
def overflowChunk (dirCap : AbsoluteCapability) (parentKey : SymmetricKey)
    (parentLink : Option RelativeCapability) (mirrorBat : Option BatId) (last : DirChunk)
    (fresh : Bytes × Bat) (link : NamedRelativeCapability) : Result DirChunk := do
  let bats ← nodeBatsOpt last.nextBat mirrorBat
  let node : CryptreeNode := {
    bats := bats
    fromBaseKey := .build dirCap.rBaseKey
      ⟨parentKey, none, .subsequentChunk fresh.1 (some fresh.2) dirCap.rBaseKey⟩
    fromParentKey := .build parentKey ⟨parentLink, .emptySubsequentChunk⟩
    childrenOrData := .build dirCap.rBaseKey (.named [])
    isDirectory := true }
  pure ⟨last.nextMapKey, node, [link], none, fresh.1, some fresh.2, true⟩

/-- Add one link to the first chunk with room. -/
def addToFirst (maxLinks : ℕ) (link : NamedRelativeCapability) :
    List DirChunk → Option (List DirChunk)
  | [] => none
  | chunk :: rest =>
      if chunk.children.length < maxLinks then
        some ({ chunk with children := chunk.children ++ [link], modified := true } :: rest)
      else (addToFirst maxLinks link rest).map (chunk :: ·)

/-- Add each link to a chunk with room, overflowing into fresh chunks. -/
def addLinks (dirCap : AbsoluteCapability) (parentKey : SymmetricKey)
    (parentLink : Option RelativeCapability) (mirrorBat : Option BatId) (maxLinks : ℕ) :
    List (Bytes × Bat) → List DirChunk → List NamedRelativeCapability → Result (List DirChunk)
  | _, chunks, [] => pure chunks
  | fresh, chunks, link :: links =>
      match addToFirst maxLinks link chunks with
      | some chunks => addLinks dirCap parentKey parentLink mirrorBat maxLinks fresh chunks links
      | none =>
          match fresh, chunks.getLast? with
          | f :: fresh, some last => do
              let chunk ← overflowChunk dirCap parentKey parentLink mirrorBat last f link
              addLinks dirCap parentKey parentLink mirrorBat maxLinks fresh (chunks ++ [chunk])
                links
          | _, _ => .error .panic

/-- Commit one chunk: an existing one by compare-and-swap, a new one by insertion. -/
def commitChunk (rBaseKey : SymmetricKey) (champ : Tree) (chunk : DirChunk) : Result Tree :=
  if chunk.modified then
    champ.put chunk.mapKey chunk.champValue
      { chunk.node.toCbor with childrenOrData := .build rBaseKey (.named chunk.children) }
  else pure champ

/-- The champ `finish_dir_write_multi` commits. -/
def linkedChamp (fuel maxLinks : ℕ) (fresh : List (Bytes × Bat)) (ctx : DirWriteContext)
    (dirCap : AbsoluteCapability) (childLinks : List NamedRelativeCapability) : Result Tree := do
  let chunks ← collectDirChunks ctx.champ dirCap.rBaseKey fuel dirCap.mapKey ctx.dirNode
  let base ← ctx.dirNode.baseBlock dirCap.rBaseKey
  let parentLink ← ctx.dirNode.parentLink dirCap.rBaseKey
  let chunks := chunks.map (DirChunk.dedup (childLinks.map (·.name)))
  let chunks ← addLinks dirCap base.parentOrData parentLink ctx.mirrorBat maxLinks fresh chunks
    childLinks
  chunks.foldlM (commitChunk dirCap.rBaseKey) ctx.champ

/-- `finish_dir_write_multi`. -/
def finishDirWriteMulti (fuel maxLinks : ℕ) (fresh : List (Bytes × Bat)) (ctx : DirWriteContext)
    (dirCap : AbsoluteCapability) (childLinks : List NamedRelativeCapability) :
    Exec Network Fault Unit := do
  let champ ← Exec.lift (linkedChamp fuel maxLinks fresh ctx dirCap childLinks)
  commitTree dirCap.writer ctx.signer champ "setPointer rejected (concurrent modification?)"

end Peergos
