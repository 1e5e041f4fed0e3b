import PeergosClient.Fs.File

/-!
# The children of a directory

A directory is listed by walking its chunks from the first one.  A child is deleted with all its
nodes and all the writing spaces that lie below it, renamed in the link and in its own properties,
or unlinked with its nodes left in place.

A writer owns further writers: their keys are in a champ of its own, beside the one with the nodes.
-/

namespace Peergos

/-! ## Listing -/

/-- `RelativeCapability::to_absolute`. -/
def RelativeCapability.toAbsolute (c : RelativeCapability) (source : AbsoluteCapability) :
    Result AbsoluteCapability := do
  let wBaseKey ← match source.wBaseKey, c.wBaseKeyLink with
    | some sourceKey, some link => (link.decrypt sourceKey).map some
    | _, _ => pure none
  AbsoluteCapability.new source.owner (c.writer.getD source.writer) c.mapKey c.bat c.rBaseKey wBaseKey

/-- `DirEntry`. -/
structure DirEntry where
  name : String
  isDir : Option Bool
  mimeType : Option String
  cap : AbsoluteCapability
  deriving DecidableEq, Repr

/-- The entry of a link, resolved against the directory. -/
def NamedRelativeCapability.toEntry (cap : AbsoluteCapability) (link : NamedRelativeCapability) :
    Result DirEntry := do
  let target ← link.cap.toAbsolute cap
  pure ⟨link.name, link.isDir, link.mimeType, target⟩

/-- The entry of a legacy link: it has no name. -/
def RelativeCapability.toEntry (cap : AbsoluteCapability) (link : RelativeCapability) :
    Result DirEntry := do
  let target ← link.toAbsolute cap
  pure ⟨"", none, none, target⟩

/-- The entries of one chunk. -/
def chunkEntries (cap : AbsoluteCapability) (node : CryptreeNode) : Result (List DirEntry) := do
  match ← node.childrenOrData.decrypt cap.rBaseKey with
  | .named links => links.mapM (·.toEntry cap)
  | .legacy links => links.mapM (·.toEntry cap)
  | .data _ => cborErr "Incorrect cbor for ChildrenLinks"

/-- The loop of `list_directory`, with the locations it has been to. -/
def listChunks (root : Tree) (cap : AbsoluteCapability) :
    ℕ → List Bytes → CryptreeNode → Result (List DirEntry)
  | 0, _, _ => .error .fuel
  | fuel + 1, seen, node => do
      let entries ← chunkEntries cap node
      let base ← node.baseBlock cap.rBaseKey
      let next := base.nextChunk.mapKey
      if next ∈ seen then pure entries
      else
        match (fetchChunkNode root cap.rBaseKey next).filter (·.isDirectory) with
        | some node => do
            let rest ← listChunks root cap fuel (next :: seen) node
            pure (entries ++ rest)
        | none => pure entries

/-- `list_directory`. -/
def listDirectory (fuel : ℕ) (net : Network) (cap : AbsoluteCapability) :
    Result (List DirEntry) := do
  let root ← openWriterRoot net cap.writer
  match fetchChunkNode root cap.rBaseKey cap.mapKey with
  | none => protocolErr "map key not found in tree"
  | some node =>
      if !node.isDirectory then protocolErr "capability points to a file, not a directory"
      else listChunks root cap fuel [cap.mapKey] node

/-- `retrieve_file_metadata`. -/
def retrieveFileMetadata (net : Network) (cap : AbsoluteCapability) :
    Result (CryptreeNode × FileProperties) := do
  let root ← openWriterRoot net cap.writer
  match fetchChunkNode root cap.rBaseKey cap.mapKey with
  | none => protocolErr "map key not found in tree"
  | some node => do
      let props ← node.getProperties cap.rBaseKey
      pure (node, props)

/-! ## Writers and the writers they own -/

/-- What a writer's pointer leads to: the champ of its nodes and, if there is one, that of the keys
it owns. -/
structure WriterSpace where
  tree : Tree
  owned : Option (PublicKeyHash → Bool)

/-- The writing spaces. -/
abbrev Spaces := PublicKeyHash → Option WriterSpace

/-- The champs of nodes. -/
def Spaces.network (s : Spaces) : Network := fun w => (s w).map (·.tree)

/-- `writer_data_with_tree` for each writer: the other fields stay. -/
def Spaces.withNetwork (net : Network) (s : Spaces) : Spaces := fun w =>
  (net w).map fun t => ⟨t, (s w).bind (·.owned)⟩

/-- A change to the champs of nodes. -/
def onTrees {α : Type} (x : Exec Network Fault α) : Exec Spaces Fault α :=
  Exec.zoom Spaces.network Spaces.withNetwork x

/-- `recover_signer`. -/
def recoverSigner (net : Network) (entryCap : AbsoluteCapability) :
    Result SigningPrivateKeyAndPublicHash :=
  match entryCap.wBaseKey with
  | none => protocolErr "entry capability is not writable"
  | some wBaseKey => do
      let (node, _) ← retrieveFileMetadata net entryCap
      node.getSigner entryCap.rBaseKey wBaseKey

/-- `parent_writer_signer`. -/
def parentWriterSigner (net : Network) (parentCap : AbsoluteCapability)
    (entrySigner : Option SigningPrivateKeyAndPublicHash) :
    Result SigningPrivateKeyAndPublicHash :=
  match recoverSigner net parentCap, entrySigner with
  | .ok signer, _ => .ok signer
  | .error _, some signer => .ok signer
  | .error _, none => protocolErr "no writer available; supply the entry-point signer"

/-- `delete_writer_subspace`: the pointer is set to nothing. -/
def deleteWriterSubspace (writer : SigningPrivateKeyAndPublicHash) : Exec Spaces Fault Unit :=
  Exec.update fun s => Function.update s writer.publicKeyHash none

/-- `deauthorize_writer`. -/
def deauthorizeWriter (parentCap : AbsoluteCapability) (writerToRemove : PublicKeyHash)
    (entrySigner : Option SigningPrivateKeyAndPublicHash) : Exec Spaces Fault Unit := do
  let parentWriter ← Exec.query fun s => parentWriterSigner s.network parentCap entrySigner
  match ← Exec.reads fun s : Spaces => s parentWriter.publicKeyHash with
  | none => Exec.fail (.err (.protocol "parent writer has no data"))
  | some space =>
      match space.owned with
      | none => Exec.fail (.err (.protocol "parent writer has no owned champ"))
      | some owned =>
          if owned writerToRemove then
            Exec.update fun s => Function.update s parentWriter.publicKeyHash
              (some { space with owned := some (Function.update owned writerToRemove false) })
          else pure ()

/-- `collect_own_writer_targets`: the writing spaces below `cap`, the outer ones first, and the
writers among them that are owned by the writer of the directory itself. -/
def collectOwnWriterTargets (net : Network) :
    ℕ → AbsoluteCapability → Bool → Result (List AbsoluteCapability × List PublicKeyHash)
  | 0, _, _ => .error .fuel
  | fuel + 1, cap, ownedByParent => do
      let (_, props) ← retrieveFileMetadata net cap
      if props.isLink then
        match ← listDirectory fuel net cap with
        | [] => protocolErr "link node has no target"
        | target :: _ => do
            let below ← collectOwnWriterTargets net fuel target.cap false
            pure (target.cap :: below.1,
              (if ownedByParent then [target.cap.writer] else []) ++ below.2)
      else if props.isDirectory then do
        let entries ← listDirectory fuel net cap
        entries.foldlM (fun acc e => do
          let below ← collectOwnWriterTargets net fuel e.cap ownedByParent
          pure (acc.1 ++ below.1, acc.2 ++ below.2)) ([], [])
      else pure ([], [])

/-! ## Removing the nodes of a child -/

/-- `ChunkLoc`. -/
structure ChunkLoc where
  mapKey : Bytes
  bat : Option Bat
  rBaseKey : SymmetricKey
  deriving DecidableEq, Repr

/-- The location a link leads to. -/
def RelativeCapability.loc (c : RelativeCapability) : ChunkLoc := ⟨c.mapKey, c.bat, c.rBaseKey⟩

section Removal

variable (H : ContentHasher)

/-- The chunks of a file are removed one after the other. -/
def removeFileChunks (streamSecret : Bytes) : ℕ → Tree → Bytes → Option Bat → Result Tree
  | 0, t, _, _ => pure t
  | 1, t, mapKey, _ => pure (t.removeEntry mapKey)
  | n + 2, t, mapKey, bat => do
      let next ← calculateNextMapKey H streamSecret mapKey bat
      removeFileChunks streamSecret (n + 1) (t.removeEntry mapKey) next.1 next.2

/-- The children a chunk of a directory links to. -/
def removeLinked (removeChild : Tree → ChunkLoc → Result Tree) (t : Tree) :
    ChildrenOrData → Result Tree
  | .named children => children.foldlM (fun t child => removeChild t child.cap.loc) t
  | .legacy _ => pure t
  | .data _ => cborErr "Incorrect cbor for ChildrenLinks"

/-- The chunks of a directory are removed one after the other, each after its children. -/
def removeDirChunks (removeChild : Tree → ChunkLoc → Result Tree) (rBaseKey : SymmetricKey) :
    ℕ → Tree → Bytes → CryptreeNode → Result Tree
  | 0, _, _, _ => .error .fuel
  | fuel + 1, t, mapKey, node => do
      let decoded ← node.childrenOrData.decrypt rBaseKey
      let t ← removeLinked removeChild t decoded
      let base ← node.baseBlock rBaseKey
      let next := base.nextChunk.mapKey
      let rest := (fetchChunkNode t rBaseKey next).filter (·.isDirectory)
      let t := t.removeEntry mapKey
      match rest with
      | some node => removeDirChunks removeChild rBaseKey fuel t next node
      | none => pure t

/-- `remove_all_chunks`. -/
def removeAllChunks (dirCap : AbsoluteCapability) : ℕ → Tree → ChunkLoc → Result Tree
  | 0, _, _ => .error .fuel
  | fuel + 1, t, loc => do
      let _ ← AbsoluteCapability.new dirCap.owner dirCap.writer loc.mapKey loc.bat loc.rBaseKey none
      match fetchChunkNode t loc.rBaseKey loc.mapKey with
      | none => pure t
      | some node => do
          let props ← node.getProperties loc.rBaseKey
          if !node.isDirectory then
            match props.streamSecret with
            | some streamSecret =>
                removeFileChunks H streamSecret (chunkCount props.size props.chunkSize) t loc.mapKey
                  loc.bat
            | none => pure (t.removeEntry loc.mapKey)
          else removeDirChunks (removeAllChunks dirCap fuel) loc.rBaseKey fuel t loc.mapKey node

end Removal

/-! ## Changing a link -/

/-- The links of a chunk, for a change that does not support legacy directories. -/
def decryptNamed (unsupported : String) (c : CipherText ChildrenOrData) (rBaseKey : SymmetricKey) :
    Result (List NamedRelativeCapability) := do
  match ← c.decrypt rBaseKey with
  | .named links => pure links
  | .legacy _ => protocolErr unsupported
  | .data _ => cborErr "Incorrect cbor for ChildrenLinks"

/-- `collect_dir_chunks`, and the walk of `delete_child`. -/
def walkDirChunks (unsupported : String) (champ : Tree) (rBaseKey : SymmetricKey) :
    ℕ → Bytes → CryptreeNode → Result (List DirChunk)
  | 0, _, _ => .error .fuel
  | fuel + 1, mapKey, node => do
      let children ← decryptNamed unsupported node.childrenOrData rBaseKey
      let base ← node.baseBlock rBaseKey
      let chunk : DirChunk := ⟨mapKey, node, children, champ mapKey, base.nextChunk.mapKey,
        base.nextChunk.bat, false⟩
      match (fetchChunkNode champ rBaseKey base.nextChunk.mapKey).filter (·.isDirectory) with
      | some next => do
          let rest ← walkDirChunks unsupported champ rBaseKey fuel base.nextChunk.mapKey next
          pure (chunk :: rest)
      | none => pure [chunk]

/-- Replace the first link with a name. -/
def replaceIn (name : String) (repl : NamedRelativeCapability → List NamedRelativeCapability) :
    List NamedRelativeCapability → Option (NamedRelativeCapability × List NamedRelativeCapability)
  | [] => none
  | link :: links =>
      if link.name = name then some (link, repl link ++ links)
      else (replaceIn name repl links).map fun r => (r.1, link :: r.2)

/-- Replace the first link with a name in the first chunk that has one. -/
def replaceFirst (name : String) (repl : NamedRelativeCapability → List NamedRelativeCapability) :
    List DirChunk → Option (NamedRelativeCapability × List DirChunk)
  | [] => none
  | chunk :: rest =>
      match replaceIn name repl chunk.children with
      | some (link, children) =>
          some (link, { chunk with children := children, modified := true } :: rest)
      | none => (replaceFirst name repl rest).map fun r => (r.1, chunk :: r.2)

/-- `remove_child_link`. -/
def removeChildLink (fuel : ℕ) (dirCap : AbsoluteCapability) (name : String)
    (entrySigner : Option SigningPrivateKeyAndPublicHash) (mirrorBat : Option BatId) :
    Exec Network Fault Unit := do
  let ctx ← Exec.query fun net => beginDirWrite net dirCap entrySigner mirrorBat
  let chunks ← Exec.lift (walkDirChunks "legacy directory format not supported" ctx.champ
    dirCap.rBaseKey fuel dirCap.mapKey ctx.dirNode)
  match replaceFirst name (fun _ => []) chunks with
  | none =>
      commitTree dirCap.writer ctx.signer ctx.champ "setPointer rejected (concurrent modification?)"
  | some (_, chunks) => do
      let champ ← Exec.lift (chunks.foldlM (commitChunk dirCap.rBaseKey) ctx.champ)
      commitTree dirCap.writer ctx.signer champ "setPointer rejected (concurrent modification?)"

/-- The child's own name is in the properties of its first chunk. -/
def renameNode (champ : Tree) (dirCap : AbsoluteCapability) (child : RelativeCapability)
    (newName : String) : Result Tree := do
  let _ ← AbsoluteCapability.new dirCap.owner dirCap.writer child.mapKey child.bat child.rBaseKey
    none
  match fetchChunkNode champ child.rBaseKey child.mapKey with
  | none => protocolErr "child node missing"
  | some node => do
      let props ← node.getProperties child.rBaseKey
      let newNode ← node.updateProperties child.rBaseKey { props with name := newName }
      champ.put child.mapKey (champ child.mapKey) newNode.toCbor

/-- `rename_child`. -/
def renameChild (fuel : ℕ) (dirCap : AbsoluteCapability) (oldName newName : String)
    (entrySigner : Option SigningPrivateKeyAndPublicHash) (mirrorBat : Option BatId) :
    Exec Network Fault Unit := do
  if newName = "" ∨ '/' ∈ newName.toList then
    Exec.fail (.err (.protocol s!"illegal file name: {newName}"))
  else do
    let ctx ← Exec.query fun net => beginDirWrite net dirCap entrySigner mirrorBat
    let chunks ← Exec.lift (walkDirChunks "legacy directory format not supported" ctx.champ
      dirCap.rBaseKey fuel dirCap.mapKey ctx.dirNode)
    if chunks.any fun chunk => chunk.children.any (·.name = newName) then
      Exec.fail (.err (.protocol s!"cannot rename: '{newName}' already exists"))
    else
      match replaceFirst oldName (fun link => [{ link with name := newName }]) chunks with
      | none => Exec.fail (.err (.protocol s!"no such child: {oldName}"))
      | some (link, chunks) => do
          let champ ← Exec.lift (renameNode ctx.champ dirCap link.cap newName)
          let champ ← Exec.lift (chunks.foldlM (commitChunk dirCap.rBaseKey) champ)
          commitTree dirCap.writer ctx.signer champ
            "setPointer rejected (concurrent modification?)"

/-- The commit of `delete_child`: the link and the nodes of the child go together. -/
def unlinkAndRemove (H : ContentHasher) (fuel : ℕ) (dirCap : AbsoluteCapability) (name : String)
    (entrySigner : Option SigningPrivateKeyAndPublicHash) (mirrorBat : Option BatId) :
    Exec Network Fault Unit := do
  let ctx ← Exec.query fun net => beginDirWrite net dirCap entrySigner mirrorBat
  let chunks ← Exec.lift (walkDirChunks "legacy directory format not supported for deletes"
    ctx.champ dirCap.rBaseKey fuel dirCap.mapKey ctx.dirNode)
  match replaceFirst name (fun _ => []) chunks with
  | none => Exec.fail (.err (.protocol s!"no such child: {name}"))
  | some (link, chunks) => do
      let champ ← Exec.lift (chunks.foldlM (commitChunk dirCap.rBaseKey) ctx.champ)
      let champ ← Exec.lift (removeAllChunks H dirCap fuel champ link.cap.loc)
      commitTree dirCap.writer ctx.signer champ "setPointer rejected (concurrent modification?)"

/-- `delete_child`. -/
def deleteChild (H : ContentHasher) (fuel : ℕ) (dirCap : AbsoluteCapability) (name : String)
    (entrySigner : Option SigningPrivateKeyAndPublicHash) (mirrorBat : Option BatId) :
    Exec Spaces Fault Unit := do
  let entries ← Exec.query fun s : Spaces => listDirectory fuel s.network dirCap
  let targets ← Exec.query fun s : Spaces =>
    match entries.find? (·.name = name) with
    | some e => collectOwnWriterTargets s.network fuel e.cap true
    | none => pure ([], [])
  -- the inner ones first, while their owner still authorises them
  Exec.forEach targets.1.reverse fun target => do
    let signer ← Exec.query fun s : Spaces => recoverSigner s.network target
    deleteWriterSubspace signer
  onTrees (unlinkAndRemove H fuel dirCap name entrySigner mirrorBat)
  Exec.forEach targets.2 fun writer => deauthorizeWriter dirCap writer entrySigner

end Peergos
