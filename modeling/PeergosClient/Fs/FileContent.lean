import PeergosClient.Fs.File

/-!
# The file a tree holds

`StoresFile` is the abstraction: a writer's tree stores a content under a capability if the chunks
of the content are under the successive map keys of the file, the first one says how long it is,
and the keys after the last chunk are free.  A file that is stored is read back as its content.  To
edit it in place its first chunk has to say as well how long the chunks are (`HoldsFile`).

Map keys are hashes, so that they are distinct is an assumption.  It is made for the first `limit`
of them, and a content is stored only within that limit.
-/

namespace Peergos

open Chunks

/-! ## Chunk counts -/

theorem lt_chunkCount_iff {size c i : ℕ} (hc : 0 < c) :
    i < chunkCount size c ↔ i = 0 ∨ i * c < size := by
  have hdiv : i < (size + c - 1) / c ↔ i * c < size := by
    rw [Nat.lt_iff_add_one_le, Nat.le_div_iff_mul_le hc, Nat.succ_mul]
    omega
  unfold chunkCount
  rw [lt_max_iff, hdiv]
  omega

theorem chunkCount_pos (size c : ℕ) : 0 < chunkCount size c :=
  lt_of_lt_of_le Nat.one_pos (le_max_right _ _)

theorem size_le_chunkCount_mul (size : ℕ) {c : ℕ} (hc : 0 < c) : size ≤ chunkCount size c * c := by
  by_contra h
  have := (lt_chunkCount_iff (i := chunkCount size c) hc).2 (Or.inr (not_le.1 h))
  exact lt_irrefl _ this

theorem chunkCount_mono {a b c : ℕ} (h : a ≤ b) : chunkCount a c ≤ chunkCount b c :=
  max_le_max (Nat.div_le_div_right (by omega)) le_rfl

/-- Past its last chunk a content has nothing. -/
theorem chunkAt_eq_nil {c i : ℕ} {content : Bytes} (hc : 0 < c)
    (hi : chunkCount content.length c ≤ i) : chunkAt c i content = [] := by
  have := size_le_chunkCount_mul content.length hc
  have hle : chunkCount content.length c * c ≤ i * c := Nat.mul_le_mul_right c hi
  rw [chunkAt, List.drop_eq_nil_of_le (by omega), List.take_nil]

/-! ## The node of a chunk -/

/-- What the node of a file chunk says beside its keys and its data. -/
structure ChunkParts where
  bats : List BatId
  signer : Option (CipherText SigningPrivateKeyAndPublicHash)
  nextChunk : RelativeCapability
  toParent : RelativeCapability
  props : FileProperties

namespace ChunkParts

variable (p : ChunkParts) (rBaseKey dataKey : SymmetricKey) (data : Bytes)

/-- The stored node. -/
def block : CryptreeBlock :=
  ⟨p.bats, .build rBaseKey ⟨dataKey, p.signer, p.nextChunk⟩, .build rBaseKey ⟨some p.toParent, p.props⟩,
    .build dataKey (.data data)⟩

/-- The node as it is read. -/
def node : CryptreeNode := { p.block rBaseKey dataKey data with isDirectory := false }

@[simp] theorem toCbor_node : (p.node rBaseKey dataKey data).toCbor = p.block rBaseKey dataKey data :=
  rfl

@[simp] theorem isDirectory_node : (p.node rBaseKey dataKey data).isDirectory = false := rfl

theorem fromCbor_block (h : p.props.isDirectory = false) :
    CryptreeNode.fromCbor (p.block rBaseKey dataKey data) rBaseKey = p.node rBaseKey dataKey data := by
  simp [CryptreeNode.fromCbor, block, node, h]

@[simp] theorem getDataKey_node : (p.node rBaseKey dataKey data).getDataKey rBaseKey = .ok dataKey := by
  simp [CryptreeNode.getDataKey, node, block, bind, Except.bind, pure, Except.pure]

@[simp] theorem getParentKey_node :
    (p.node rBaseKey dataKey data).getParentKey rBaseKey = rBaseKey := by
  simp [CryptreeNode.getParentKey, node]

@[simp] theorem getProperties_node :
    (p.node rBaseKey dataKey data).getProperties rBaseKey = .ok p.props := by
  simp [CryptreeNode.getProperties, node, block, CryptreeNode.getParentKey, bind, Except.bind, pure,
    Except.pure]

@[simp] theorem parentLink_node :
    (p.node rBaseKey dataKey data).parentLink rBaseKey = .ok (some p.toParent) := by
  simp [CryptreeNode.parentLink, node, block, CryptreeNode.getParentKey, bind, Except.bind, pure,
    Except.pure]

@[simp] theorem baseBlock_node :
    (p.node rBaseKey dataKey data).baseBlock rBaseKey = .ok ⟨dataKey, p.signer, p.nextChunk⟩ := by
  simp [CryptreeNode.baseBlock, node, block]

@[simp] theorem getAndDecryptBytes_node :
    getAndDecryptBytes (p.node rBaseKey dataKey data).childrenOrData dataKey = .ok data := by
  simp [getAndDecryptBytes, node, block, bind, Except.bind, pure, Except.pure]

/-- `update_properties` on the node of a chunk. -/
@[simp] theorem updateProperties_node (props : FileProperties) :
    (p.node rBaseKey dataKey data).updateProperties rBaseKey props =
      .ok ({ p with props := props }.node rBaseKey dataKey data) := by
  simp only [CryptreeNode.updateProperties, parentLink_node, getParentKey_node, bind, Except.bind,
    pure, Except.pure]
  rfl

/-- The parts of a chunk whose data has been overwritten. -/
def overwritten (now : ℤ) : ChunkParts :=
  { p with props := { p.props with treeHash := none, modifiedEpoch := now } }

/-- `overwrite_chunk_data` on the node of a chunk. -/
@[simp] theorem overwriteChunkData_node (newData : Bytes) (now : ℤ) :
    (p.node rBaseKey dataKey data).overwriteChunkData rBaseKey (.build dataKey (.data newData)) now =
      .ok ((p.overwritten now).node rBaseKey dataKey newData) := by
  simp only [CryptreeNode.overwriteChunkData, parentLink_node, getProperties_node, getParentKey_node,
    bind, Except.bind, pure, Except.pure]
  rfl

end ChunkParts

theorem exists_nodeBatsOpt (bat : Option Bat) (mirrorBat : Option BatId) :
    ∃ bats, nodeBatsOpt bat mirrorBat = .ok bats := by
  cases bat with
  | none => exact ⟨_, rfl⟩
  | some b =>
      have hvalid : multihashRefusal .id b.secret = none := by
        simp [multihashRefusal, b.length_eq, legacyMaxIdentityHashSize, MultihashType.length]
      have hcid : Cid.new .v1 .raw .id b.secret = .ok ⟨.v1, .raw, ⟨.id, b.secret, hvalid⟩⟩ := by
        have hnew := Multihash.new_of_valid ⟨.id, b.secret, hvalid⟩
        simp only [Cid.new, hnew, bind, Except.bind]
      refine ⟨⟨⟨.v1, .raw, ⟨.id, b.secret, hvalid⟩⟩⟩ :: mirrorBat.toList, ?_⟩
      simp only [nodeBatsOpt, BatId.inline, hcid, liftMf, bind, Except.bind, pure, Except.pure]

/-- The node of a chunk: what it says of its BATs and of the next chunk. -/
theorem exists_fileChunk_linked (bat : Option Bat) (mirrorBat : Option BatId)
    (rBaseKey dataKey : SymmetricKey) (signer : Option (CipherText SigningPrivateKeyAndPublicHash))
    (next : Bytes × Option Bat) (toParent : RelativeCapability) (props : FileProperties)
    (data : Bytes) : ∃ p : ChunkParts, p.props = props ∧
      nodeBatsOpt bat mirrorBat = .ok p.bats ∧
      p.nextChunk = .subsequentChunk next.1 next.2 rBaseKey ∧
      fileChunk bat mirrorBat rBaseKey dataKey signer next toParent props data =
        .ok (p.block rBaseKey dataKey data) := by
  obtain ⟨bats, hbats⟩ := exists_nodeBatsOpt bat mirrorBat
  refine ⟨⟨bats, signer, .subsequentChunk next.1 next.2 rBaseKey, toParent, props⟩, rfl, hbats, rfl,
    ?_⟩
  simp only [fileChunk, hbats, bind, Except.bind, pure, Except.pure]
  rfl

/-- Building the node of a chunk does not fail. -/
theorem exists_fileChunk (bat : Option Bat) (mirrorBat : Option BatId)
    (rBaseKey dataKey : SymmetricKey) (signer : Option (CipherText SigningPrivateKeyAndPublicHash))
    (next : Bytes × Option Bat) (toParent : RelativeCapability) (props : FileProperties)
    (data : Bytes) : ∃ p : ChunkParts, p.props = props ∧
      fileChunk bat mirrorBat rBaseKey dataKey signer next toParent props data =
        .ok (p.block rBaseKey dataKey data) := by
  obtain ⟨p, hprops, -, -, hchunk⟩ :=
    exists_fileChunk_linked bat mirrorBat rBaseKey dataKey signer next toParent props data
  exact ⟨p, hprops, hchunk⟩

/-! ## Holding a file -/

/-- What does not change while a file is edited: where it is, its keys and its chunk size. -/
structure FileHandle where
  cap : AbsoluteCapability
  dataKey : SymmetricKey
  streamSecret : Bytes
  chunkSize : ℕ
  chunkSize_pos : 0 < chunkSize

namespace FileHandle

variable (H : ContentHasher) (f : FileHandle)

/-- The map key of chunk `i`. -/
def key (i : ℕ) : Bytes := chunkKey H f.streamSecret f.cap.mapKey i

/-- The first `limit` map keys are distinct. -/
def DistinctKeys (limit : ℕ) : Prop := ∀ i < limit, ∀ j < limit, f.key H i = f.key H j → i = j

/-- The node of a chunk with these parts. -/
def block (p : ChunkParts) (data : Bytes) : CryptreeBlock := p.block f.cap.rBaseKey f.dataKey data

end FileHandle

/-- The tree stores the content in the first chunks of the file, with these parts. -/
structure StoresFile (H : ContentHasher) (limit : ℕ) (f : FileHandle) (t : Tree)
    (parts : ℕ → ChunkParts) (content : Bytes) : Prop where
  within : chunkCount content.length f.chunkSize ≤ limit
  present : ∀ i < chunkCount content.length f.chunkSize,
    t (f.key H i) = some (f.block (parts i) (chunkAt f.chunkSize i content))
  absent : ∀ i < limit, chunkCount content.length f.chunkSize ≤ i → t (f.key H i) = none
  isFile : ∀ i, (parts i).props.isDirectory = false
  size : (parts 0).props.size = content.length
  streamSecret : (parts 0).props.streamSecret = some f.streamSecret

/-- The tree stores the content, and the first chunk says how long the chunks are. -/
structure HoldsFile (H : ContentHasher) (limit : ℕ) (f : FileHandle) (t : Tree)
    (parts : ℕ → ChunkParts) (content : Bytes) : Prop
    extends StoresFile H limit f t parts content where
  chunkSize : (parts 0).props.chunkSize = f.chunkSize

namespace StoresFile

variable {H : ContentHasher} {limit : ℕ} {f : FileHandle} {t : Tree} {parts : ℕ → ChunkParts}
  {content : Bytes}

theorem fetch (h : StoresFile H limit f t parts content) {i : ℕ}
    (hi : i < chunkCount content.length f.chunkSize) :
    fetchChunkNode t f.cap.rBaseKey (f.key H i) =
      some ((parts i).node f.cap.rBaseKey f.dataKey (chunkAt f.chunkSize i content)) := by
  rw [fetchChunkNode, h.present i hi, Option.map_some]
  exact congrArg some (ChunkParts.fromCbor_block _ _ _ _ (h.isFile i))

theorem fetch_first (h : StoresFile H limit f t parts content) :
    fetchChunkNode t f.cap.rBaseKey f.cap.mapKey =
      some ((parts 0).node f.cap.rBaseKey f.dataKey (chunkAt f.chunkSize 0 content)) :=
  h.fetch (chunkCount_pos _ _)

/-- The champ has exactly the chunks the size asks for. -/
theorem isSome_iff (h : StoresFile H limit f t parts content) {i : ℕ} (hi : i < limit) :
    (t (f.key H i)).isSome = true ↔ i < chunkCount content.length f.chunkSize := by
  constructor
  · intro hsome
    by_contra hge
    rw [h.absent i hi (not_lt.1 hge)] at hsome
    cases hsome
  · intro hlt
    rw [h.present i hlt]
    rfl

/-- The loop of `read_file_to` from chunk `i` on. -/
theorem readChunks_eq (h : StoresFile H limit f t parts content) {fuel i : ℕ}
    (hi : i < chunkCount content.length f.chunkSize)
    (hfuel : chunkCount content.length f.chunkSize ≤ i + fuel) :
    readChunks H t f.cap.rBaseKey (parts 0).props fuel
        ((parts i).node f.cap.rBaseKey f.dataKey (chunkAt f.chunkSize i content))
        (f.key H i) (chunkBat H f.streamSecret f.cap.bat i) (i * f.chunkSize) =
      .ok (content.drop (i * f.chunkSize)) := by
  induction fuel generalizing i with
  | zero => omega
  | succ fuel ih =>
      have hlen := length_chunkAt f.chunkSize i content
      have htaken : (chunkAt f.chunkSize i content).take
          (min (chunkAt f.chunkSize i content).length (content.length - i * f.chunkSize)) =
          chunkAt f.chunkSize i content := List.take_of_length_le (by omega)
      unfold readChunks
      simp only [ChunkParts.getDataKey_node, ChunkParts.getAndDecryptBytes_node, bind, Except.bind,
        h.size, htaken]
      by_cases hend : content.length ≤ i * f.chunkSize + f.chunkSize
      · -- the last chunk
        rw [if_pos (by omega)]
        simp only [pure, Except.pure, chunkAt]
        rw [List.take_of_length_le (by rw [List.length_drop]; omega)]
      · have hnext : i + 1 < chunkCount content.length f.chunkSize :=
          (lt_chunkCount_iff f.chunkSize_pos).2 (Or.inr (by rw [Nat.succ_mul]; omega))
        have hmin : min f.chunkSize (content.length - i * f.chunkSize) = f.chunkSize := by omega
        have hkey := calculateNextMapKey_chunk H f.streamSecret f.cap.mapKey f.cap.bat i
        have hrest := ih hnext (by omega)
        rw [Nat.succ_mul] at hrest
        rw [if_neg (by omega)]
        simp only [h.streamSecret, FileHandle.key] at hkey hrest ⊢
        rw [hkey]
        simp only [show fetchChunkNode t f.cap.rBaseKey
          (chunkKey H f.streamSecret f.cap.mapKey (i + 1)) = _ from h.fetch hnext, hlen, hmin,
          hrest]
        simp only [pure, Except.pure, chunkAt]
        rw [← List.drop_drop, List.take_append_drop]

/-- A stored file is read back. -/
theorem readFile_eq (h : StoresFile H limit f t parts content) {net : Network}
    (hnet : net f.cap.writer = some t) {fuel : ℕ}
    (hfuel : chunkCount content.length f.chunkSize ≤ fuel) :
    readFile H fuel net f.cap = .ok ((parts 0).props, content) := by
  have hread : readChunks H t f.cap.rBaseKey (parts 0).props fuel _ _ _ _ = _ :=
    h.readChunks_eq (chunkCount_pos _ _) (by omega)
  rw [Nat.zero_mul, List.drop_zero] at hread
  unfold readFile
  simp only [openWriterRoot, hnet, bind, Except.bind, h.fetch_first, ChunkParts.isDirectory_node,
    ChunkParts.getProperties_node, Bool.false_eq_true, if_false]
  have hkey : f.key H 0 = f.cap.mapKey := rfl
  have hbat : chunkBat H f.streamSecret f.cap.bat 0 = f.cap.bat := rfl
  rw [hkey, hbat] at hread
  rw [hread]
  rfl

end StoresFile

end Peergos
