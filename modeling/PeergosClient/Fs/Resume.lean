import PeergosClient.Fs.TransactionRecord
import PeergosClient.Fs.UploadRead

/-!
# Interrupted uploads

A large file is uploaded under a transaction: a record with the keys of the upload is stored first,
then the chunks are committed one by one, then the file is linked into its directory and the record
removed.  An upload that was interrupted is resumed from its record: the first chunk that is not
there is found by a search with eight probes a round, the reader is moved past the chunks before it,
and the rest is written and linked.
-/

namespace Peergos

open Chunks KeyedMap

/-- `FileUploadTransaction`, less its path and its time. -/
structure FileUploadTransaction where
  name : String
  owner : PublicKeyHash
  writer : SigningPrivateKeyAndPublicHash
  firstMapKey : Bytes
  firstBat : Option Bat
  props : FileProperties
  baseKey : SymmetricKey
  dataKey : SymmetricKey
  writeKey : SymmetricKey
  streamSecret : Bytes
  size : ℕ
  hash : Option HashTree

namespace FileUploadTransaction

/-- `FileUploadTransaction::chunk_count`. -/
def chunkCount (txn : FileUploadTransaction) : ℕ := Peergos.chunkCount txn.size txn.props.chunkSize

/-- The keys and the location of the file. -/
def keys (txn : FileUploadTransaction) : FileKeys :=
  ⟨txn.firstMapKey, txn.firstBat, txn.baseKey, txn.dataKey, txn.streamSecret⟩

/-- The properties `upload_txn_chunks` gives to chunk `i`. -/
def chunkProps (txn : FileUploadTransaction) (tree : Option HashTree) (i : ℕ) : FileProperties :=
  { FileProperties.newFile txn.props.name txn.props.mimeType txn.size txn.props.createdEpoch
      txn.streamSecret (if i = 0 then txn.props.thumbnail else none) with
    treeHash :=
      if i % 1024 = 0 then
        match tree with
        | some tree => some (tree.branch i)
        | none => if i = 0 then txn.props.treeHash else none
      else none }

end FileUploadTransaction

section Defs

variable (H : ContentHasher)

/-! ## The search for the first absent chunk -/

/-- `PROBE_COUNT`. -/
def probeCount : ℕ := 8

/-- `probe_indices[j]`. -/
def probeIndex (lo rangeSize batchSize j : ℕ) : ℕ := lo + j * rangeSize / batchSize

/-- `derive_probes_for_indices`. -/
def deriveProbesForIndices (streamSecret : Bytes) :
    Bytes → Option Bat → ℕ → List ℕ → Result (List (Bytes × Option Bat))
  | _, _, _, [] => pure []
  | prevKey, prevBat, prevIndex, index :: indices => do
      let next ← advanceMapKey H streamSecret prevKey prevBat (index - prevIndex)
      let rest ← deriveProbesForIndices streamSecret next.1 next.2 index indices
      pure (next :: rest)

/-- `binary_search_absent_chunk`. -/
def binarySearchAbsentChunk (streamSecret : Bytes) (lookup : Bytes → Bool) :
    ℕ → ℕ → ℕ → Bytes → Option Bat → Result ℕ
  | 0, _, _, _, _ => .error .fuel
  | fuel + 1, lo, hi, loKey, loBat =>
      if hi ≤ lo then pure lo
      else do
        let batchSize := min (hi - lo) probeCount
        let index := probeIndex lo (hi - lo) batchSize
        let rest ← deriveProbesForIndices H streamSecret loKey loBat lo
          ((List.range' 1 (batchSize - 1)).map index)
        let probes := (loKey, loBat) :: rest
        match (probes.map fun p => lookup p.1).findIdx? (! ·) with
        | some 0 => pure lo
        | some (i + 1) =>
            let probe := probes.getD i (loKey, loBat)
            binarySearchAbsentChunk streamSecret lookup fuel (index i) (index (i + 1)) probe.1
              probe.2
        | none =>
            if hi ≤ index (batchSize - 1) + 1 then pure hi
            else
              let probe := probes.getD (batchSize - 1) (loKey, loBat)
              binarySearchAbsentChunk streamSecret lookup fuel (index (batchSize - 1)) hi probe.1
                probe.2

/-- `find_first_absent_chunk`. -/
def findFirstAbsentChunk (fuel : ℕ) (net : Network) (txn : FileUploadTransaction) : Result ℕ :=
  match net txn.writer.publicKeyHash with
  | none => pure 0
  | some t =>
      if txn.chunkCount = 0 then pure 0
      else
        binarySearchAbsentChunk H txn.streamSecret (fun key => (t key).isSome) fuel 0
          txn.chunkCount txn.firstMapKey txn.firstBat

/-! ## Writing the chunks -/

/-- The loop of `upload_txn_chunks` over the chunks that are already there: it derives the next
location and reads a whole buffer for each. -/
def skipChunks (txn : FileUploadTransaction) :
    ℕ → Bytes → Option Bat → Bytes → Result (Bytes × Option Bat × Bytes)
  | 0, mapKey, bat, reader => pure (mapKey, bat, reader)
  | start + 1, mapKey, bat, reader => do
      let next ← calculateNextMapKey H txn.streamSecret mapKey bat
      let (_, reader) ← readExact reader txn.props.chunkSize
      skipChunks txn start next.1 next.2 reader

/-- The loop of `upload_txn_chunks` from chunk `i` on, with a commit after each chunk. -/
def uploadTxnLoop (txn : FileUploadTransaction) (toParent : RelativeCapability)
    (tree : Option HashTree) (mirrorBat : Option BatId) :
    ℕ → ℕ → Bytes → Bytes → Option Bat → Tree → Exec Network Fault Unit
  | 0, _, _, _, _, _ => pure ()
  | remaining + 1, i, reader, mapKey, bat, champ => do
      let (data, reader) ← Exec.lift
        (readExact reader (chunkLen txn.size txn.props.chunkSize txn.chunkCount i))
      let next ← Exec.lift (calculateNextMapKey H txn.streamSecret mapKey bat)
      let block ← Exec.lift (fileChunk bat mirrorBat txn.baseKey txn.dataKey none next toParent
        (txn.chunkProps tree i) data)
      let champ ← Exec.lift (champ.put mapKey (champ mapKey) block)
      commitTree txn.writer.publicKeyHash txn.writer champ "chunk pointer commit rejected"
      uploadTxnLoop txn toParent tree mirrorBat remaining (i + 1) reader next.1 next.2 champ

/-- `upload_txn_chunks`. -/
def uploadTxnChunks (dirCap : AbsoluteCapability) (txn : FileUploadTransaction)
    (tree : Option HashTree) (startChunk : ℕ) (mirrorBat : Option BatId) (reader : Bytes) :
    Exec Network Fault Unit := do
  let dirChamp ← Exec.query fun net => openWriterRoot net dirCap.writer
  match fetchChunkNode dirChamp dirCap.rBaseKey dirCap.mapKey with
  | none => Exec.fail (.err (.protocol "target directory missing"))
  | some dirNode => do
      let base ← Exec.lift (dirNode.baseBlock dirCap.rBaseKey)
      let champ ← Exec.query fun net => openWriterRoot net txn.writer.publicKeyHash
      let (mapKey, bat, reader) ←
        Exec.lift (skipChunks H txn startChunk txn.firstMapKey txn.firstBat reader)
      uploadTxnLoop H txn (toParentLink dirCap base.parentOrData) tree mirrorBat
        (txn.chunkCount - startChunk) startChunk reader mapKey bat champ

/-- `add_file_child_link`. -/
def addFileChildLink (dir : DirParams) (dirCap : AbsoluteCapability)
    (entrySigner : Option SigningPrivateKeyAndPublicHash) (mirrorBat : Option BatId)
    (txn : FileUploadTransaction) : Exec Network Fault AbsoluteCapability := do
  let fileCap ← Exec.lift (AbsoluteCapability.new txn.owner txn.writer.publicKeyHash
    txn.firstMapKey txn.firstBat txn.baseKey (some txn.writeKey))
  let ctx ← Exec.query fun net => beginDirWrite net dirCap entrySigner mirrorBat
  finishDirWriteMulti dir.fuel dir.maxLinks dir.fresh ctx dirCap
    [fileChildLink dirCap txn.props.name txn.props.mimeType txn.props.createdEpoch txn.keys
      txn.writeKey]
  pure fileCap

/-- The hash tree a resume works with: the one of the record, or for a large file that has none the
one of the content. -/
def resumeTree (txn : FileUploadTransaction) (reader : Bytes) : Result (Option HashTree) :=
  match txn.hash with
  | some tree => pure (some tree)
  | none =>
      if 1024 < txn.chunkCount then do
        let chunks ← readPass txn.size txn.props.chunkSize txn.chunkCount txn.chunkCount 0 reader
        let tree ← H.buildTree (chunks.mapIdx fun i chunk =>
          H.chunkHash chunk i txn.props.chunkSize (txn.chunkCount = 1)) txn.props.chunkSize
        pure (some tree)
      else pure none

/-- `resume_transaction`.  An upload of the same content to the same path takes the same steps, with
the tree it has just built. -/
def resumeTransaction (fuel : ℕ) (dir : DirParams) (homeCap dirCap : AbsoluteCapability)
    (txn : FileUploadTransaction) (mirrorBat : Option BatId) (reader : Bytes) :
    Exec Spaces Fault AbsoluteCapability := do
  let start ← Exec.query fun s : Spaces => findFirstAbsentChunk H fuel s.network txn
  let tree ← Exec.lift (resumeTree H txn reader)
  onTrees (uploadTxnChunks H dirCap txn tree start mirrorBat reader)
  let fileCap ← onTrees (addFileChildLink dir dirCap (some txn.writer) mirrorBat txn)
  closeTransactionRecord H fuel homeCap txn.name
  pure fileCap

end Defs

/-! ## The search finds the first absent chunk -/

section Search

variable {H : ContentHasher} {f : FileHandle}

/-- Advancing from a chunk in the middle. -/
theorem FileHandle.advanceMapKey_key (H : ContentHasher) (f : FileHandle) (i n : ℕ) :
    advanceMapKey H f.streamSecret (f.key H i) (chunkBat H f.streamSecret f.cap.bat i) n =
      .ok (f.key H (i + n), chunkBat H f.streamSecret f.cap.bat (i + n)) := by
  induction n with
  | zero => rfl
  | succ n ih =>
      rw [advanceMapKey, ih]
      exact f.calculateNextMapKey_key H (i + n)

/-- The probes of ascending indices. -/
theorem deriveProbesForIndices_eq (H : ContentHasher) (f : FileHandle) {indices : List ℕ} {i : ℕ}
    (h : (i :: indices).Pairwise (· ≤ ·)) :
    deriveProbesForIndices H f.streamSecret (f.key H i) (chunkBat H f.streamSecret f.cap.bat i) i
        indices =
      .ok (indices.map fun j => (f.key H j, chunkBat H f.streamSecret f.cap.bat j)) := by
  induction indices generalizing i with
  | nil => rfl
  | cons index indices ih =>
      obtain ⟨hle, hrest⟩ := List.pairwise_cons.1 h
      have hi : i + (index - i) = index := by
        have := hle index List.mem_cons_self
        omega
      unfold deriveProbesForIndices
      rw [f.advanceMapKey_key, hi]
      simp only [bind, Except.bind, ih hrest, pure, Except.pure, List.map_cons]

variable {lo rangeSize batchSize : ℕ}

theorem probeIndex_zero : probeIndex lo rangeSize batchSize 0 = lo := by
  simp [probeIndex]

/-- The indices of a round ascend. -/
theorem probeIndex_lt (hb : 0 < batchSize) (hle : batchSize ≤ rangeSize) {i j : ℕ} (hij : i < j) :
    probeIndex lo rangeSize batchSize i < probeIndex lo rangeSize batchSize j := by
  have hstep : i * rangeSize / batchSize + 1 ≤ j * rangeSize / batchSize := by
    rw [Nat.le_div_iff_mul_le hb, Nat.add_mul, Nat.one_mul]
    calc i * rangeSize / batchSize * batchSize + batchSize
        ≤ i * rangeSize + rangeSize := Nat.add_le_add (Nat.div_mul_le_self _ _) hle
      _ = (i + 1) * rangeSize := (Nat.succ_mul i rangeSize).symm
      _ ≤ j * rangeSize := Nat.mul_le_mul_right _ hij
  unfold probeIndex
  omega

theorem probeIndex_lt_hi (hb : 0 < batchSize) (hr : 0 < rangeSize) {j : ℕ} (hj : j < batchSize) :
    probeIndex lo rangeSize batchSize j < lo + rangeSize := by
  have hlt : j * rangeSize / batchSize < rangeSize := by
    rw [Nat.div_lt_iff_lt_mul hb, Nat.mul_comm rangeSize]
    exact Nat.mul_lt_mul_of_pos_right hj hr
  unfold probeIndex
  omega

/-- The probes of a round. -/
theorem probes_eq (H : ContentHasher) (f : FileHandle) (lo : ℕ) (hb : 0 < batchSize)
    (hle : batchSize ≤ rangeSize) :
    ∃ rest, deriveProbesForIndices H f.streamSecret (f.key H lo)
        (chunkBat H f.streamSecret f.cap.bat lo) lo
        ((List.range' 1 (batchSize - 1)).map (probeIndex lo rangeSize batchSize)) = .ok rest ∧
      (f.key H lo, chunkBat H f.streamSecret f.cap.bat lo) :: rest =
        (List.range batchSize).map fun j => (f.key H (probeIndex lo rangeSize batchSize j),
          chunkBat H f.streamSecret f.cap.bat (probeIndex lo rangeSize batchSize j)) := by
  have hrange : List.range batchSize = 0 :: List.range' 1 (batchSize - 1) := by
    obtain ⟨m, rfl⟩ := Nat.exists_eq_add_one_of_ne_zero hb.ne'
    rw [List.range_eq_range', List.range'_succ]
    rfl
  have hsorted : (lo :: (List.range' 1 (batchSize - 1)).map
      (probeIndex lo rangeSize batchSize)).Pairwise (· ≤ ·) := by
    have hmap : ((List.range batchSize).map (probeIndex lo rangeSize batchSize)).Pairwise
        (· ≤ ·) :=
      List.pairwise_map.2 (List.pairwise_lt_range.imp fun hij => (probeIndex_lt hb hle hij).le)
    rwa [hrange, List.map_cons, probeIndex_zero] at hmap
  refine ⟨_, deriveProbesForIndices_eq H f hsorted, ?_⟩
  rw [hrange, List.map_cons, probeIndex_zero, List.map_map]
  rfl

/-- **The search is right.**  If the chunks before `k` are there and those from `k` on are not, it
finds `k`. -/
theorem binarySearchAbsentChunk_eq {lookup : Bytes → Bool} {k fuel lo hi : ℕ}
    (hlookup : ∀ i, lo ≤ i → i < hi → (lookup (f.key H i) = true ↔ i < k))
    (hlo : lo ≤ k) (hhi : k ≤ hi) (hfuel : hi - lo < fuel) :
    binarySearchAbsentChunk H f.streamSecret lookup fuel lo hi (f.key H lo)
      (chunkBat H f.streamSecret f.cap.bat lo) = .ok k := by
  induction fuel generalizing lo hi with
  | zero => omega
  | succ fuel ih =>
      unfold binarySearchAbsentChunk
      by_cases hend : hi ≤ lo
      · rw [if_pos hend, show k = lo by omega]
        rfl
      · rw [if_neg hend]
        have hb : 0 < min (hi - lo) probeCount := by
          rw [probeCount]
          omega
        have hle : min (hi - lo) probeCount ≤ hi - lo := min_le_left _ _
        have hmin : min (hi - lo) probeCount = 1 → hi - lo = 1 := by
          rw [probeCount]
          omega
        dsimp only
        generalize min (hi - lo) probeCount = batchSize at hb hle hmin ⊢
        obtain ⟨rest, hrest, hprobes⟩ := probes_eq H f lo hb hle
        set index := probeIndex lo (hi - lo) batchSize with hindex
        have hzero : index 0 = lo := probeIndex_zero
        have hmono : ∀ {i j}, i < j → index i < index j := probeIndex_lt hb hle
        have hbelow : ∀ {j}, j < batchSize → index j < hi := fun {j} hj => by
          have : index j < lo + (hi - lo) := probeIndex_lt_hi hb (by omega) hj
          omega
        have habove : ∀ j, lo ≤ index j := fun j => by
          rcases Nat.eq_zero_or_pos j with rfl | hj
          · exact hzero.ge
          · exact hzero ▸ (hmono hj).le
        have hflag : ∀ {j}, j < batchSize → (lookup (f.key H (index j)) = true ↔ index j < k) :=
          fun hj => hlookup _ (habove _) (hbelow hj)
        rw [hrest]
        simp only [bind, Except.bind, hprobes, List.map_map]
        have hget : ∀ {j}, j < batchSize → ∀ d, ((List.range batchSize).map fun j =>
            (f.key H (index j), chunkBat H f.streamSecret f.cap.bat (index j))).getD j d =
            (f.key H (index j), chunkBat H f.streamSecret f.cap.bat (index j)) := fun hj d => by
          simp [List.getD, hj]
        split
        · next hfirst =>
            obtain ⟨_, habsent, _⟩ := List.findIdx?_eq_some_iff_getElem.1 hfirst
            have hk : ¬index 0 < k := fun hlt => by simp [(hflag hb).2 hlt] at habsent
            rw [show k = lo by omega]
            rfl
        · next i hfirst =>
            obtain ⟨hlen, habsent, hbefore⟩ := List.findIdx?_eq_some_iff_getElem.1 hfirst
            rw [List.length_map, List.length_range] at hlen
            have hhi' : k ≤ index (i + 1) := by
              by_contra hgt
              simp [(hflag hlen).2 (not_le.1 hgt)] at habsent
            have hlo' : index i < k := by
              have hpresent := hbefore i (Nat.lt_succ_self i)
              refine (hflag (by omega)).1 ?_
              simpa using hpresent
            have hnext : index (i + 1) < hi := hbelow hlen
            have hprev := habove i
            simp only [hget (show i < batchSize by omega)]
            exact ih (fun j hj hj' => hlookup j (by omega) (by omega)) hlo'.le hhi' (by omega)
        · next hnone =>
            have hlast : index (batchSize - 1) < k := by
              refine (hflag (by omega)).1 ?_
              have := List.findIdx?_eq_none_iff.1 hnone _ (List.mem_map_of_mem
                (List.mem_range.2 (show batchSize - 1 < batchSize by omega)))
              simpa using this
            split
            · rw [show k = hi by omega]
              rfl
            · next hmore =>
                -- with one probe only, the range had one chunk
                have hone : batchSize ≠ 1 := fun hone => by
                  have := hmin hone
                  rw [hone, hzero] at hmore
                  omega
                have hprev : lo < index (batchSize - 1) := hzero ▸ hmono (by omega)
                simp only [hget (show batchSize - 1 < batchSize by omega)]
                exact ih (fun j hj hj' => hlookup j (by omega) hj') hlast.le hhi (by omega)

end Search

/-! ## The chunks of a transaction -/

/-- The file a transaction uploads. -/
def FileUploadTransaction.handle (txn : FileUploadTransaction) (hmap : txn.firstMapKey.length = 32)
    (hc : 0 < txn.props.chunkSize) : FileHandle :=
  ⟨⟨txn.owner, txn.writer.publicKeyHash, txn.firstMapKey, txn.firstBat, txn.baseKey,
    some txn.writeKey, hmap⟩, txn.dataKey, txn.streamSecret, txn.props.chunkSize, hc⟩

section Loop

variable {H : ContentHasher} {txn : FileUploadTransaction} {hmap : txn.firstMapKey.length = 32}
  {hc : 0 < txn.props.chunkSize} {content : Bytes}

/-- Skipping chunks that are all full. -/
theorem skipChunks_of_le (f : FileHandle) (hf : f = txn.handle hmap hc) {start i : ℕ}
    (hle : (i + start) * f.chunkSize ≤ content.length) :
    skipChunks H txn start (f.key H i) (chunkBat H f.streamSecret f.cap.bat i)
        (content.drop (i * f.chunkSize)) =
      .ok (f.key H (i + start), chunkBat H f.streamSecret f.cap.bat (i + start),
        content.drop ((i + start) * f.chunkSize)) := by
  induction start generalizing i with
  | zero => rfl
  | succ start ih =>
      have hread : readExact (content.drop (i * f.chunkSize)) f.chunkSize =
          .ok (chunkAt f.chunkSize i content, content.drop ((i + 1) * f.chunkSize)) := by
        have hfull : f.chunkSize ≤ (content.drop (i * f.chunkSize)).length := by
          have : (i + 1) * f.chunkSize ≤ (i + (start + 1)) * f.chunkSize :=
            Nat.mul_le_mul_right _ (by omega)
          rw [Nat.succ_mul] at this
          rw [List.length_drop]
          omega
        rw [readExact, if_pos hfull, List.drop_drop, Nat.succ_mul]
        rfl
      unfold skipChunks
      rw [show txn.streamSecret = f.streamSecret by rw [hf]; rfl,
        show txn.props.chunkSize = f.chunkSize by rw [hf]; rfl, f.calculateNextMapKey_key]
      simp only [bind, Except.bind, hread]
      rw [ih (by rw [show i + 1 + start = i + (start + 1) by omega]; exact hle),
        show i + 1 + start = i + (start + 1) by omega]

/-- Chunks can be skipped only if they are all full. -/
theorem le_of_skipChunks (f : FileHandle) (hf : f = txn.handle hmap hc) {start i : ℕ}
    {r : Bytes × Option Bat × Bytes}
    (hrun : skipChunks H txn start (f.key H i) (chunkBat H f.streamSecret f.cap.bat i)
      (content.drop (i * f.chunkSize)) = .ok r) :
    start = 0 ∨ (i + start) * f.chunkSize ≤ content.length := by
  induction start generalizing i with
  | zero => exact Or.inl rfl
  | succ start ih =>
      right
      unfold skipChunks at hrun
      rw [show txn.streamSecret = f.streamSecret by rw [hf]; rfl,
        show txn.props.chunkSize = f.chunkSize by rw [hf]; rfl, f.calculateNextMapKey_key] at hrun
      obtain ⟨⟨key, bat⟩, hkey, hrun⟩ := bind_eq_ok.1 hrun
      cases hkey
      obtain ⟨⟨chunk, rest⟩, hread, hrun⟩ := bind_eq_ok.1 hrun
      unfold readExact at hread
      split at hread
      · next hfull =>
          cases hread
          rw [List.length_drop] at hfull
          rw [List.drop_drop, ← Nat.succ_mul] at hrun
          rcases ih hrun with rfl | hle
          · have := f.chunkSize_pos
            rw [Nat.zero_add, Nat.succ_mul]
            omega
          · rw [show i + (start + 1) = i + 1 + start by omega]
            exact hle
      · cases hread

/-- The loop of `upload_txn_chunks` stores the chunks of the content. -/
theorem uploadTxnLoop_run (f : FileHandle) (hf : f = txn.handle hmap hc)
    (hsize : txn.size = content.length) (toParent : RelativeCapability) (tree : Option HashTree)
    (mirrorBat : Option BatId) :
    ∃ q : ℕ → ChunkParts, (∀ j, (q j).props = txn.chunkProps tree j) ∧
      ∀ remaining i champ net, i + remaining ≤ txn.chunkCount →
        net f.cap.writer = some champ →
        uploadTxnLoop H txn toParent tree mirrorBat remaining i (content.drop (i * f.chunkSize))
            (f.key H i) (chunkBat H f.streamSecret f.cap.bat i) champ net =
          (.ok (), Function.update net f.cap.writer (some (champ.writeAll id
            ((List.range' i remaining).map fun j =>
              (f.key H j, f.block (q j) (chunkAt f.chunkSize j content)))))) := by
  have hchunk : ∀ j, ∃ p : ChunkParts, p.props = txn.chunkProps tree j ∧
      fileChunk (chunkBat H f.streamSecret f.cap.bat j) mirrorBat f.cap.rBaseKey f.dataKey none
        (f.key H (j + 1), chunkBat H f.streamSecret f.cap.bat (j + 1)) toParent
        (txn.chunkProps tree j) (chunkAt f.chunkSize j content) =
        .ok (f.block p (chunkAt f.chunkSize j content)) := fun j =>
    exists_fileChunk _ _ _ _ _ _ _ _ _
  choose q hq hblock using hchunk
  refine ⟨q, hq, fun remaining => ?_⟩
  have hcount : txn.chunkCount = chunkCount txn.size f.chunkSize := by rw [hf]; rfl
  have htake : content.take txn.size = content := List.take_of_length_le hsize.ge
  induction remaining with
  | zero =>
      intro i champ net _ hnet
      rw [List.range'_zero, List.map_nil, show champ.writeAll id [] = champ from rfl, ← hnet,
        Function.update_eq_self]
      rfl
  | succ remaining ih =>
      intro i champ net hi hnet
      have hread : readExact (content.drop (i * f.chunkSize)) _ = _ :=
        readExact_chunk f.chunkSize_pos (show i < chunkCount txn.size f.chunkSize by omega) hsize.le
      rw [htake, ← hcount] at hread
      unfold uploadTxnLoop
      rw [show txn.streamSecret = f.streamSecret by rw [hf]; rfl,
        show txn.props.chunkSize = f.chunkSize by rw [hf]; rfl,
        show txn.baseKey = f.cap.rBaseKey by rw [hf]; rfl,
        show txn.dataKey = f.dataKey by rw [hf]; rfl,
        Exec.bind_of_ok (by rw [Exec.lift_run, hread])]
      dsimp only
      rw [Exec.bind_of_ok (by rw [Exec.lift_run, f.calculateNextMapKey_key]),
        Exec.bind_of_ok (by rw [Exec.lift_run, hblock]),
        Exec.bind_of_ok (by rw [Exec.lift_run, Tree.put_current]),
        show txn.writer.publicKeyHash = f.cap.writer by rw [hf]; rfl,
        Exec.bind_of_ok (show commitTree f.cap.writer txn.writer _ _ net = (.ok (), _) from
          if_pos (by rw [hf]; rfl)), List.range'_succ, List.map_cons]
      cases remaining with
      | zero => rfl
      | succ remaining =>
          rw [drop_chunk f.chunkSize_pos (show i + 1 < chunkCount txn.size f.chunkSize by omega),
            ih (i + 1) _ _ (by omega) (Function.update_self _ _ _), Function.update_idem]
          rfl

end Loop

/-! ## Resuming -/

/-- A transaction is open for the upload of a content into a directory: nothing is stored yet in the
locations of the file, the directory can be listed, and it takes the link of the file. -/
structure OpenUpload (H : ContentHasher) (limit : ℕ) (dir : DirParams)
    (dirCap : AbsoluteCapability) (txn : FileUploadTransaction) (mirrorBat : Option BatId)
    (content : Bytes) (net : Network) (ctx : DirWriteContext) : Prop where
  mapKey : txn.firstMapKey.length = 32
  chunkSize : 0 < txn.props.chunkSize
  size : txn.size = content.length
  writer : txn.writer.publicKeyHash = dirCap.writer
  tree : (contentTree H txn.props.chunkSize content).toOption.isSome = true
  begins : beginDirWrite net dirCap (some txn.writer) mirrorBat = .ok ctx
  signer : ctx.signer.publicKeyHash = dirCap.writer
  linked : (linkedChamp dir.fuel dir.maxLinks dir.fresh ctx dirCap
    [fileChildLink dirCap txn.props.name txn.props.mimeType txn.props.createdEpoch txn.keys
      txn.writeKey]).toOption.isSome = true
  newKeys : NewKeys H limit txn.keys dir.fresh ctx.champ
  within : txn.chunkCount ≤ limit
  maxLinks : 0 < dir.maxLinks
  holds : ∃ m, HoldsDirectory dir.maxLinks dirCap m ctx.champ
  lists : ∃ fuel entries, listDirectory fuel net dirCap = .ok entries
  fresh : DrawnFresh ctx.champ (dir.fresh.map Prod.fst)

/-- Where the record of a transaction is: the directory of the records, the signer of the home
directory and its chunks, the record, and the places in the home writing space that the removal of
the record looks at or changes. -/
structure RecordPlace where
  tdir : AbsoluteCapability
  signer : SigningPrivateKeyAndPublicHash
  homeChunks : List (Bytes × List NamedRelativeCapability)
  homeTail : Bytes
  file : RecordFile
  places : Bytes → Prop

/-- The record of a transaction is in the `.transactions` directory of the home directory.  If the
upload is into the same writing space it keeps clear of the record and of the chunks of the home
directory, unless it is into the home directory itself. -/
structure RecordOpen (H : ContentHasher) (limit : ℕ) (dir : DirParams)
    (homeCap dirCap : AbsoluteCapability) (txn : FileUploadTransaction) (net : Network) (t : Tree)
    (o : RecordPlace) : Prop where
  space : net homeCap.writer = some t
  sameSpace : o.tdir.writer = homeCap.writer
  home : ListsFrom t homeCap.rBaseKey homeCap.mapKey o.homeChunks o.homeTail
  found : ∃ fuel, transactionsDir fuel net homeCap = .ok (o.tdir, o.signer)
  stored : RecordStored H o.places o.tdir o.signer txn.name t o.file
  homePlaces : (∀ k ∈ o.homeChunks.map Prod.fst ++ [o.homeTail], o.places k) ∨
    homeCap = dirCap ∧ txn.props.name ≠ transactionsDirName
  apart : homeCap.writer = dirCap.writer → Apart o.places t
  notDir : homeCap.writer = dirCap.writer → ¬o.places dirCap.mapKey
  notFresh : homeCap.writer = dirCap.writer → ∀ e ∈ dir.fresh, ¬o.places e.1
  notFile : homeCap.writer = dirCap.writer → ∀ i < limit,
    ¬o.places (chunkKey H txn.streamSecret txn.firstMapKey i)

namespace OpenUpload

variable {H : ContentHasher} {limit : ℕ} {dir : DirParams} {dirCap : AbsoluteCapability}
  {txn : FileUploadTransaction} {mirrorBat : Option BatId} {content : Bytes} {net₀ net : Network}
  {ctx : DirWriteContext} {k : ℕ}

/-- The file. -/
def handle (h : OpenUpload H limit dir dirCap txn mirrorBat content net₀ ctx) : FileHandle :=
  txn.handle h.mapKey h.chunkSize

/-- Its link. -/
def link (_ : OpenUpload H limit dir dirCap txn mirrorBat content net₀ ctx) :
    NamedRelativeCapability :=
  fileChildLink dirCap txn.props.name txn.props.mimeType txn.props.createdEpoch txn.keys txn.writeKey

theorem chunkCount_eq (h : OpenUpload H limit dir dirCap txn mirrorBat content net₀ ctx) :
    txn.chunkCount = chunkCount content.length h.handle.chunkSize := by
  rw [FileUploadTransaction.chunkCount, h.size]
  rfl

/-- The tree with the first `k` chunks. -/
def treeAfter (h : OpenUpload H limit dir dirCap txn mirrorBat content net₀ ctx)
    (q : ℕ → ChunkParts) (k : ℕ) : Tree :=
  ctx.champ.writeAll id ((List.range' 0 k).map fun j =>
    (h.handle.key H j, h.handle.block (q j) (chunkAt h.handle.chunkSize j content)))

variable (h : OpenUpload H limit dir dirCap txn mirrorBat content net₀ ctx) {q : ℕ → ChunkParts}

include h in
theorem treeAfter_key (hk : k ≤ limit) {i : ℕ} (hi : i < limit) :
    h.treeAfter q k (h.handle.key H i) =
      if i < k then some (h.handle.block (q i) (chunkAt h.handle.chunkSize i content)) else none := by
  have hdistinct : h.handle.DistinctKeys H limit := h.newKeys.distinct
  unfold treeAfter
  split
  · exact Tree.writeAll_range (fun a _ ha b _ hb => hdistinct a (by omega) b (by omega))
      (Nat.zero_le i) (by omega)
  · rw [Tree.writeAll_of_not_mem]
    · exact h.newKeys.absent i hi
    · simp only [List.map_map, List.mem_map, List.mem_range'_1, Function.comp]
      rintro ⟨j, ⟨-, hj⟩, heq⟩
      have := hdistinct j (by omega) i hi heq
      omega

include h in
theorem treeAfter_of_not_location (hk : k ≤ limit) {key : Bytes}
    (hkey : ¬h.handle.Location H limit key) : h.treeAfter q k key = ctx.champ key :=
  writeAll_of_not_location hk _ hkey

include h in
theorem not_location_dir : ¬h.handle.Location H limit dirCap.mapKey := by
  obtain ⟨b, hb, -⟩ := Option.map_eq_some_iff.1 (beginDirWrite_ok h.begins).2
  exact NewKeys.not_location (f := h.handle) h.newKeys hb

include h in
/-- The search after `k` chunks. -/
theorem findFirstAbsentChunk_eq (hk : k ≤ txn.chunkCount) {fuel : ℕ} (hfuel : txn.chunkCount < fuel)
    (hnet : net dirCap.writer = some (h.treeAfter q k)) :
    findFirstAbsentChunk H fuel net txn = .ok k := by
  have hwithin := h.within
  have hpos : txn.chunkCount ≠ 0 := (chunkCount_pos _ _).ne'
  unfold findFirstAbsentChunk
  rw [h.writer, hnet]
  dsimp only
  rw [if_neg hpos]
  refine binarySearchAbsentChunk_eq (f := h.handle) (fun i _ hi => ?_) (Nat.zero_le k) hk
    (by omega)
  rw [h.treeAfter_key (by omega) (by omega)]
  split
  · next hik => simpa using hik
  · next hik => simpa using hik

include h in
/-- The hash tree of a resume can be had. -/
theorem exists_resumeTree : ∃ tree, resumeTree H txn content = .ok tree := by
  have htake : content.take txn.size = content := List.take_of_length_le h.size.ge
  obtain ⟨tree, htree⟩ := exists_eq_ok h.tree
  unfold resumeTree
  split
  · exact ⟨_, rfl⟩
  · split
    · have hread := readPass_eq h.chunkSize h.size.le (Nat.zero_add
        (chunkCount txn.size txn.props.chunkSize))
      rw [Nat.zero_mul, List.drop_zero] at hread
      have hbuild := buildTree_readPass (H := H) (c := txn.props.chunkSize) h.size.le
      rw [htake, htree] at hbuild
      rw [htake] at hread
      refine ⟨some tree, ?_⟩
      unfold FileUploadTransaction.chunkCount
      rw [hread, ok_bind, hbuild]
      rfl
    · exact ⟨_, rfl⟩

include h in
/-- The directory is found whatever chunks are there. -/
theorem fetch_dir (hk : k ≤ limit) :
    fetchChunkNode (h.treeAfter q k) dirCap.rBaseKey dirCap.mapKey = some ctx.dirNode := by
  rw [fetchChunkNode, h.treeAfter_of_not_location hk h.not_location_dir]
  exact (beginDirWrite_ok h.begins).2

include h in
/-- More chunks on top of the first `k`. -/
theorem treeAfter_writeAll (q q₁ : ℕ → ChunkParts) {n : ℕ} (hk : k ≤ n) :
    (h.treeAfter q k).writeAll id ((List.range' k (n - k)).map fun j =>
        (h.handle.key H j, h.handle.block (q₁ j) (chunkAt h.handle.chunkSize j content))) =
      h.treeAfter (fun j => if j < k then q j else q₁ j) n := by
  have hsplit : List.range' 0 n = List.range' 0 k ++ List.range' k (n - k) := by
    have := List.range'_append_1 (s := 0) (m := k) (n := n - k)
    rw [Nat.zero_add, show k + (n - k) = n by omega] at this
    exact this.symm
  unfold treeAfter
  rw [hsplit, List.map_append, Tree.writeAll_append]
  congr 1
  · refine List.map_congr_left fun j hj => ?_
    simp only [if_neg (not_lt.2 (List.mem_range'_1.1 hj).1)]
  · congr 1
    refine List.map_congr_left fun j hj => ?_
    have hlt : j < k := by simpa using (List.mem_range'_1.1 hj).2
    simp only [if_pos hlt]

include h in
/-- The chunks from `k` on, if the ones before can be skipped. -/
theorem uploadTxnChunks_run (hk : k ≤ txn.chunkCount)
    (hskip : k * h.handle.chunkSize ≤ content.length)
    (hnet : net dirCap.writer = some (h.treeAfter q k)) (tree : Option HashTree) :
    ∃ q' : ℕ → ChunkParts, (∀ j, q' j = q j ∧ j < k ∨ (q' j).props = txn.chunkProps tree j) ∧
      uploadTxnChunks H dirCap txn tree k mirrorBat content net =
        (.ok (), Function.update net dirCap.writer (some (h.treeAfter q' txn.chunkCount))) := by
  have hwithin := h.within
  obtain ⟨base, hbase⟩ := beginDirWrite_baseBlock h.begins
  obtain ⟨q₁, hq₁, hloop⟩ := uploadTxnLoop_run (H := H) h.handle rfl h.size
    (toParentLink dirCap base.parentOrData) tree mirrorBat
  have hwriter : h.handle.cap.writer = dirCap.writer := h.writer
  have hopen : openWriterRoot net dirCap.writer = .ok (h.treeAfter q k) := by
    rw [openWriterRoot, hnet]
  have hskipped := skipChunks_of_le (H := H) h.handle rfl
    (show (0 + k) * h.handle.chunkSize ≤ content.length by rw [Nat.zero_add]; exact hskip)
  rw [Nat.zero_mul, List.drop_zero, Nat.zero_add] at hskipped
  have hrun := hloop (txn.chunkCount - k) k (h.treeAfter q k) net (by omega)
    (by rw [hwriter]; exact hnet)
  rw [h.treeAfter_writeAll q q₁ hk, hwriter] at hrun
  refine ⟨fun j => if j < k then q j else q₁ j, fun j => ?_, ?_⟩
  · by_cases hj : j < k
    · exact Or.inl ⟨if_pos hj, hj⟩
    · right
      simp only [if_neg hj]
      exact hq₁ j
  · unfold uploadTxnChunks
    rw [Exec.bind_of_ok (by rw [Exec.query_run, hopen]), h.fetch_dir (by omega)]
    dsimp only
    rw [Exec.bind_of_ok (by rw [Exec.lift_run, hbase]), h.writer,
      Exec.bind_of_ok (by rw [Exec.query_run, hopen]),
      Exec.bind_of_ok (by rw [Exec.lift_run]; exact congrArg (·, net) hskipped)]
    exact hrun

include h in
/-- The file is linked: outside its chunks the tree is the one with the new link. -/
theorem addFileChildLink_run (hnet : net dirCap.writer = some (h.treeAfter q txn.chunkCount)) :
    ∃ t', linkedChamp dir.fuel dir.maxLinks dir.fresh ctx dirCap [h.link] = .ok t' ∧
      addFileChildLink dir dirCap (some txn.writer) mirrorBat txn net =
        (.ok h.handle.cap, Function.update net dirCap.writer (some
          (Tree.overlay (h.handle.Location H limit) (h.treeAfter q txn.chunkCount) t'))) := by
  have hnew : NewKeys H limit h.handle.keys dir.fresh ctx.champ := h.newKeys
  have hout : ∀ key, ¬h.handle.Location H limit key →
      h.treeAfter q txn.chunkCount key = ctx.champ key := fun key hkey =>
    h.treeAfter_of_not_location h.within hkey
  have hbegin := beginDirWrite_congr h.begins hnet (hout _ h.not_location_dir)
  have hnode := (beginDirWrite_ok h.begins).2
  obtain ⟨t', ht'⟩ := exists_eq_ok h.linked
  have hchamp : linkedChamp dir.fuel dir.maxLinks dir.fresh
      { ctx with champ := h.treeAfter q txn.chunkCount } dirCap [h.link] =
      .ok (Tree.overlay (h.handle.Location H limit) (h.treeAfter q txn.chunkCount) t') := by
    rw [Tree.eq_overlay hout, linkedChamp_overlay hnew.apart h.not_location_dir hnode
      hnew.not_location_fresh, ← Tree.eq_overlay hout]
    exact congrArg (Except.map _) ht'
  refine ⟨t', ht', ?_⟩
  unfold addFileChildLink
  rw [Exec.bind_of_ok (s := net) (a := h.handle.cap)
      (show Exec.lift _ net = _ from congrArg (·, net) (dif_pos h.mapKey)),
    Exec.bind_of_ok (by rw [Exec.query_run, hbegin])]
  have hfinish : finishDirWriteMulti dir.fuel dir.maxLinks dir.fresh
      { ctx with champ := h.treeAfter q txn.chunkCount } dirCap [h.link] net =
      (.ok (), Function.update net dirCap.writer (some
        (Tree.overlay (h.handle.Location H limit) (h.treeAfter q txn.chunkCount) t'))) := by
    unfold finishDirWriteMulti
    rw [Exec.bind_of_ok (by rw [Exec.lift_run, hchamp]), commitTree, if_pos h.signer]
  exact (Exec.bind_of_ok hfinish).trans rfl

include h in
/-- All chunks of a file in the locations of a tree. -/
theorem storesFile {t : Tree} (hprops : ∀ j, ∃ tree, (q j).props = txn.chunkProps tree j)
    (ht : ∀ i < limit, t (h.handle.key H i) =
      h.treeAfter q txn.chunkCount (h.handle.key H i)) :
    StoresFile H limit h.handle t q content := by
  have hwithin := h.within
  have hcount := h.chunkCount_eq
  refine ⟨by omega, fun i hi => ?_, fun i hi hge => ?_, fun i => ?_, ?_, ?_⟩
  · rw [ht i (by omega), h.treeAfter_key hwithin (by omega), if_pos (by omega)]
  · rw [ht i hi, h.treeAfter_key hwithin hi, if_neg (by omega)]
  · obtain ⟨tree, htree⟩ := hprops i
    rw [htree]
    rfl
  · obtain ⟨tree, htree⟩ := hprops 0
    rw [htree]
    exact h.size
  · obtain ⟨tree, htree⟩ := hprops 0
    rw [htree]
    rfl

end OpenUpload

section Resume

variable {H : ContentHasher} {limit : ℕ} {dir : DirParams} {homeCap dirCap : AbsoluteCapability}
  {txn : FileUploadTransaction} {mirrorBat : Option BatId} {content : Bytes} {net₀ net : Network}
  {s₀ s : Spaces} {ctx : DirWriteContext} {k fuel : ℕ} {toParent : RelativeCapability}
  {tree : Option HashTree} {t t' t₂ : Tree} {o : RecordPlace}

/-- A directory lists a file of this name, and it reads back as the content. -/
def ListsFile (H : ContentHasher) (net : Network) (dirCap : AbsoluteCapability) (name : String)
    (content : Bytes) : Prop :=
  ∃ n entries e props, (∀ fuel, n ≤ fuel → listDirectory fuel net dirCap = .ok entries) ∧
    entries.find? (·.name = name) = some e ∧
    ∀ fuel, n ≤ fuel → readFile H fuel net e.cap = .ok (props, content)

/-- The resume returns, and the directory then lists the file, which reads back as the content. -/
def ResumesTo (H : ContentHasher) (dir : DirParams) (homeCap dirCap : AbsoluteCapability)
    (txn : FileUploadTransaction) (mirrorBat : Option BatId) (content : Bytes) (s : Spaces) : Prop :=
  ∃ n, ∀ fuel, n ≤ fuel → ∃ cap s',
    resumeTransaction H fuel dir homeCap dirCap txn mirrorBat content s = (.ok cap, s') ∧
    ListsFile H s'.network dirCap txn.props.name content

/-! ### The record -/

/-- The places of the directory's writing space that closing the record looks at or changes. -/
def RecordPlace.shared (o : RecordPlace) (homeCap dirCap : AbsoluteCapability) (k : Bytes) : Prop :=
  homeCap.writer = dirCap.writer ∧ o.places k

/-- The tree with the file and its link. -/
structure OpenUpload.Linked (h : OpenUpload H limit dir dirCap txn mirrorBat content net₀ ctx)
    (t' t₂ : Tree) : Prop where
  linked : linkedChamp dir.fuel dir.maxLinks dir.fresh ctx dirCap [h.link] = .ok t'
  elsewhere : ∀ k, ¬h.handle.Location H limit k → t₂ k = t' k

namespace OpenUpload

variable (h : OpenUpload H limit dir dirCap txn mirrorBat content net₀ ctx)

theorem dirNode_filter (h : OpenUpload H limit dir dirCap txn mirrorBat content net₀ ctx) :
    (fetchChunkNode ctx.champ dirCap.rBaseKey dirCap.mapKey).filter (·.isDirectory) =
      some ctx.dirNode := beginDirWrite_dirNode h.begins

/-- The record keeps clear of the directory. -/
theorem shared_apart (h : OpenUpload H limit dir dirCap txn mirrorBat content net₀ ctx)
    (ho : RecordOpen H limit dir homeCap dirCap txn net₀ t o) :
    Apart (o.shared homeCap dirCap) ctx.champ := by
  intro k b hk hb hnext
  have hsame : t = ctx.champ := by
    have hspace := ho.space
    rw [hnext.1, (beginDirWrite_ok h.begins).1] at hspace
    exact (Option.some.inj hspace).symm
  exact ho.apart hnext.1 k b (fun hmem => hk ⟨hnext.1, hmem⟩) (hsame ▸ hb) hnext.2

/-- The directory has the link, also after changes in the places of the record. -/
theorem holds_linked (hlinked : h.Linked t' t₂)
    (ho : RecordOpen H limit dir homeCap dirCap txn net₀ t o)
    {m : String → Option NamedRelativeCapability}
    (hm : HoldsDirectory dir.maxLinks dirCap m ctx.champ) {t₃ : Tree}
    (hframe : ∀ k, ¬o.shared homeCap dirCap k → t₃ k = t₂ k) :
    HoldsDirectory dir.maxLinks dirCap (insertAll (·.name) m [h.link]) t₃ := by
  have hnew : NewKeys H limit h.handle.keys dir.fresh ctx.champ := h.newKeys
  refine hm.of_linked (S := fun k => o.shared homeCap dirCap k ∨ h.handle.Location H limit k)
    h.maxLinks h.dirNode_filter (by exact List.nodup_singleton _) h.fresh ?_ ?_ ?_ hlinked.linked ?_
  · intro k b hk hb hnext
    rw [not_or] at hk
    exact hnext.elim (h.shared_apart ho k b hk.1 hb) (hnew.apart k b hk.2 hb)
  · exact fun hk => hk.elim (fun hk => ho.notDir hk.1 hk.2) h.not_location_dir
  · exact fun e he hk => hk.elim (fun hk => ho.notFresh hk.1 e he hk.2)
      (hnew.not_location_fresh e he)
  · intro k hk
    rw [not_or] at hk
    rw [hframe k hk.1, hlinked.elsewhere k hk.2]

/-- The link leaves the places of the record. -/
theorem linked_places (hlinked : h.Linked t' t₂)
    (ho : RecordOpen H limit dir homeCap dirCap txn net₀ t o) {k : Bytes}
    (hk : o.shared homeCap dirCap k) : t₂ k = ctx.champ k := by
  have hloc : ¬h.handle.Location H limit k := by
    rintro ⟨i, hi, rfl⟩
    exact ho.notFile hk.1 i hi hk.2
  have hsame : t' = Tree.overlay (o.shared homeCap dirCap) ctx.champ t' := by
    have hover : linkedChamp dir.fuel dir.maxLinks dir.fresh
        { ctx with champ := Tree.overlay (o.shared homeCap dirCap) ctx.champ ctx.champ } dirCap
        [h.link] = _ :=
      linkedChamp_overlay (h.shared_apart ho) (fun hk => ho.notDir hk.1 hk.2)
        (beginDirWrite_ok h.begins).2 (fun e he hk => ho.notFresh hk.1 e he hk.2) ctx.champ
    rw [← Tree.eq_overlay fun _ _ => rfl, hlinked.linked] at hover
    exact Except.ok.inj hover
  rw [hlinked.elsewhere k hloc, hsame, Tree.overlay_of_mem hk]

/-- The home writing space after the link. -/
theorem home_space (hlinked : h.Linked t' t₂)
    (ho : RecordOpen H limit dir homeCap dirCap txn net₀ t o)
    (hnet : net = Function.update net₀ dirCap.writer (some t₂)) :
    ∃ t₁, net homeCap.writer = some t₁ ∧ (∀ k, o.places k → t₁ k = t k) ∧
      (homeCap.writer = dirCap.writer → t = ctx.champ ∧ t₁ = t₂) := by
  by_cases hsame : homeCap.writer = dirCap.writer
  · have hchamp : t = ctx.champ := by
      have hspace := ho.space
      rw [hsame, (beginDirWrite_ok h.begins).1] at hspace
      exact (Option.some.inj hspace).symm
    refine ⟨t₂, by rw [hnet, hsame, Function.update_self], fun k hk => ?_, fun _ => ⟨hchamp, rfl⟩⟩
    rw [hchamp]
    exact h.linked_places hlinked ho ⟨hsame, hk⟩
  · exact ⟨t, by rw [hnet, Function.update_of_ne hsame, ho.space], fun _ _ => rfl,
      fun heq => absurd heq hsame⟩

/-- The directory of the records is found as before. -/
theorem transactionsDir_run (hlinked : h.Linked t' t₂)
    (ho : RecordOpen H limit dir homeCap dirCap txn net₀ t o)
    (hnet : net = Function.update net₀ dirCap.writer (some t₂)) :
    ∃ n, ∀ fuel, n ≤ fuel → transactionsDir fuel net homeCap = .ok (o.tdir, o.signer) := by
  obtain ⟨n, hfound⟩ := ho.found
  obtain ⟨t₁, ht₁, hplaces, hsame⟩ := h.home_space hlinked ho hnet
  rcases ho.homePlaces with hhome | ⟨rfl, hname⟩
  · refine ⟨n, fun fuel hfuel => ?_⟩
    rw [transactionsDir_congr ho.home ho.space ht₁ (fun k hk => hplaces k (hhome k hk))]
    exact transactionsDir_mono hfuel hfound
  · -- an upload into the home directory adds a link beside that of the records
    obtain ⟨rfl, rfl⟩ := hsame rfl
    obtain ⟨m, hm⟩ := h.holds
    obtain ⟨fuel, listed, hlisted⟩ := h.lists
    obtain ⟨signer, hsigner, hfound⟩ := bind_eq_ok.1 hfound
    obtain ⟨entries, hentries, hfound⟩ := bind_eq_ok.1 hfound
    have hholds : HoldsDirectory dir.maxLinks homeCap (insertAll (·.name) m [h.link]) t₁ :=
      h.holds_linked hlinked ho hm fun _ _ => rfl
    obtain ⟨b, hb, -⟩ := Option.map_eq_some_iff.1 (beginDirWrite_ok h.begins).2
    have hkept : recoverSigner net homeCap = .ok signer := by
      obtain ⟨b', hb', hhead⟩ := linkedChamp_head (beginDirWrite_ok h.begins).2 hlinked.linked hb
      rw [recoverSigner_congr ho.space ht₁ hb ((hlinked.elsewhere _ h.not_location_dir).trans hb')
        hhead, hsigner]
    cases hfind : entries.find? (·.name = transactionsDirName) with
    | none =>
        rw [hfind] at hfound
        cases hfound
    | some e =>
        rw [hfind] at hfound
        obtain ⟨htdir, hsigned⟩ := Prod.mk.inj (Except.ok.inj hfound)
        obtain ⟨link, hlink, he⟩ := hm.link_of_find ho.space hentries hfind
        obtain ⟨n', entries', hlist, -, hother⟩ :=
          hm.exists_listing_insert ho.space hlisted h.mapKey ht₁ hholds
        refine ⟨n', fun fuel hfuel => ?_⟩
        unfold transactionsDir
        rw [hkept, ok_bind, hlist fuel hfuel, ok_bind, hother _ hname.symm link e hlink he, ← htdir,
          ← hsigned]
        rfl

/-- The record is closed. -/
theorem close_run (hlinked : h.Linked t' t₂)
    (ho : RecordOpen H limit dir homeCap dirCap txn net₀ t o)
    (hnet : s.network = Function.update net₀ dirCap.writer (some t₂)) :
    ∃ n, ∀ fuel, n ≤ fuel → ∃ s' t₃, closeTransactionRecord H fuel homeCap txn.name s =
        (.ok (), s') ∧ s'.network dirCap.writer = some t₃ ∧
      ∀ k, ¬o.shared homeCap dirCap k → t₃ k = t₂ k := by
  obtain ⟨n, hfound⟩ := h.transactionsDir_run hlinked ho hnet
  obtain ⟨t₁, ht₁, hplaces, hsame⟩ := h.home_space hlinked ho hnet
  refine ⟨max n o.file.chunks.length, fun fuel hfuel => ?_⟩
  obtain ⟨s', t₃, hrun, hnet', hframe⟩ := (ho.stored.congr hplaces).close_run
    (hfound fuel (by omega)) (by rw [ho.sameSpace, ht₁]) (by omega)
  rw [ho.sameSpace] at hnet'
  by_cases hw : homeCap.writer = dirCap.writer
  · obtain ⟨-, rfl⟩ := hsame hw
    refine ⟨s', t₃, hrun, by rw [hnet', hw, Function.update_self], fun k hk => ?_⟩
    exact hframe k fun hmem => hk ⟨hw, hmem⟩
  · refine ⟨s', t₂, hrun, ?_, fun _ _ => rfl⟩
    rw [hnet', Function.update_of_ne (Ne.symm hw), hnet, Function.update_self]

end OpenUpload

/-! ### Skipping -/

/-- The chunks of an upload can be skipped up to a missing one, and all of them if they are full. -/
theorem skippable_iff {size c : ℕ} (hc : 0 < c) (hk : k ≤ chunkCount size c) :
    (k = 0 ∨ k * c ≤ size) ↔ k < chunkCount size c ∨ (0 < size ∧ c ∣ size) := by
  have hpos := chunkCount_pos size c
  have hle := size_le_chunkCount_mul size hc
  constructor
  · rintro (rfl | hkc)
    · exact Or.inl hpos
    · by_cases hlt : k < chunkCount size c
      · exact Or.inl hlt
      · obtain rfl : k = chunkCount size c := by omega
        have heq : size = chunkCount size c * c := by omega
        exact Or.inr ⟨heq ▸ Nat.mul_pos hpos hc, ⟨chunkCount size c, by rw [Nat.mul_comm]; exact heq⟩⟩
  · rintro (hlt | ⟨hsize, m, rfl⟩)
    · exact ((lt_chunkCount_iff hc).1 hlt).imp_right Nat.le_of_lt
    · right
      have hm : chunkCount (c * m) c ≤ m := by
        by_contra hgt
        rcases (lt_chunkCount_iff hc).1 (not_le.1 hgt) with rfl | h
        · exact absurd hsize (by simp)
        · rw [Nat.mul_comm] at h
          exact lt_irrefl _ h
      rw [Nat.mul_comm c m]
      exact Nat.mul_le_mul_right c (hk.trans hm)

/-- The spaces an upload was interrupted in. -/
theorem OpenUpload.interrupted
    (h : OpenUpload H limit dir dirCap txn mirrorBat content s₀.network ctx)
    (hk : k ≤ txn.chunkCount)
    (hwritten : onTrees (uploadTxnLoop H txn toParent tree mirrorBat k 0 content txn.firstMapKey
      txn.firstBat ctx.champ) s₀ = (.ok (), s)) :
    ∃ q : ℕ → ChunkParts, (∀ j, (q j).props = txn.chunkProps tree j) ∧
      s.network = Function.update s₀.network dirCap.writer (some (h.treeAfter q k)) := by
  obtain ⟨q, hq, hloop⟩ := uploadTxnLoop_run (H := H) h.handle rfl h.size toParent tree mirrorBat
  have hwriter : h.handle.cap.writer = dirCap.writer := h.writer
  have hrun := hloop k 0 ctx.champ s₀.network (by omega) (by
    rw [hwriter]
    exact (beginDirWrite_ok h.begins).1)
  rw [Nat.zero_mul, List.drop_zero, hwriter] at hrun
  exact ⟨q, hq, (Prod.mk.inj ((onTrees_eq_ok hwritten).symm.trans hrun)).2⟩

/-- The file that is linked and stored is listed and reads back. -/
theorem OpenUpload.listsFile
    (h : OpenUpload H limit dir dirCap txn mirrorBat content net₀ ctx)
    (hlinked : h.Linked t' t₂) (ho : RecordOpen H limit dir homeCap dirCap txn net₀ t o)
    {q : ℕ → ChunkParts} (hq : ∀ j, ∃ tree, (q j).props = txn.chunkProps tree j)
    (ht₂ : ∀ i < limit, t₂ (h.handle.key H i) = h.treeAfter q txn.chunkCount (h.handle.key H i))
    {t₃ : Tree} (hnet : net dirCap.writer = some t₃)
    (hframe : ∀ k, ¬o.shared homeCap dirCap k → t₃ k = t₂ k) :
    ListsFile H net dirCap txn.props.name content := by
  have hwriter : h.handle.cap.writer = dirCap.writer := h.writer
  obtain ⟨m, hm⟩ := h.holds
  obtain ⟨fuel, listed, hlisted⟩ := h.lists
  obtain ⟨n, entries, hlist, ⟨e, hfind, hew, hek, heb, her⟩, -⟩ :=
    hm.exists_listing_insert (beginDirWrite_ok h.begins).1 hlisted h.mapKey hnet
      (h.holds_linked hlinked ho hm hframe)
  have hstores : StoresFile H limit h.handle t₃ q content :=
    h.storesFile hq fun i hi =>
      (hframe _ fun hk => ho.notFile hk.1 i hi hk.2).trans (ht₂ i hi)
  refine ⟨max n txn.chunkCount, entries, e, (q 0).props, fun fuel hfuel => hlist fuel (by omega),
    hfind, fun fuel hfuel => ?_⟩
  rw [readFile_congr H (hew.trans hwriter.symm) hek heb her]
  refine hstores.readFile_eq (by rw [hwriter]; exact hnet) ?_
  rw [← h.chunkCount_eq]
  omega

/-- A resume that can skip the chunks that are there. -/
theorem OpenUpload.resumesTo
    (h : OpenUpload H limit dir dirCap txn mirrorBat content s₀.network ctx)
    (ho : RecordOpen H limit dir homeCap dirCap txn s₀.network t o) (hk : k ≤ txn.chunkCount)
    {q : ℕ → ChunkParts} (hq : ∀ j, (q j).props = txn.chunkProps tree j)
    (hnet : s.network = Function.update s₀.network dirCap.writer (some (h.treeAfter q k)))
    (hskip : k * h.handle.chunkSize ≤ content.length) :
    ResumesTo H dir homeCap dirCap txn mirrorBat content s := by
  have hself : s.network dirCap.writer = some (h.treeAfter q k) := by
    rw [hnet, Function.update_self]
  obtain ⟨tree', htree'⟩ := h.exists_resumeTree
  obtain ⟨q', hq', hchunks⟩ := h.uploadTxnChunks_run hk hskip hself tree'
  rw [hnet, Function.update_idem, ← hnet] at hchunks
  set s₁ := Spaces.withNetwork (Function.update s₀.network dirCap.writer
    (some (h.treeAfter q' txn.chunkCount))) s with hs₁
  have hnet₁ : s₁.network = Function.update s₀.network dirCap.writer
      (some (h.treeAfter q' txn.chunkCount)) := network_withNetwork _ _
  obtain ⟨t', hlinked, hlink⟩ := h.addFileChildLink_run
    (show s₁.network dirCap.writer = some (h.treeAfter q' txn.chunkCount) by
      rw [hnet₁, Function.update_self])
  rw [hnet₁, Function.update_idem, ← hnet₁] at hlink
  set t₂ := Tree.overlay (h.handle.Location H limit) (h.treeAfter q' txn.chunkCount) t' with ht₂
  set s₂ := Spaces.withNetwork (Function.update s₀.network dirCap.writer (some t₂)) s₁ with hs₂
  have hnet₂ : s₂.network = Function.update s₀.network dirCap.writer (some t₂) :=
    network_withNetwork _ _
  have hlinked : h.Linked t' t₂ := ⟨hlinked, fun k hk => Tree.overlay_of_not_mem hk⟩
  obtain ⟨n, hclose⟩ := h.close_run hlinked ho hnet₂
  refine ⟨max n (txn.chunkCount + 1), fun fuel hfuel => ?_⟩
  obtain ⟨s₃, t₃, hclosed, hnet₃, hframe⟩ := hclose fuel (by omega)
  have hprops : ∀ j, ∃ tree, (q' j).props = txn.chunkProps tree j := fun j =>
    (hq' j).elim (fun hj => ⟨tree, hj.1 ▸ hq j⟩) fun hj => ⟨tree', hj⟩
  refine ⟨h.handle.cap, s₃, ?_, h.listsFile hlinked ho hprops (fun i hi => ?_) hnet₃ hframe⟩
  · unfold resumeTransaction
    rw [Exec.bind_of_ok (by
        rw [Exec.query_run, h.findFirstAbsentChunk_eq hk (by omega) hself]),
      Exec.bind_of_ok (by rw [Exec.lift_run, htree']), Exec.bind_of_ok (onTrees_of_ok hchunks),
      Exec.bind_of_ok (onTrees_of_ok hlink), Exec.bind_of_ok hclosed]
    rfl
  · exact Tree.overlay_of_mem ⟨i, hi, rfl⟩

/-- A resume that returns has skipped the chunks that are there. -/
theorem OpenUpload.skipped_of_resumesTo
    (h : OpenUpload H limit dir dirCap txn mirrorBat content net₀ ctx) (hk : k ≤ txn.chunkCount)
    {q : ℕ → ChunkParts} (hnet : s.network dirCap.writer = some (h.treeAfter q k))
    (hresumes : ResumesTo H dir homeCap dirCap txn mirrorBat content s) :
    k = 0 ∨ k * h.handle.chunkSize ≤ content.length := by
  obtain ⟨n, hresumes⟩ := hresumes
  obtain ⟨cap, s', hrun, -⟩ := hresumes (max n (txn.chunkCount + 1)) (by omega)
  unfold resumeTransaction at hrun
  rw [Exec.bind_of_ok (by
    rw [Exec.query_run, h.findFirstAbsentChunk_eq hk (by omega) hnet])] at hrun
  obtain ⟨tree, -, hrun⟩ := Exec.lift_bind_eq_ok hrun
  obtain ⟨⟨⟩, s₁, hchunks, -⟩ := Exec.bind_eq_ok hrun
  have hchunks := onTrees_eq_ok hchunks
  unfold uploadTxnChunks at hchunks
  have hwithin := h.within
  have hopen : openWriterRoot s.network dirCap.writer = .ok (h.treeAfter q k) := by
    rw [openWriterRoot, hnet]
  rw [Exec.bind_of_ok (by rw [Exec.query_run, hopen]), h.fetch_dir (by omega)] at hchunks
  dsimp only at hchunks
  obtain ⟨base, -, hchunks⟩ := Exec.lift_bind_eq_ok hchunks
  obtain ⟨champ, -, hchunks⟩ := Exec.query_bind_eq_ok hchunks
  obtain ⟨r, hskip, -⟩ := Exec.lift_bind_eq_ok hchunks
  have hle := le_of_skipChunks (H := H) (i := 0) h.handle rfl
    (r := r) (show skipChunks H txn k _ _ (content.drop (0 * h.handle.chunkSize)) = _ by
      rw [Nat.zero_mul, List.drop_zero]
      exact hskip)
  rw [Nat.zero_add] at hle
  exact hle

/-- **When an interrupted upload can be resumed.**  An upload that stopped after `k` of its chunks
is resumed from its record, and the directory then lists the file, which reads back, exactly if a
chunk is missing or the chunks are all full. -/
theorem resume_iff (h : OpenUpload H limit dir dirCap txn mirrorBat content s₀.network ctx)
    (ho : RecordOpen H limit dir homeCap dirCap txn s₀.network t o) (hk : k ≤ txn.chunkCount)
    (hwritten : onTrees (uploadTxnLoop H txn toParent tree mirrorBat k 0 content txn.firstMapKey
      txn.firstBat ctx.champ) s₀ = (.ok (), s)) :
    ResumesTo H dir homeCap dirCap txn mirrorBat content s ↔
      k < txn.chunkCount ∨ (0 < txn.size ∧ txn.props.chunkSize ∣ txn.size) := by
  obtain ⟨q, hq, hnet⟩ := h.interrupted hk hwritten
  have hiff := skippable_iff h.chunkSize hk
  have hlen : k * h.handle.chunkSize ≤ content.length ↔ k * txn.props.chunkSize ≤ txn.size := by
    rw [h.size]
    rfl
  constructor
  · intro hresumes
    refine hiff.1 ((h.skipped_of_resumesTo hk (q := q) ?_ hresumes).imp_right hlen.1)
    rw [hnet, Function.update_self]
  · intro hcond
    refine h.resumesTo ho hk hq hnet ?_
    rcases hiff.2 hcond with rfl | hle
    · omega
    · exact hlen.2 hle

end Resume

/-! ## A home directory with a record -/

/-- The node of a directory with keys made of the bytes after `n`. -/
def dirBlockAt (n : UInt8) (signer : Option (CipherText SigningPrivateKeyAndPublicHash))
    (children : List NamedRelativeCapability) : CryptreeBlock :=
  ⟨[], .build (byteSymmetricKey (n + 1)) ⟨byteSymmetricKey (n + 2), signer,
      .subsequentChunk (List.replicate 32 (n + 3)) none (byteSymmetricKey (n + 1))⟩,
    .build (byteSymmetricKey (n + 2))
      ⟨none, ⟨"", true, false, "", 0, false, 0, 0, none, none, none, legacyChunkSize⟩⟩,
    .build (byteSymmetricKey (n + 1)) (.named children)⟩

/-- The home directory: it has the signer of its writer. -/
def byteHomeCap : AbsoluteCapability :=
  ⟨byteKey 1, byteKey 2, List.replicate 32 30, none, byteSymmetricKey 31,
    some (byteSymmetricKey 29), rfl⟩

/-- The directory of the records. -/
def byteRecordsCap : AbsoluteCapability :=
  ⟨byteKey 1, byteKey 2, List.replicate 32 40, none, byteSymmetricKey 41,
    some (byteSymmetricKey 39), rfl⟩

/-- The link to it. -/
def byteRecordsLink : NamedRelativeCapability :=
  ⟨transactionsDirName, ⟨none, List.replicate 32 40, none, byteSymmetricKey 41,
    some (.build (byteSymmetricKey 29) (byteSymmetricKey 39))⟩, some true, none, none⟩

/-- A home directory, the directory of the records with the record `a`, and an empty directory. -/
def uploadTree : Tree := fun k =>
  if k = List.replicate 32 3 then some rootBlock
  else if k = List.replicate 32 30 then
    some (dirBlockAt 30 (some (.build (byteSymmetricKey 29) (byteSigner 2))) [byteRecordsLink])
  else if k = List.replicate 32 40 then some (dirBlockAt 40 none [byteLink "a" 50])
  else if k = List.replicate 32 50 then some emptyFile
  else none

/-- Nothing but these. -/
def uploadSpaces : Spaces := fun w => if w = byteKey 2 then some ⟨uploadTree, none⟩ else none

/-- The transaction of a file in the empty directory. -/
def rootTransaction (size : ℕ) : FileUploadTransaction :=
  ⟨"a", byteKey 1, byteSigner 2, List.replicate 32 7, none,
    { FileProperties.newFile "b" "text/plain" size 0 (List.replicate 32 10) none with
      chunkSize := legacyChunkSize },
    byteSymmetricKey 8, byteSymmetricKey 9, byteSymmetricKey 11, List.replicate 32 10, size, none⟩

/-- The context of a write to the empty directory. -/
def uploadContext : DirWriteContext := { rootContext with champ := uploadTree }

/-- The places of the record, of its directory and of the home directory. -/
def recordKeys : List Bytes := [30, 33, 40, 43, 50].map (List.replicate 32)

/-- Where the record is. -/
def byteRecordPlace : RecordPlace where
  tdir := byteRecordsCap
  signer := byteSigner 2
  homeChunks := [(List.replicate 32 30, [byteRecordsLink])]
  homeTail := List.replicate 32 33
  file := ⟨[(List.replicate 32 40, [byteLink "a" 50])], List.replicate 32 43, byteLink "a" 50,
    CryptreeNode.fromCbor emptyFile (byteSymmetricKey 8), emptyFile.fromParentKey.secret.properties⟩
  places k := k ∈ recordKeys

/-- A block of the sample, and where it leads. -/
theorem uploadTree_eq_some {k : Bytes} {b : CryptreeBlock} (h : uploadTree k = some b) :
    k = List.replicate 32 3 ∧ b = rootBlock ∨
      k ∈ recordKeys ∧ b.fromBaseKey.secret.nextChunk.mapKey ∈
        [33, 43, 12].map (List.replicate 32) := by
  unfold uploadTree at h
  split_ifs at h with h₁ h₂ h₃ h₄ <;> cases h
  · exact Or.inl ⟨h₁, rfl⟩
  · exact Or.inr ⟨h₂ ▸ by decide, by decide⟩
  · exact Or.inr ⟨h₃ ▸ by decide, by decide⟩
  · exact Or.inr ⟨h₄ ▸ by decide, by decide⟩

/-- The chunks of the file are in none of these places. -/
theorem rootTransaction_keys : (∀ i < 2,
      chunkKey legacyHasher (List.replicate 32 10) (List.replicate 32 7) i ∉
        [3, 6, 12, 30, 33, 40, 43, 50].map (List.replicate 32)) ∧
    ∀ i < 2, ∀ j < 2, chunkKey legacyHasher (List.replicate 32 10) (List.replicate 32 7) i =
      chunkKey legacyHasher (List.replicate 32 10) (List.replicate 32 7) j → i = j := by
  decide +kernel

theorem newKeys_rootTransaction (size : ℕ) :
    NewKeys legacyHasher 2 (rootTransaction size).keys rootParams.fresh uploadTree := by
  obtain ⟨hout, hdistinct⟩ := rootTransaction_keys
  have hrecord : recordKeys ⊆ [3, 6, 12, 30, 33, 40, 43, 50].map (List.replicate 32) := by decide
  have hleads : ([33, 43, 12] : Bytes).map (List.replicate 32) ⊆
      [3, 6, 12, 30, 33, 40, 43, 50].map (List.replicate 32) := by decide
  refine ⟨hdistinct, fun i hi => ?_, fun k b hb i hi heq => ?_,
    fun e he => absurd he List.not_mem_nil⟩
  · refine Option.eq_none_iff_forall_ne_some.2 fun b hb => hout i hi ?_
    rcases uploadTree_eq_some hb with ⟨hk, -⟩ | ⟨hk, -⟩
    · exact hk.symm ▸ by decide
    · exact hrecord hk
  · refine hout i hi ?_
    rcases uploadTree_eq_some hb with ⟨-, rfl⟩ | ⟨-, hnext⟩
    · exact heq ▸ by decide
    · exact hleads (heq ▸ hnext)

theorem listsFrom_root : ListsFrom uploadTree rootCap.rBaseKey rootCap.mapKey
    [(List.replicate 32 3, [])] (List.replicate 32 6) :=
  ⟨rfl, List.replicate 32 6, ⟨_, _, rfl, rfl, rfl, rfl⟩, rfl, Bool.false_ne_true⟩

theorem listsFrom_home : ListsFrom uploadTree byteHomeCap.rBaseKey byteHomeCap.mapKey
    byteRecordPlace.homeChunks byteRecordPlace.homeTail :=
  ⟨rfl, List.replicate 32 33, ⟨_, _, rfl, rfl, rfl, rfl⟩, rfl, Bool.false_ne_true⟩

theorem listsFrom_records : ListsFrom uploadTree byteRecordsCap.rBaseKey byteRecordsCap.mapKey
    byteRecordPlace.file.chunks byteRecordPlace.file.tail :=
  ⟨rfl, List.replicate 32 43, ⟨_, _, rfl, rfl, rfl, rfl⟩, rfl, Bool.false_ne_true⟩

/-- An upload of up to two chunks can be started. -/
theorem openUpload_root {content : Bytes} (hlimit : chunkCount content.length legacyChunkSize ≤ 2) :
    OpenUpload legacyHasher 2 rootParams rootCap (rootTransaction content.length) none content
      uploadSpaces.network uploadContext where
  mapKey := rfl
  chunkSize := (by decide : 0 < legacyChunkSize)
  size := rfl
  writer := rfl
  tree := by
    obtain ⟨tree, htree⟩ := exists_contentTree (H := legacyHasher) (c := legacyChunkSize)
      (hlimit.trans (by decide))
    exact congrArg (fun r => r.toOption.isSome) htree
  begins := rfl
  signer := rfl
  linked := rfl
  newKeys := newKeys_rootTransaction _
  within := hlimit
  maxLinks := by decide
  holds := by
    refine ⟨fun _ => none, _, _, listsFrom_root, List.cons_ne_nil _ _, fun c hc => ?_, ?_⟩
    · rw [List.mem_singleton.1 hc]
      exact Nat.zero_le _
    · exact ⟨List.nodup_nil, fun k a => iff_of_false (by simp) fun h => absurd h.1 List.not_mem_nil⟩
  lists := ⟨1, [], rfl⟩
  fresh := ⟨List.nodup_nil, fun k hk => absurd hk List.not_mem_nil,
    fun k hk => absurd hk List.not_mem_nil⟩

/-- The record is stored. -/
theorem recordStored_root : RecordStored legacyHasher byteRecordPlace.places byteRecordsCap
    (byteSigner 2) "a" uploadTree byteRecordPlace.file where
  lists := listsFrom_records
  names := List.nodup_singleton _
  resolves l hl := by
    rw [List.mem_singleton.1 hl]
    exact ⟨_, rfl⟩
  listed := List.mem_singleton_self _
  named := rfl
  space := rfl
  node := rfl
  properties := rfl
  plain := ⟨rfl, rfl, rfl⟩
  signed dirNode own hnode hown := by
    cases hnode
    cases hown
    rfl
  apart := by decide
  dirPlaces k hk := by
    have hsub : [40, 43].map (List.replicate 32) ⊆ recordKeys := by decide
    exact hsub hk
  place := (by decide : List.replicate 32 50 ∈ recordKeys)
  places secret hsecret := by cases hsecret

/-- The record is open. -/
theorem recordOpen_root (size : ℕ) :
    RecordOpen legacyHasher 2 rootParams byteHomeCap rootCap (rootTransaction size)
      uploadSpaces.network uploadTree byteRecordPlace where
  space := rfl
  sameSpace := rfl
  home := listsFrom_home
  found := ⟨1, rfl⟩
  stored := recordStored_root
  homePlaces := Or.inl fun k hk => by
    have hsub : [30, 33].map (List.replicate 32) ⊆ recordKeys := by decide
    exact hsub hk
  apart _ k b hk hb := by
    rcases uploadTree_eq_some hb with ⟨-, rfl⟩ | ⟨hmem, -⟩
    · exact (by decide : List.replicate 32 6 ∉ recordKeys)
    · exact absurd hmem hk
  notDir _ := (by decide : List.replicate 32 3 ∉ recordKeys)
  notFresh _ e he := absurd he List.not_mem_nil
  notFile _ i hi hmem := by
    have hrecord : recordKeys ⊆ [3, 6, 12, 30, 33, 40, 43, 50].map (List.replicate 32) := by decide
    exact rootTransaction_keys.1 i hi (hrecord hmem)

/-- The chunks of a file of up to two chunks, written one by one. -/
theorem exists_interrupted {content : Bytes}
    (hlimit : chunkCount content.length legacyChunkSize ≤ 2) {k : ℕ}
    (hk : k ≤ (rootTransaction content.length).chunkCount) :
    ∃ s, onTrees (uploadTxnLoop legacyHasher (rootTransaction content.length)
      (toParentLink rootCap (byteSymmetricKey 5)) none none k 0 content (List.replicate 32 7) none
      uploadTree) uploadSpaces = (.ok (), s) := by
  have h := openUpload_root hlimit
  obtain ⟨q, -, hloop⟩ := uploadTxnLoop_run (H := legacyHasher) h.handle rfl h.size
    (toParentLink rootCap (byteSymmetricKey 5)) none none
  have hrun := hloop k 0 uploadTree uploadSpaces.network (by omega) rfl
  rw [Nat.zero_mul, List.drop_zero] at hrun
  exact ⟨_, onTrees_of_ok hrun⟩

/-- A file of a chunk and three bytes, interrupted after its first chunk. -/
theorem resume_iff_secondChunk :
    ∃ s, onTrees (uploadTxnLoop legacyHasher (rootTransaction (legacyChunkSize + 3))
        (toParentLink rootCap (byteSymmetricKey 5)) none none 1 0
        (List.replicate (legacyChunkSize + 3) 1) (List.replicate 32 7) none uploadTree)
        uploadSpaces = (.ok (), s) ∧
      ResumesTo legacyHasher rootParams byteHomeCap rootCap (rootTransaction (legacyChunkSize + 3))
        none (List.replicate (legacyChunkSize + 3) 1) s := by
  have hlen : (List.replicate (legacyChunkSize + 3) (1 : UInt8)).length = legacyChunkSize + 3 :=
    List.length_replicate
  have hlimit : chunkCount (List.replicate (legacyChunkSize + 3) (1 : UInt8)).length
      legacyChunkSize ≤ 2 := by
    rw [hlen]
    decide
  have hk : 1 < (rootTransaction
      (List.replicate (legacyChunkSize + 3) (1 : UInt8)).length).chunkCount := by
    rw [hlen]
    decide
  obtain ⟨s, hs⟩ := exists_interrupted hlimit hk.le
  have hresumes := (resume_iff (openUpload_root hlimit) (recordOpen_root _) hk.le hs).2 (Or.inl hk)
  rw [hlen] at hs hresumes
  exact ⟨s, hs, hresumes⟩

/-- All chunks of three bytes are there when the upload stops, before the link is made: the resume
then asks the reader for a whole chunk, and fails. -/
theorem lastChunk_not_resumed : ∃ s,
    onTrees (uploadTxnLoop legacyHasher (rootTransaction 3)
        (toParentLink rootCap (byteSymmetricKey 5)) none none (rootTransaction 3).chunkCount 0
        [1, 2, 3] (List.replicate 32 7) none uploadTree) uploadSpaces = (.ok (), s) ∧
      ¬ResumesTo legacyHasher rootParams byteHomeCap rootCap (rootTransaction 3) none [1, 2, 3] s := by
  have h : OpenUpload legacyHasher 2 rootParams rootCap (rootTransaction 3) none [1, 2, 3]
      uploadSpaces.network uploadContext := openUpload_root
    (show chunkCount ([1, 2, 3] : Bytes).length legacyChunkSize ≤ 2 by decide)
  obtain ⟨s, hs⟩ := exists_interrupted
    (show chunkCount ([1, 2, 3] : Bytes).length legacyChunkSize ≤ 2 by decide) le_rfl
  refine ⟨s, hs, fun hresumes => ?_⟩
  obtain ⟨q, -, hnet⟩ := h.interrupted le_rfl hs
  rcases h.skipped_of_resumesTo le_rfl (q := q) (by rw [hnet, Function.update_self]) hresumes with
    hzero | hle
  · exact absurd hzero (by decide)
  · exact absurd hle (by decide : ¬(rootTransaction 3).chunkCount * legacyChunkSize ≤ 3)

end Peergos
