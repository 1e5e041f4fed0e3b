import PeergosClient.Fs.Edit

/-!
# Laying out a whole content

Uploads and rewrites build the nodes of all chunks of a content, each chunk at the head of a group
of 1024 with its branch of the hash tree.  A rewrite puts them in place of the old ones under the
same map keys, and drops the old chunks past the new end.
-/

namespace Peergos

open Chunks

variable {H : ContentHasher} {limit : ℕ} {f : FileHandle} {t : Tree} {parts : ℕ → ChunkParts}
  {content : Bytes}

/-- The keys and the location a handle is about. -/
def FileHandle.keys (f : FileHandle) : FileKeys :=
  ⟨f.cap.mapKey, f.cap.bat, f.cap.rBaseKey, f.dataKey, f.streamSecret⟩

theorem FileHandle.calculateNextMapKey_key (H : ContentHasher) (f : FileHandle) (i : ℕ) :
    calculateNextMapKey H f.streamSecret (f.key H i) (chunkBat H f.streamSecret f.cap.bat i) =
      .ok (f.key H (i + 1), chunkBat H f.streamSecret f.cap.bat (i + 1)) :=
  calculateNextMapKey_chunk H f.streamSecret f.cap.mapKey f.cap.bat i

/-- The first chunk of each group of 1024 stores its branch of the hash tree of the content. -/
def Hashed (H : ContentHasher) (c : ℕ) (content : Bytes) (parts : ℕ → ChunkParts) : Prop :=
  ∃ tree, contentTree H c content = .ok tree ∧ ∀ i, (parts i).props.treeHash =
    if i % 1024 = 0 then some (tree.branch i) else none

theorem Hashed.fresh {c : ℕ} (h : Hashed H c content parts) (i : ℕ) :
    FreshHash H c content i (parts i) := by
  obtain ⟨tree, htree, hparts⟩ := h
  by_cases hi : i % 1024 = 0
  · exact Or.inr ⟨tree, htree, by rw [hparts, if_pos hi]⟩
  · exact Or.inl (by rw [hparts, if_neg hi])

/-- The properties of a fresh layout. -/
theorem hashed_chunkProps {name mime : String} {size : ℕ} {created : ℤ} {streamSecret : Bytes}
    {thumbnail : Option (String × Bytes)} {c : ℕ} {hidden : Bool} {tree : HashTree}
    (htree : contentTree H c content = .ok tree) {q : ℕ → ChunkParts}
    (hq : ∀ i, (q i).props =
      chunkProps name mime size created streamSecret thumbnail c hidden tree i) :
    Hashed H c content q := ⟨tree, htree, fun i => by rw [hq, chunkProps]⟩

/-- The nodes `write_file_chunks` builds from chunk `i` on. -/
theorem writeFileChunksLoop_eq (H : ContentHasher) (f : FileHandle) (toParent : RelativeCapability)
    (writerLink : Option (CipherText SigningPrivateKeyAndPublicHash)) (name mime : String)
    (created : ℤ) (thumbnail : Option (String × Bytes)) (mirrorBat : Option BatId)
    (content : Bytes) (tree : HashTree) (remaining i : ℕ) :
    ∃ q : ℕ → ChunkParts,
      (∀ j, (q j).props = chunkProps name mime content.length created f.streamSecret thumbnail
        f.chunkSize false tree j) ∧
      writeFileChunksLoop H f.keys f.chunkSize toParent writerLink name mime created thumbnail
          mirrorBat content tree remaining i (f.key H i) (chunkBat H f.streamSecret f.cap.bat i) =
        .ok ((List.range' i remaining).map fun j =>
          (f.key H j, f.block (q j) (chunkAt f.chunkSize j content))) := by
  -- chunk by chunk: what can be built at each index, independently of the loop
  have hchunk : ∀ j, ∃ p : ChunkParts,
      p.props = chunkProps name mime content.length created f.streamSecret thumbnail
        f.chunkSize false tree j ∧
      fileChunk (chunkBat H f.streamSecret f.cap.bat j) mirrorBat f.cap.rBaseKey f.dataKey
        (if j = 0 then writerLink else none)
        (f.key H (j + 1), chunkBat H f.streamSecret f.cap.bat (j + 1)) toParent
        (chunkProps name mime content.length created f.streamSecret thumbnail f.chunkSize false tree
          j) (chunkAt f.chunkSize j content) =
        .ok (f.block p (chunkAt f.chunkSize j content)) := fun j => exists_fileChunk _ _ _ _ _ _ _ _ _
  choose q hq hblock using hchunk
  refine ⟨q, hq, ?_⟩
  induction remaining generalizing i with
  | zero => rfl
  | succ remaining ih =>
      unfold writeFileChunksLoop
      rw [show f.keys.streamSecret = f.streamSecret from rfl, f.calculateNextMapKey_key]
      simp only [bind, Except.bind]
      rw [show fileChunk (chunkBat H f.streamSecret f.cap.bat i) mirrorBat f.keys.rBaseKey
        f.keys.dataKey _ _ _ _ _ = _ from hblock i]
      simp only [ih (i + 1), pure, Except.pure, List.range'_succ, List.map_cons]

/-- What `write_file_chunks` returns. -/
theorem writeFileChunks_ok {toParent : RelativeCapability}
    {writerLink : Option (CipherText SigningPrivateKeyAndPublicHash)} {name mime : String}
    {created : ℤ} {thumbnail : Option (String × Bytes)} {mirrorBat : Option BatId}
    {chunks : List (Bytes × CryptreeBlock)}
    (hrun : writeFileChunks H f.keys f.chunkSize toParent writerLink name mime created thumbnail
      mirrorBat content = .ok chunks) :
    ∃ (tree : HashTree) (q : ℕ → ChunkParts), contentTree H f.chunkSize content = .ok tree ∧
      (∀ j, (q j).props = chunkProps name mime content.length created f.streamSecret thumbnail
        f.chunkSize false tree j) ∧
      chunks = (List.range' 0 (chunkCount content.length f.chunkSize)).map fun j =>
        (f.key H j, f.block (q j) (chunkAt f.chunkSize j content)) := by
  unfold writeFileChunks at hrun
  cases htree : contentTree H f.chunkSize content with
  | error e =>
      rw [htree] at hrun
      cases hrun
  | ok tree =>
      obtain ⟨q, hq, hloop⟩ := writeFileChunksLoop_eq H f toParent writerLink name mime created
        thumbnail mirrorBat content tree (chunkCount content.length f.chunkSize) 0
      rw [htree] at hrun
      exact ⟨tree, q, rfl, hq, Except.ok.inj (hrun.symm.trans hloop)⟩

/-- The removals of a rewrite. -/
theorem dropTrailing_eq (H : ContentHasher) (f : FileHandle) (newN remaining i : ℕ) (t : Tree) :
    dropTrailing H f.streamSecret newN remaining i (f.key H i)
        (chunkBat H f.streamSecret f.cap.bat i) t =
      .ok ((((List.range' i remaining).filter fun j => newN ≤ j).map (f.key H)).foldl
        Tree.removeEntry t) := by
  induction remaining generalizing i t with
  | zero => rfl
  | succ remaining ih =>
      unfold dropTrailing
      rw [f.calculateNextMapKey_key]
      simp only [bind, Except.bind, ih, List.range'_succ, List.filter_cons]
      by_cases hi : newN ≤ i
      · simp [hi]
      · simp [hi]

/-- The tree after a rewrite. -/
theorem HoldsFile.rewrite_tree (h : HoldsFile H limit f t parts content)
    (hdistinct : f.DistinctKeys H limit) {newContent : Bytes} {name mime : String} {created : ℤ}
    {thumbnail : Option (String × Bytes)} {tree : HashTree} {q : ℕ → ChunkParts}
    (hlimit : chunkCount newContent.length f.chunkSize ≤ limit)
    (htree : contentTree H f.chunkSize newContent = .ok tree)
    (hq : ∀ j, (q j).props = chunkProps name mime newContent.length created f.streamSecret thumbnail
      f.chunkSize false tree j) :
    EditedFile H limit f parts (fun _ => True)
      ((((List.range' 0 (chunkCount content.length f.chunkSize)).filter fun j =>
          chunkCount newContent.length f.chunkSize ≤ j).map (f.key H)).foldl Tree.removeEntry
        (t.writeAll id ((List.range' 0 (chunkCount newContent.length f.chunkSize)).map fun j =>
          (f.key H j, f.block (q j) (chunkAt f.chunkSize j newContent))))) q newContent := by
  have hwithin := h.within
  refine ⟨⟨⟨hlimit, fun i hi => ?_, fun i hi hge => ?_, fun i => ?_, ?_, ?_⟩, ?_⟩, fun i _ => ?_,
    fun i hw => absurd trivial hw⟩
  · rw [Tree.removeAll_of_not_mem]
    · exact Tree.writeAll_range (fun a _ ha b _ hb => hdistinct a (by omega) b (by omega))
        (Nat.zero_le i) (by omega)
    · simp only [List.mem_map, List.mem_filter, List.mem_range'_1, decide_eq_true_eq]
      rintro ⟨j, ⟨⟨-, hj⟩, hj'⟩, heq⟩
      have := hdistinct j (by omega) i (by omega) heq
      omega
  · by_cases hold : i < chunkCount content.length f.chunkSize
    · refine Tree.removeAll_of_mem (List.mem_map_of_mem (List.mem_filter.2 ⟨?_, ?_⟩))
      · exact List.mem_range'_1.2 ⟨Nat.zero_le i, by omega⟩
      · exact decide_eq_true hge
    · rw [Tree.removeAll_of_not_mem, Tree.writeAll_of_not_mem, h.absent i hi (not_lt.1 hold)]
      · simp only [List.map_map, List.mem_map, List.mem_range'_1, Function.comp]
        rintro ⟨j, ⟨-, hj⟩, heq⟩
        have := hdistinct j (by omega) i hi heq
        omega
      · simp only [List.mem_map, List.mem_filter, List.mem_range'_1, decide_eq_true_eq]
        rintro ⟨j, ⟨⟨-, hj⟩, hj'⟩, heq⟩
        have := hdistinct j (by omega) i hi heq
        omega
  · rw [hq]
    rfl
  · rw [hq]
    rfl
  · rw [hq]
    rfl
  · rw [hq]
    rfl
  · exact (hashed_chunkProps htree hq).fresh i

/-- A rewrite that succeeds. -/
theorem HoldsFile.rewriteFileContent_ok (h : HoldsFile H limit f t parts content)
    (hdistinct : f.DistinctKeys H limit) {net net' : Network} (hnet : net f.cap.writer = some t)
    {newContent : Bytes} {signer : SigningPrivateKeyAndPublicHash} {mirrorBat : Option BatId}
    (hlimit : chunkCount newContent.length f.chunkSize ≤ limit)
    (hrun : rewriteFileContent H f.cap newContent signer mirrorBat net = (.ok (), net')) :
    ∃ t' parts', net' = Function.update net f.cap.writer (some t') ∧
      EditedFile H limit f parts (fun _ => True) t' parts' newContent := by
  have hopen : openWriterRoot net f.cap.writer = .ok t := by rw [openWriterRoot, hnet]
  unfold rewriteFileContent at hrun
  rw [Exec.bind_of_ok (by rw [Exec.query_run, hopen])] at hrun
  simp only [h.fetch_first, ChunkParts.isDirectory_node, Bool.false_eq_true, if_false,
    ChunkParts.getProperties_node, ChunkParts.baseBlock_node, ChunkParts.getDataKey_node,
    ChunkParts.parentLink_node] at hrun
  iterate 4 rw [Exec.bind_of_ok (Exec.lift_run _ _)] at hrun
  simp only [h.streamSecret, h.size, h.chunkSize] at hrun
  obtain ⟨chunks, hchunks, hrun⟩ := Exec.lift_bind_eq_ok hrun
  obtain ⟨tree, q, htree, hq, rfl⟩ := writeFileChunks_ok (f := f) hchunks
  have hput := Tree.foldlM_put (g := id) ((List.range' 0
    (chunkCount newContent.length f.chunkSize)).map fun j =>
      (f.key H j, f.block (q j) (chunkAt f.chunkSize j newContent))) t
  have hdrop := dropTrailing_eq H f (chunkCount newContent.length f.chunkSize)
    (chunkCount content.length f.chunkSize) 0 (t.writeAll id
      ((List.range' 0 (chunkCount newContent.length f.chunkSize)).map fun j =>
        (f.key H j, f.block (q j) (chunkAt f.chunkSize j newContent))))
  obtain ⟨t₁, hput', hrun⟩ := Exec.lift_bind_eq_ok hrun
  obtain rfl : t₁ = _ := Except.ok.inj (hput'.symm.trans hput)
  obtain ⟨t₂, hdrop', hrun⟩ := Exec.lift_bind_eq_ok hrun
  rw [List.length_map, List.length_range'] at hdrop'
  obtain rfl : t₂ = _ := Except.ok.inj (hdrop'.symm.trans hdrop)
  rw [commitTree] at hrun
  split at hrun
  · cases hrun
    exact ⟨_, q, rfl, h.rewrite_tree hdistinct hlimit htree hq⟩
  · cases hrun

end Peergos
