import PeergosClient.Fs.EditRuns

/-!
# Stored content hashes

The first chunk of a file, and the first of each further group of 1024, store their branch of the
hash tree of the whole content.  An edit that writes a chunk clears what it stores; an edit of other
chunks leaves the branch of the old content behind.  The hashes stay true along a run whose edits
all write every chunk that stores one.
-/

namespace Peergos

open Chunks

/-- The hash stored with chunk `i` of a file. -/
def storedHash (H : ContentHasher) (streamSecret : Bytes) (cap : AbsoluteCapability) (net : Network)
    (i : ℕ) : Option HashBranch := do
  let t ← net cap.writer
  let node ← fetchChunkNode t cap.rBaseKey (chunkKey H streamSecret cap.mapKey i)
  let props ← (node.getProperties cap.rBaseKey).toOption
  props.treeHash

/-- No stored hash is stale: each is the branch of the hash tree of the bytes the file has. -/
def HashesFresh (H : ContentHasher) (streamSecret : Bytes) (c : ℕ) (cap : AbsoluteCapability)
    (s : Network × Bytes) : Prop :=
  ∀ i < chunkCount s.2.length c, storedHash H streamSecret cap s.1 i = none ∨
    ∃ tree, contentTree H c s.2 = .ok tree ∧
      storedHash H streamSecret cap s.1 i = some (tree.branch i)

/-- The edit leaves the bytes as they are, or writes every chunk of the new content that stores a
hash. -/
def FileEdit.Covers (H : ContentHasher) (streamSecret : Bytes) (c : ℕ) (cap : AbsoluteCapability)
    (s : Network × Bytes) (e : FileEdit) : Prop :=
  e.apply s.2 = s.2 ∨ ∀ i < chunkCount (e.apply s.2).length c,
    storedHash H streamSecret cap s.1 i ≠ none → e.Writes c s.2 i

/-- Every edit that is made in the run covers the stored hashes. -/
def CoveredRun (H : ContentHasher) (streamSecret : Bytes) (c : ℕ) (cap : AbsoluteCapability) :
    Network × Bytes → List (SigningPrivateKeyAndPublicHash × FileEdit) → Prop
  | _, [] => True
  | s, e :: edits =>
      ((e.2.run H cap e.1 s.1).1 = .ok () → e.2.Covers H streamSecret c cap s) ∧
        CoveredRun H streamSecret c cap (editStep H cap s e) edits

variable {H : ContentHasher} {limit : ℕ} {f : FileHandle} {t : Tree} {parts : ℕ → ChunkParts}
  {content : Bytes} {net : Network}

theorem covers_of_writes {streamSecret : Bytes} {c : ℕ} {cap : AbsoluteCapability}
    {s : Network × Bytes} {e : FileEdit}
    (h : ∀ i < chunkCount (e.apply s.2).length c, e.Writes c s.2 i) :
    e.Covers H streamSecret c cap s := Or.inr fun i hi _ => h i hi

/-- The stored hash of a chunk that is there. -/
theorem StoresFile.storedHash_eq (h : StoresFile H limit f t parts content)
    (hnet : net f.cap.writer = some t) {i : ℕ}
    (hi : i < chunkCount content.length f.chunkSize) :
    storedHash H f.streamSecret f.cap net i = (parts i).props.treeHash := by
  have hfetch : fetchChunkNode t f.cap.rBaseKey (chunkKey H f.streamSecret f.cap.mapKey i) = _ :=
    h.fetch hi
  simp [storedHash, hnet, hfetch, Except.toOption]

/-- What an edit leaves fresh: the chunks it wrote, the chunks without a hash, and everything if the
bytes stay. -/
theorem EditedFile.fresh_of_covers {written : ℕ → Prop} {parts' : ℕ → ChunkParts}
    {content' : Bytes} (h : EditedFile H limit f parts written t parts' content')
    (hold : ∀ i < chunkCount content.length f.chunkSize,
      FreshHash H f.chunkSize content i (parts i))
    (hkept : ∀ i < chunkCount content'.length f.chunkSize, ¬written i →
      i < chunkCount content.length f.chunkSize)
    (hcovers : content' = content ∨ ∀ i < chunkCount content'.length f.chunkSize,
      i < chunkCount content.length f.chunkSize → (parts i).props.treeHash ≠ none → written i) :
    ∀ i < chunkCount content'.length f.chunkSize,
      FreshHash H f.chunkSize content' i (parts' i) := by
  intro i hi
  by_cases hw : written i
  · exact h.fresh i hw
  · rw [h.kept i hw]
    rcases hcovers with rfl | hcovers
    · exact hold i hi
    · left
      by_contra hne
      exact hw (hcovers i hi (hkept i hi hw) hne)

/-- A covered run on a held file. -/
theorem editRun_fresh (hdistinct : f.DistinctKeys H limit)
    (edits : List (SigningPrivateKeyAndPublicHash × FileEdit)) {s : Network × Bytes}
    (h : ∃ t parts, s.1 f.cap.writer = some t ∧ HoldsFile H limit f t parts s.2 ∧
      ∀ i < chunkCount s.2.length f.chunkSize, FreshHash H f.chunkSize s.2 i (parts i))
    (hlimit : WithinLimit H f.cap f.chunkSize limit s edits)
    (hcovered : CoveredRun H f.streamSecret f.chunkSize f.cap s edits) :
    HashesFresh H f.streamSecret f.chunkSize f.cap (editRun H f.cap s edits) := by
  induction edits generalizing s with
  | nil =>
      obtain ⟨t, parts, hnet, hholds, hfresh⟩ := h
      show HashesFresh H f.streamSecret f.chunkSize f.cap s
      intro i hi
      rw [hholds.storedHash_eq hnet hi]
      exact hfresh i hi
  | cons e edits ih =>
      obtain ⟨t, parts, hnet, hholds, hfresh⟩ := h
      refine ih (s := editStep H f.cap s e) ?_ hlimit.step hcovered.2
      have hone := hlimit [e] ⟨edits, rfl⟩
      rcases editStep_cases hholds hdistinct hnet e hone with
        ⟨hok, hcontent, ⟨t', parts', hnet', hedited⟩, hkept⟩ | hsame
      · refine ⟨t', parts', hnet', hcontent ▸ hedited.holds, ?_⟩
        rw [show (editStep H f.cap s e).2 = e.2.apply s.2 from hcontent]
        refine hedited.fresh_of_covers hfresh hkept ((hcovered.1 hok).imp_right ?_)
        intro hcovers i hi hi' hne
        refine hcovers i hi ?_
        rw [hholds.storedHash_eq hnet hi']
        exact hne
      · rw [hsame]
        exact ⟨t, parts, hnet, hholds, hfresh⟩

section Runs

variable {media : Media} {dir : DirParams} {r : UploadRequest} {reader : Bytes} {net₁ : Network}
  {cap : AbsoluteCapability}

/-- **Stored hashes stay true.**  In a file that was uploaded and then edited by a covered run, no
stored hash is stale. -/
theorem covered_run_hashes_fresh (mode : UploadMode)
    (hnew : ∀ t, net r.dirCap.writer = some t → NewKeys H limit r.keys dir.fresh t)
    (hupload : mode.upload H media dir r reader net = (.ok cap, net₁))
    (edits : List (SigningPrivateKeyAndPublicHash × FileEdit))
    (hlimit : WithinLimit H cap (mode.chunkSize r) limit (net₁, reader.take r.size) edits)
    (hcovered : CoveredRun H r.keys.streamSecret (mode.chunkSize r) cap
      (net₁, reader.take r.size) edits) :
    HashesFresh H r.keys.streamSecret (mode.chunkSize r) cap
      (editRun H cap (net₁, reader.take r.size) edits) := by
  obtain ⟨f, rfl, -, hc, hkeys, hdistinct, t, parts, hnet, hholds, hhashed, -⟩ :=
    mode.upload_ok hnew (hlimit [] List.nil_prefix) hupload
  rw [hkeys, ← hc] at hcovered ⊢
  rw [← hc] at hlimit
  exact editRun_fresh hdistinct edits ⟨t, parts, hnet, hholds, fun i _ => hhashed.fresh i⟩ hlimit hcovered

theorem covered_run_hashes_fresh_threeEdits :
    HashesFresh legacyHasher threeBytes.keys.streamSecret
      (UploadMode.newFile.chunkSize threeBytes) rootFileCap
      (editRun legacyHasher rootFileCap
        (afterThreeBytes, List.take threeBytes.size [1, 2, 3]) threeEdits) := by
  have hupload : UploadMode.newFile.upload legacyHasher plainMedia rootParams threeBytes [1, 2, 3]
      rootNetwork = (.ok rootFileCap, afterThreeBytes) :=
    Prod.ext (eq_ok_of_toOption (by decide +kernel)) rfl
  have hlimit : ∀ done ∈ threeEdits.inits, chunkCount (editRun legacyHasher rootFileCap
      (afterThreeBytes, List.take threeBytes.size [1, 2, 3]) done).2.length
        (UploadMode.newFile.chunkSize threeBytes) ≤ 2 := by decide +kernel
  have hcovered : CoveredRun legacyHasher threeBytes.keys.streamSecret
      (UploadMode.newFile.chunkSize threeBytes) rootFileCap
      (afterThreeBytes, List.take threeBytes.size [1, 2, 3]) threeEdits := by
    -- each edit writes all chunks of the file
    refine ⟨fun _ => covers_of_writes ?_, fun _ => covers_of_writes ?_,
      fun _ => covers_of_writes ?_, trivial⟩
    · decide +kernel
    · decide +kernel
    · decide +kernel
  exact covered_run_hashes_fresh .newFile (newKeys_rootUpload "a" 3) hupload threeEdits
    (fun done hdone => hlimit done ((List.mem_inits done threeEdits).2 hdone)) hcovered

/-! ## A hash left behind -/

/-- The hash tree of a file of two chunks. -/
theorem contentTree_two {c : ℕ} (hc : usesBlake3 c = false)
    (hn : chunkCount content.length c = 2) :
    contentTree H c content = .ok ⟨H.listRoot [⟨H.sha256 (chunkAt c 0 content) ++
        H.sha256 (chunkAt c 1 content)⟩],
      [⟨H.sha256 (chunkAt c 0 content) ++ H.sha256 (chunkAt c 1 content)⟩], [], []⟩ := by
  have hhash : ∀ i, H.chunkHash (chunkAt c i content) i c (2 = 1) =
      H.sha256 (chunkAt c i content) := fun i => by simp [ContentHasher.chunkHash, hc]
  unfold contentTree
  rw [hn]
  simp only [List.range_succ, List.range_zero, List.nil_append, List.map_cons,
    List.map_nil, List.cons_append, hhash]
  simp [ContentHasher.buildTree, hc, buildLevel, List.toChunks, List.toChunks.go]

/-- A write to the second chunk of a file that does not make it longer leaves the branch of the old
content in the first one. -/
theorem HoldsFile.not_hashesFresh_of_section (h : HoldsFile H limit f t parts content)
    (hdistinct : f.DistinctKeys H limit) (hnet : net f.cap.writer = some t)
    (hhashed : Hashed H f.chunkSize content parts) (hc : usesBlake3 f.chunkSize = false)
    (hn : chunkCount content.length f.chunkSize = 2) {signer : SigningPrivateKeyAndPublicHash}
    (hsigner : signer.publicKeyHash = f.cap.writer) {offset : ℕ} {data : Bytes}
    (mirrorBat : Option BatId) (now : ℤ) (hdata : data ≠ []) (hoffset : f.chunkSize ≤ offset)
    (hfits : offset + data.length ≤ content.length)
    (hhash : H.sha256 (chunkAt f.chunkSize 1 content) ≠
      H.sha256 (chunkAt f.chunkSize 1 (splice content offset data))) :
    ¬HashesFresh H f.streamSecret f.chunkSize f.cap
      (editStep H f.cap (net, content) (signer, .writeSection offset data mirrorBat now)) := by
  have hle : offset ≤ content.length := by omega
  have hlen : (splice content offset data).length = content.length := by
    rw [length_splice _ _ _ hle]
    omega
  obtain ⟨keys, t', parts', hrun, hedited⟩ := h.writeFileSection_eq mirrorBat now hdistinct hnet
    signer hle hdata (by rw [hlen]; exact h.within)
  rw [if_pos hsigner] at hrun
  have hstep : editStep H f.cap (net, content) (signer, .writeSection offset data mirrorBat now) =
      (Function.update net f.cap.writer (some t'), splice content offset data) := by
    simp only [editStep, FileEdit.run, FileEdit.apply, Exec.bind_of_ok hrun, Exec.pure_run]
  -- the first chunk is as it was
  have hkept : parts' 0 = parts 0 := by
    refine hedited.kept 0 ?_
    rintro (hov | hgrows)
    · have := hov.1
      omega
    · omega
  obtain ⟨tree, htree, hparts⟩ := hhashed
  have hpos := chunkCount_pos (splice content offset data).length f.chunkSize
  rw [hstep]
  intro hfresh
  have hfirst := hfresh 0 hpos
  rw [hedited.holds.storedHash_eq (Function.update_self _ _ _) hpos, hkept, hparts, if_pos rfl,
    contentTree_two hc (hlen ▸ hn)] at hfirst
  rw [contentTree_two hc hn] at htree
  cases htree
  rcases hfirst with hnone | ⟨tree', htree', hbranch⟩
  · cases hnone
  · cases htree'
    have hlevel := congrArg (fun b : HashBranch => b.level1.map (·.chunkHashes))
      (Option.some.inj hbranch)
    have happend := Option.some.inj hlevel
    exact hhash (List.append_inj happend (by rw [H.sha256_length, H.sha256_length])).2

theorem chunkAt_one_replicate {c : ℕ} (hc : 1 ≤ c) :
    chunkAt c 1 (List.replicate (c + 1) (0 : UInt8)) = [0] := by
  simpa [chunkAt] using hc

theorem chunkAt_one_splice {c : ℕ} (hc : 1 ≤ c) :
    chunkAt c 1 (splice (List.replicate (c + 1) (0 : UInt8)) c [1]) = [1] := by
  simpa [chunkAt, splice] using hc

/-- A file of one byte more than a chunk. -/
abbrev twoChunks : UploadRequest := rootUpload "b" (legacyChunkSize + 1)

/-- A write over its last byte. -/
def lastByteEdit : SigningPrivateKeyAndPublicHash × FileEdit :=
  (byteSigner 2, .writeSection legacyChunkSize [1] none 1)

/-- A write to the second chunk of a file leaves the hash of the old content in the first one. -/
theorem lastByteEdit_leaves_hash :
    ∃ cap net₁, UploadMode.newFile.upload legacyHasher plainMedia rootParams twoChunks
        (List.replicate (legacyChunkSize + 1) 0) rootNetwork = (.ok cap, net₁) ∧
      ¬HashesFresh legacyHasher twoChunks.keys.streamSecret
        (UploadMode.newFile.chunkSize twoChunks) cap (editRun legacyHasher cap
          (net₁, (List.replicate (legacyChunkSize + 1) 0).take twoChunks.size) [lastByteEdit]) := by
  have hcount : chunkCount (legacyChunkSize + 1) legacyChunkSize = 2 := by decide
  have hlen : (List.replicate (legacyChunkSize + 1) (0 : UInt8)).length = legacyChunkSize + 1 :=
    List.length_replicate
  have htake : (List.replicate (legacyChunkSize + 1) (0 : UInt8)).take twoChunks.size =
      List.replicate (legacyChunkSize + 1) 0 := List.take_of_length_le hlen.le
  have htree := contentTree_two (H := legacyHasher) (c := legacyChunkSize) rfl
    (show chunkCount (List.replicate (legacyChunkSize + 1) (0 : UInt8)).length legacyChunkSize = 2 by
      rw [hlen, hcount])
  obtain ⟨cap, net₁, hupload⟩ := rootUpload_succeeds "b" hcount.le hlen.ge
    (by rw [show List.take (legacyChunkSize + 1) (List.replicate (legacyChunkSize + 1) (0 : UInt8)) =
      _ from htake, htree]; rfl)
  refine ⟨cap, net₁, hupload, ?_⟩
  obtain ⟨f, rfl, hwriter, hc, hkeys, hdistinct, t, parts, hnet, hholds, hhashed, -⟩ :=
    UploadMode.newFile.upload_ok (newKeys_rootUpload "b" (legacyChunkSize + 1))
      (by rw [htake, hlen]; exact hcount.le) hupload
  have hc : f.chunkSize = legacyChunkSize := hc
  rw [htake] at hholds hhashed ⊢
  rw [hkeys, show UploadMode.newFile.chunkSize twoChunks = f.chunkSize from hc.symm]
  refine hholds.not_hashesFresh_of_section hdistinct hnet hhashed (by rw [hc]; rfl)
    (by rw [hlen, hc, hcount]) hwriter.symm none 1 (List.cons_ne_nil _ _) hc.le
    (by rw [hlen]; rfl) ?_
  rw [hc, chunkAt_one_replicate (by decide), chunkAt_one_splice (by decide)]
  decide +kernel

end Runs

end Peergos
