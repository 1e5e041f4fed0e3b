import PeergosClient.Fs.Upload

/-!
# Runs of edits

A file is uploaded and then edited in place any number of times.  The bytes it should have are
carried along with the network: an edit that succeeds splices, cuts or replaces them, and an edit
that fails changes nothing.  After any run the file reads back as these bytes, in exactly the
chunks their number asks for.

The hashes stored with the chunks do not follow every edit: a section write clears those of the
chunks it writes, and the branch in the first chunk is about the whole content.
-/

namespace Peergos

open Chunks

/-! ## Edits -/

/-- An edit of a file in place. -/
inductive FileEdit where
  | writeSection (offset : ℕ) (data : Bytes) (mirrorBat : Option BatId) (now : ℤ)
  | truncate (newSize : ℕ) (now : ℤ)
  | rewrite (content : Bytes) (mirrorBat : Option BatId)

namespace FileEdit

/-- The call an edit is. -/
def run (H : ContentHasher) (cap : AbsoluteCapability) (signer : SigningPrivateKeyAndPublicHash) :
    FileEdit → Exec Network Fault Unit
  | writeSection offset data mirrorBat now => do
      let _ ← writeFileSection H cap offset data signer mirrorBat now
      pure ()
  | truncate newSize now => do
      let _ ← truncateFile H cap newSize signer now
      pure ()
  | rewrite content mirrorBat => rewriteFileContent H cap content signer mirrorBat

/-- What an edit does to the bytes of the file. -/
def apply : FileEdit → Bytes → Bytes
  | writeSection offset data _ _, content => splice content offset data
  | truncate newSize _, content => content.take newSize
  | rewrite content _, _ => content

/-- The chunks an edit writes in a file with this content. -/
def Writes (c : ℕ) (content : Bytes) : FileEdit → ℕ → Prop
  | writeSection offset data _ _, i => data ≠ [] ∧ SectionWritten c content.length offset data i
  | truncate newSize _, i => newSize < content.length ∧ (i = 0 ∨ i = lastKept c newSize)
  | rewrite _ _, _ => True

instance (c : ℕ) (content : Bytes) (e : FileEdit) : DecidablePred (e.Writes c content) := fun i =>
  match e with
  | writeSection offset data _ _ =>
      inferInstanceAs (Decidable (data ≠ [] ∧ SectionWritten c content.length offset data i))
  | truncate newSize _ =>
      inferInstanceAs (Decidable (newSize < content.length ∧ (i = 0 ∨ i = lastKept c newSize)))
  | rewrite _ _ => inferInstanceAs (Decidable True)

end FileEdit

/-- One edit, on the network and the bytes the file should have. -/
def editStep (H : ContentHasher) (cap : AbsoluteCapability) (s : Network × Bytes)
    (e : SigningPrivateKeyAndPublicHash × FileEdit) : Network × Bytes :=
  match e.2.run H cap e.1 s.1 with
  | (.ok _, net) => (net, e.2.apply s.2)
  | (.error _, net) => (net, s.2)

/-- A run of edits. -/
def editRun (H : ContentHasher) (cap : AbsoluteCapability) (s : Network × Bytes)
    (edits : List (SigningPrivateKeyAndPublicHash × FileEdit)) : Network × Bytes :=
  edits.foldl (editStep H cap) s

variable {H : ContentHasher} {limit : ℕ} {f : FileHandle} {t : Tree} {parts : ℕ → ChunkParts}
  {content : Bytes} {net net' : Network} {signer : SigningPrivateKeyAndPublicHash}

/-! ## Failures -/

theorem commitTree_failsClean (writer : PublicKeyHash) (signer : SigningPrivateKeyAndPublicHash)
    (t : Tree) (rejected : String) : Exec.FailsClean (commitTree writer signer t rejected) := by
  intro s e s' h
  unfold commitTree at h
  split at h
  · cases h
  · cases h
    rfl

theorem reuploadNodes_failsClean (cap : AbsoluteCapability) (updates : List (Bytes × CryptreeNode))
    (removals : List Bytes) (signer : SigningPrivateKeyAndPublicHash) :
    Exec.FailsClean (reuploadNodes cap updates removals signer) :=
  .query_bind fun _ => .lift_bind fun _ => commitTree_failsClean _ _ _ _

theorem writeFileSection_failsClean (H : ContentHasher) (cap : AbsoluteCapability) (offset : ℕ)
    (data : Bytes) (signer : SigningPrivateKeyAndPublicHash) (mirrorBat : Option BatId) (now : ℤ) :
    Exec.FailsClean (writeFileSection H cap offset data signer mirrorBat now) := by
  unfold writeFileSection
  split
  · exact .pure _
  · refine .query_bind fun ⟨t, first, props⟩ => ?_
    dsimp only
    split
    · exact .fail _
    · split
      · exact .fail _
      · exact .lift_bind fun _ => .lift_bind fun _ => (reuploadNodes_failsClean _ _ _ _).bind_pure

theorem truncateFile_failsClean (H : ContentHasher) (cap : AbsoluteCapability) (newSize : ℕ)
    (signer : SigningPrivateKeyAndPublicHash) (now : ℤ) :
    Exec.FailsClean (truncateFile H cap newSize signer now) := by
  refine .query_bind fun ⟨t, first, props⟩ => ?_
  dsimp only
  split
  · exact .pure _
  · split
    · exact .fail _
    · exact .lift_bind fun ⟨_, _⟩ => (reuploadNodes_failsClean _ _ _ _).bind_pure

theorem rewriteFileContent_failsClean (H : ContentHasher) (cap : AbsoluteCapability)
    (newContent : Bytes) (signer : SigningPrivateKeyAndPublicHash) (mirrorBat : Option BatId) :
    Exec.FailsClean (rewriteFileContent H cap newContent signer mirrorBat) := by
  refine .query_bind fun t => ?_
  split
  · exact .fail _
  · refine .lift_bind fun props => ?_
    split
    · exact .fail _
    · refine .lift_bind fun _ => .lift_bind fun _ => .lift_bind fun _ => ?_
      split
      · exact .fail _
      · exact .fail _
      · exact .lift_bind fun _ => .lift_bind fun _ => .lift_bind fun _ =>
          commitTree_failsClean _ _ _ _

/-- An edit that fails leaves the network as it was. -/
theorem FileEdit.failsClean (H : ContentHasher) (cap : AbsoluteCapability)
    (signer : SigningPrivateKeyAndPublicHash) (e : FileEdit) :
    Exec.FailsClean (e.run H cap signer) := by
  cases e with
  | writeSection offset data mirrorBat now =>
      exact (writeFileSection_failsClean H cap offset data signer mirrorBat now).bind_pure
  | truncate newSize now => exact (truncateFile_failsClean H cap newSize signer now).bind_pure
  | rewrite content mirrorBat => exact rewriteFileContent_failsClean H cap content signer mirrorBat

/-! ## One edit -/

/-- Nothing was written. -/
theorem EditedFile.refl (h : HoldsFile H limit f t parts content) {written : ℕ → Prop}
    (hnone : ∀ i, ¬written i) : EditedFile H limit f parts written t parts content :=
  ⟨h, fun i hi => absurd hi (hnone i), fun _ _ => rfl⟩

theorem EditedFile.congr {written written' : ℕ → Prop} {parts' : ℕ → ChunkParts}
    (h : EditedFile H limit f parts written t parts' content)
    (hiff : ∀ i, written' i ↔ written i) : EditedFile H limit f parts written' t parts' content :=
  ⟨h.holds, fun i hi => h.fresh i ((hiff i).1 hi), fun i hi => h.kept i fun hw => hi ((hiff i).2 hw)⟩

/-- An edit that succeeds on a held file. -/
theorem FileEdit.run_ok (h : HoldsFile H limit f t parts content)
    (hdistinct : f.DistinctKeys H limit) (hnet : net f.cap.writer = some t) (e : FileEdit)
    (hlimit : chunkCount (e.apply content).length f.chunkSize ≤ limit)
    (hrun : e.run H f.cap signer net = (.ok (), net')) :
    (∃ t' parts', net' f.cap.writer = some t' ∧
      EditedFile H limit f parts (e.Writes f.chunkSize content) t' parts' (e.apply content)) ∧
      ∀ i < chunkCount (e.apply content).length f.chunkSize, ¬e.Writes f.chunkSize content i →
        i < chunkCount content.length f.chunkSize := by
  cases e with
  | writeSection offset data mirrorBat now =>
      obtain ⟨written, net₁, hwrite, hend⟩ := Exec.bind_eq_ok hrun
      cases hend
      by_cases hdata : data = []
      · subst hdata
        cases hwrite
        rw [FileEdit.apply, splice_nil]
        exact ⟨⟨t, parts, hnet, EditedFile.refl h fun i hw => hw.1 rfl⟩, fun i hi _ => hi⟩
      · obtain ⟨hoffset, t', parts', rfl, hedited⟩ :=
          h.writeFileSection_ok mirrorBat now hdistinct hnet hdata hlimit hwrite
        refine ⟨⟨t', parts', Function.update_self _ _ _,
          hedited.congr fun i => and_iff_right hdata⟩, fun i hi hw => ?_⟩
        exact lt_chunkCount_of_not_overlaps f.chunkSize_pos hoffset hi fun hov =>
          hw ⟨hdata, Or.inl hov⟩
  | truncate newSize now =>
      obtain ⟨written, net₁, htrunc, hend⟩ := Exec.bind_eq_ok hrun
      cases hend
      by_cases hnew : newSize < content.length
      · obtain ⟨t', parts', rfl, hedited⟩ := h.truncateFile_ok now hdistinct hnet hnew htrunc
        refine ⟨⟨t', parts', Function.update_self _ _ _,
          hedited.congr fun i => and_iff_right hnew⟩, fun i hi _ => hi.trans_le ?_⟩
        exact chunkCount_mono (List.length_take_le' newSize content)
      · rw [h.truncateFile_of_le now hnet signer (not_lt.1 hnew)] at htrunc
        cases htrunc
        rw [FileEdit.apply, List.take_of_length_le (not_lt.1 hnew)]
        exact ⟨⟨t, parts, hnet, EditedFile.refl h fun i hw => hnew hw.1⟩, fun i hi _ => hi⟩
  | rewrite newContent mirrorBat =>
      obtain ⟨t', parts', rfl, hedited⟩ := h.rewriteFileContent_ok hdistinct hnet hlimit hrun
      exact ⟨⟨t', parts', Function.update_self _ _ _, hedited⟩, fun i _ hw => absurd trivial hw⟩

/-- One step of a run: an edit that was made, or one that was refused. -/
theorem editStep_cases (h : HoldsFile H limit f t parts content)
    (hdistinct : f.DistinctKeys H limit) (hnet : net f.cap.writer = some t)
    (e : SigningPrivateKeyAndPublicHash × FileEdit)
    (hlimit : chunkCount (editStep H f.cap (net, content) e).2.length f.chunkSize ≤ limit) :
    ((e.2.run H f.cap e.1 net).1 = .ok () ∧
        (editStep H f.cap (net, content) e).2 = e.2.apply content ∧
        (∃ t' parts', (editStep H f.cap (net, content) e).1 f.cap.writer = some t' ∧
          EditedFile H limit f parts (e.2.Writes f.chunkSize content) t' parts'
            (e.2.apply content)) ∧
        ∀ i < chunkCount (e.2.apply content).length f.chunkSize,
          ¬e.2.Writes f.chunkSize content i → i < chunkCount content.length f.chunkSize) ∨
      editStep H f.cap (net, content) e = (net, content) := by
  rcases hrun : e.2.run H f.cap e.1 net with ⟨r, net'⟩
  have hstep : editStep H f.cap (net, content) e = match (r, net') with
      | (.ok _, net) => (net, e.2.apply content)
      | (.error _, net) => (net, content) := by rw [editStep, hrun]
  cases r with
  | ok a =>
      rw [hstep] at hlimit ⊢
      exact Or.inl ⟨rfl, rfl, e.2.run_ok h hdistinct hnet hlimit hrun⟩
  | error err =>
      right
      rw [hstep, e.2.failsClean H f.cap e.1 net err net' hrun]

/-! ## Whole runs -/

/-- All contents a run goes through are within the limit. -/
def WithinLimit (H : ContentHasher) (cap : AbsoluteCapability) (c limit : ℕ) (s : Network × Bytes)
    (edits : List (SigningPrivateKeyAndPublicHash × FileEdit)) : Prop :=
  ∀ done, done <+: edits → chunkCount (editRun H cap s done).2.length c ≤ limit

theorem WithinLimit.step {cap : AbsoluteCapability} {c : ℕ} {s : Network × Bytes}
    {e : SigningPrivateKeyAndPublicHash × FileEdit}
    {edits : List (SigningPrivateKeyAndPublicHash × FileEdit)}
    (h : WithinLimit H cap c limit s (e :: edits)) :
    WithinLimit H cap c limit (editStep H cap s e) edits := fun done hdone =>
  h (e :: done) ((List.prefix_cons_inj e).2 hdone)

/-- A run on a held file. -/
theorem HoldsFile.editRun (hdistinct : f.DistinctKeys H limit)
    (edits : List (SigningPrivateKeyAndPublicHash × FileEdit)) {s : Network × Bytes}
    (h : ∃ t parts, s.1 f.cap.writer = some t ∧ HoldsFile H limit f t parts s.2)
    (hlimit : WithinLimit H f.cap f.chunkSize limit s edits) :
    ∃ t parts, (Peergos.editRun H f.cap s edits).1 f.cap.writer = some t ∧
      HoldsFile H limit f t parts (Peergos.editRun H f.cap s edits).2 := by
  induction edits generalizing s with
  | nil => exact h
  | cons e edits ih =>
      obtain ⟨t, parts, hnet, hholds⟩ := h
      refine ih (s := editStep H f.cap s e) ?_ hlimit.step
      have hone := hlimit [e] ⟨edits, rfl⟩
      rcases editStep_cases hholds hdistinct hnet e hone with
        ⟨-, hcontent, ⟨t', parts', hnet', hedited⟩, -⟩ | hsame
      · exact ⟨t', parts', hnet', hcontent ▸ hedited.holds⟩
      · rw [hsame]
        exact ⟨t, parts, hnet, hholds⟩

/-- The file is the bytes: it reads back as them, and of the first `limit` locations of its chunks
the champ has exactly those the bytes fill. -/
structure IsBytes (H : ContentHasher) (limit : ℕ) (keys : FileKeys) (c : ℕ)
    (cap : AbsoluteCapability) (s : Network × Bytes) : Prop where
  reads : ∃ props, ∀ fuel, chunkCount s.2.length c ≤ fuel →
    readFile H fuel s.1 cap = .ok (props, s.2)
  chunks : ∃ t, s.1 cap.writer = some t ∧ ∀ i < limit,
    (t (chunkKey H keys.streamSecret keys.mapKey i)).isSome = true ↔ i < chunkCount s.2.length c

section Refine

variable {media : Media} {dir : DirParams} {r : UploadRequest} {reader : Bytes} {net₁ : Network}
  {cap : AbsoluteCapability}

/-- **Edits refine a byte array.**  A file that was uploaded and then edited in place any number of
times is the bytes it should have. -/
theorem edits_refine_bytes (mode : UploadMode)
    (hnew : ∀ t, net r.dirCap.writer = some t → NewKeys H limit r.keys dir.fresh t)
    (hupload : mode.upload H media dir r reader net = (.ok cap, net₁))
    (edits : List (SigningPrivateKeyAndPublicHash × FileEdit))
    (hlimit : WithinLimit H cap (mode.chunkSize r) limit (net₁, reader.take r.size) edits) :
    IsBytes H limit r.keys (mode.chunkSize r) cap
      (editRun H cap (net₁, reader.take r.size) edits) := by
  obtain ⟨f, rfl, -, hc, hkeys, hdistinct, t₁, parts₁, hnet₁, hholds₁, -⟩ :=
    mode.upload_ok hnew (hlimit [] List.nil_prefix) hupload
  rw [← hc] at hlimit ⊢
  obtain ⟨t, parts, hnet, hholds⟩ := HoldsFile.editRun hdistinct edits
    ⟨t₁, parts₁, hnet₁, hholds₁⟩ hlimit
  refine ⟨⟨(parts 0).props, fun fuel hfuel => hholds.readFile_eq hnet hfuel⟩, t, hnet,
    fun i hi => ?_⟩
  rw [hkeys]
  exact hholds.isSome_iff hi

/-- A file of three bytes. -/
abbrev threeBytes : UploadRequest := rootUpload "a" 3

/-- The network after its upload. -/
def afterThreeBytes : Network :=
  (UploadMode.newFile.upload legacyHasher plainMedia rootParams threeBytes [1, 2, 3] rootNetwork).2

/-- A write over the end, a truncation and a rewrite. -/
def threeEdits : List (SigningPrivateKeyAndPublicHash × FileEdit) :=
  [(byteSigner 2, .writeSection 2 [9, 9] none 1), (byteSigner 2, .truncate 3 2),
    (byteSigner 2, .rewrite [4, 5] none)]

theorem edits_refine_bytes_threeEdits :
    IsBytes legacyHasher 2 threeBytes.keys (UploadMode.newFile.chunkSize threeBytes) rootFileCap
      (editRun legacyHasher rootFileCap
        (afterThreeBytes, List.take threeBytes.size [1, 2, 3]) threeEdits) := by
  have hupload : UploadMode.newFile.upload legacyHasher plainMedia rootParams threeBytes [1, 2, 3]
      rootNetwork = (.ok rootFileCap, afterThreeBytes) :=
    Prod.ext (eq_ok_of_toOption (by decide +kernel)) rfl
  have hlimit : ∀ done ∈ threeEdits.inits, chunkCount (editRun legacyHasher rootFileCap
      (afterThreeBytes, List.take threeBytes.size [1, 2, 3]) done).2.length
        (UploadMode.newFile.chunkSize threeBytes) ≤ 2 := by decide +kernel
  exact edits_refine_bytes .newFile (newKeys_rootUpload "a" 3) hupload threeEdits
    fun done hdone => hlimit done ((List.mem_inits done threeEdits).2 hdone)

end Refine

end Peergos
