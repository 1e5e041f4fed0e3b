import PeergosClient.Fs.EditRuns
import PeergosClient.Fs.Children

/-!
# The properties of an edited file

A section write and a truncation change the properties of a file in its size, its hash tree and its
time of modification only.  A rewrite builds them anew: what `FileProperties::new_file` does not
take, the hidden flag among it, is lost.

The file need not be well formed.  That the chain of map keys does not come back to the first chunk
is an assumption, made for the chunks the edit reaches.
-/

namespace Peergos

open Chunks

/-- The same properties, but for what an edit changes. -/
def FileProperties.SameFile (p q : FileProperties) : Prop :=
  q = { p with size := q.size, treeHash := q.treeHash, modifiedEpoch := q.modifiedEpoch }

theorem FileProperties.SameFile.refl (p : FileProperties) : p.SameFile p := rfl

theorem FileProperties.sameFile_resizedProps (p : FileProperties) (size : ℕ) (now : ℤ) :
    p.SameFile (resizedProps p size now) := rfl

/-! ## Nodes of a file -/

/-- The node is the first one of a file with the properties of this one. -/
def KeepsFile (rBaseKey : SymmetricKey) (props : FileProperties) (node : CryptreeNode) : Prop :=
  node.isDirectory = false ∧ ∃ link p, node.fromParentKey = .build rBaseKey ⟨link, p⟩ ∧
    p.isDirectory = false ∧ props.SameFile p

section Nodes

variable {rBaseKey : SymmetricKey} {props : FileProperties} {node : CryptreeNode}

theorem CipherText.eq_build {α : Type} {c : CipherText α} {key : SymmetricKey} {a : α}
    (h : c.decrypt key = .ok a) : c = .build key a := by
  unfold CipherText.decrypt at h
  split at h
  · next hkey =>
      cases h
      cases c
      exact congrArg (CipherText.mk · _) hkey
  · cases h

theorem getParentKey_file (h : node.isDirectory = false) : node.getParentKey rBaseKey = rBaseKey := by
  rw [CryptreeNode.getParentKey, h]
  rfl

/-- A file that is fetched has its properties in the clear under its base key. -/
theorem keepsFile_of_fetch {t : Tree} {mapKey : Bytes}
    (hfetch : fetchChunkNode t rBaseKey mapKey = some node) (hfile : node.isDirectory = false)
    (hprops : node.getProperties rBaseKey = .ok props) : KeepsFile rBaseKey props node := by
  unfold CryptreeNode.getProperties at hprops
  rw [getParentKey_file hfile] at hprops
  obtain ⟨fp, hfp, hp⟩ := bind_eq_ok.1 hprops
  cases hp
  refine ⟨hfile, fp.parentLink, fp.properties, CipherText.eq_build hfp, ?_, .refl _⟩
  obtain ⟨block, -, rfl⟩ := Option.map_eq_some_iff.1 hfetch
  have hdec : block.fromParentKey.decrypt rBaseKey = .ok fp := hfp
  simpa [CryptreeNode.fromCbor, hdec] using hfile

/-- What is read back of such a node. -/
theorem KeepsFile.getProperties (h : KeepsFile rBaseKey props node) :
    ∃ p, (CryptreeNode.fromCbor node.toCbor rBaseKey).getProperties rBaseKey = .ok p ∧
      props.SameFile p := by
  obtain ⟨-, link, p, hfrom, hdir, hsame⟩ := h
  have hread : (CryptreeNode.fromCbor node.toCbor rBaseKey).isDirectory = false := by
    simp [CryptreeNode.fromCbor, CryptreeNode.toCbor, hfrom, hdir]
  refine ⟨p, ?_, hsame⟩
  rw [CryptreeNode.getProperties, getParentKey_file hread]
  simp only [CryptreeNode.fromCbor, CryptreeNode.toCbor, hfrom, CipherText.decrypt_build, bind,
    Except.bind, pure, Except.pure]

theorem KeepsFile.updateProperties {node' : CryptreeNode} {p : FileProperties}
    (h : KeepsFile rBaseKey props node) (hp : props.SameFile p) (hdir : p.isDirectory = false)
    (hrun : node.updateProperties rBaseKey p = .ok node') : KeepsFile rBaseKey props node' := by
  unfold CryptreeNode.updateProperties at hrun
  obtain ⟨link, -, hnode⟩ := bind_eq_ok.1 hrun
  rw [getParentKey_file h.1] at hnode
  cases hnode
  exact ⟨h.1, link, p, rfl, hdir, hp⟩

theorem KeepsFile.overwriteChunkData {node' : CryptreeNode} {data : CipherText ChildrenOrData}
    {now : ℤ} (h : KeepsFile rBaseKey props node)
    (hrun : node.overwriteChunkData rBaseKey data now = .ok node') :
    KeepsFile rBaseKey props node' := by
  obtain ⟨hfile, link, p, hfrom, hdir, hsame⟩ := h
  unfold CryptreeNode.overwriteChunkData CryptreeNode.getProperties CryptreeNode.parentLink at hrun
  rw [getParentKey_file hfile, hfrom] at hrun
  simp only [CipherText.decrypt_build, bind, Except.bind, pure, Except.pure] at hrun
  cases hrun
  refine ⟨rfl, link, _, rfl, hdir, ?_⟩
  rw [FileProperties.SameFile] at hsame ⊢
  rw [hsame]

end Nodes

/-! ## What is under a map key after several writes -/

theorem Tree.writeAll_cases {β : Type} {g : β → CryptreeBlock} (l : List (Bytes × β)) (t : Tree)
    (k : Bytes) :
    (k ∉ l.map Prod.fst ∧ t.writeAll g l k = t k) ∨
      ∃ e ∈ l, e.1 = k ∧ t.writeAll g l k = some (g e.2) := by
  induction l generalizing t with
  | nil => exact Or.inl ⟨List.not_mem_nil, rfl⟩
  | cons e l ih =>
      rcases ih (Function.update t e.1 (some (g e.2))) with ⟨hk, heq⟩ | ⟨e', he', hk, heq⟩
      · by_cases hek : e.1 = k
        · refine Or.inr ⟨e, List.mem_cons_self, hek, heq.trans ?_⟩
          rw [hek, Function.update_self]
        · refine Or.inl ⟨?_, heq.trans (Function.update_of_ne (Ne.symm hek) _ _)⟩
          rw [List.map_cons, List.mem_cons, not_or]
          exact ⟨Ne.symm hek, hk⟩
      · exact Or.inr ⟨e', List.mem_cons_of_mem _ he', hk, heq⟩

section Edits

variable {H : ContentHasher} {net net' : Network} {cap : AbsoluteCapability} {t : Tree}
  {first : CryptreeNode} {props : FileProperties} {signer : SigningPrivateKeyAndPublicHash}

/-- The file at `cap` has properties that are the given ones, but for what an edit changes. -/
def HasSameFile (net : Network) (cap : AbsoluteCapability) (props : FileProperties) : Prop :=
  ∃ node p, retrieveFileMetadata net cap = .ok (node, p) ∧ props.SameFile p

/-- The chunks with these indices are not where the first one is. -/
def FirstApart (H : ContentHasher) (cap : AbsoluteCapability) (streamSecret : Bytes)
    (reach : ℕ) : Prop :=
  ∀ i, 0 < i → i < reach → chunkKey H streamSecret cap.mapKey i ≠ cap.mapKey

theorem openFileForWrite_ok (h : openFileForWrite net cap = .ok (t, first, props)) :
    net cap.writer = some t ∧ fetchChunkNode t cap.rBaseKey cap.mapKey = some first ∧
      first.isDirectory = false ∧ first.getProperties cap.rBaseKey = .ok props := by
  unfold openFileForWrite at h
  obtain ⟨t', htree, h⟩ := bind_eq_ok.1 h
  split at h
  · cases h
  · next node hnode =>
      split at h
      · cases h
      · next hfile =>
          obtain ⟨p, hp, h⟩ := bind_eq_ok.1 h
          cases h
          unfold openWriterRoot at htree
          split at htree
          · next hnet =>
              cases htree
              exact ⟨hnet, hnode, by simpa using hfile, hp⟩
          · cases htree

theorem retrieveFileMetadata_eq (hnet : net cap.writer = some t)
    (hfetch : fetchChunkNode t cap.rBaseKey cap.mapKey = some first)
    (hprops : first.getProperties cap.rBaseKey = .ok props) :
    retrieveFileMetadata net cap = .ok (first, props) := by
  simp only [retrieveFileMetadata, openWriterRoot, hnet, hfetch, hprops, bind, Except.bind, pure,
    Except.pure]

/-- A commit that writes nothing but nodes of this file under its first map key. -/
theorem hasSameFile_of_reuploadNodes {updates : List (Bytes × CryptreeNode)} {removals : List Bytes}
    (hnet : net cap.writer = some t)
    (hfetch : fetchChunkNode t cap.rBaseKey cap.mapKey = some first)
    (hprops : first.getProperties cap.rBaseKey = .ok props)
    (hupdates : ∀ e ∈ updates, e.1 = cap.mapKey → KeepsFile cap.rBaseKey props e.2)
    (hremovals : cap.mapKey ∉ removals)
    (hrun : reuploadNodes cap updates removals signer net = (.ok (), net')) :
    HasSameFile net' cap props := by
  rw [reuploadNodes_run hnet] at hrun
  split at hrun
  · cases hrun
    have hkept := Tree.removeAll_of_not_mem (t := t.writeAll CryptreeNode.toCbor updates) hremovals
    rcases Tree.writeAll_cases (g := CryptreeNode.toCbor) updates t cap.mapKey with
      ⟨-, heq⟩ | ⟨e, he, hk, heq⟩
    · refine ⟨first, props, retrieveFileMetadata_eq (Function.update_self _ _ _) ?_ hprops, .refl _⟩
      rw [fetchChunkNode, hkept, heq]
      exact hfetch
    · obtain ⟨p, hp, hsame⟩ := (hupdates e he hk).getProperties
      refine ⟨_, p, retrieveFileMetadata_eq (Function.update_self _ _ _) ?_ hp, hsame⟩
      rw [fetchChunkNode, hkept, heq]
      rfl
  · cases hrun

/-! ## A section write -/

/-- The nodes the loop of a section write makes. -/
theorem SectionWrite.mem_loop {w : SectionWrite} {remaining index : ℕ}
    {l : List (Bytes × CryptreeNode)}
    (hrun : w.loop H remaining index (chunkKey H w.streamSecret w.cap.mapKey index)
      (chunkBat H w.streamSecret w.cap.bat index) = .ok l) :
    ∀ e ∈ l, ∃ i bat next, index ≤ i ∧ i < index + remaining ∧
      e.1 = chunkKey H w.streamSecret w.cap.mapKey i ∧ w.chunk i e.1 bat next = .ok e.2 := by
  induction remaining generalizing index l with
  | zero =>
      cases hrun
      exact fun e he => absurd he List.not_mem_nil
  | succ remaining ih =>
      unfold SectionWrite.loop at hrun
      obtain ⟨next, hnext, hrun⟩ := bind_eq_ok.1 hrun
      rw [calculateNextMapKey_chunk] at hnext
      cases hnext
      obtain ⟨node, hnode, hrun⟩ := bind_eq_ok.1 hrun
      obtain ⟨rest, hrest, hl⟩ := bind_eq_ok.1 hrun
      cases hl
      intro e he
      rcases List.mem_cons.1 he with rfl | he
      · exact ⟨index, _, _, le_rfl, by omega, rfl, hnode⟩
      · obtain ⟨i, bat, next, hi, hi', hkey, hchunk⟩ := ih hrest e he
        exact ⟨i, bat, next, by omega, by omega, hkey, hchunk⟩

/-- The first chunk, patched. -/
theorem SectionWrite.chunk_zero {w : SectionWrite} {bat : Option Bat} {next : Bytes × Option Bat}
    {node : CryptreeNode} {mapKey : Bytes} (hfirst : KeepsFile w.cap.rBaseKey w.props w.first)
    (hdir : w.props.isDirectory = false) (hrun : w.chunk 0 mapKey bat next = .ok node) :
    KeepsFile w.cap.rBaseKey w.props node := by
  unfold SectionWrite.chunk at hrun
  rw [if_pos (chunkCount_pos _ _)] at hrun
  unfold SectionWrite.existingChunk at hrun
  obtain ⟨node₀, hnode₀, hrun⟩ := bind_eq_ok.1 hrun
  obtain rfl : w.first = node₀ := Except.ok.inj hnode₀
  obtain ⟨bytes, -, hrun⟩ := bind_eq_ok.1 hrun
  obtain ⟨node₁, hnode₁, hrun⟩ := bind_eq_ok.1 hrun
  have hkept := hfirst.overwriteChunkData hnode₁
  unfold SectionWrite.firstProps at hrun
  by_cases hresized : w.newSize ≠ w.props.size
  · rw [if_pos hresized] at hrun
    exact hkept.updateProperties (w.props.sameFile_resizedProps _ _) hdir hrun
  · rw [if_neg hresized] at hrun
    cases hrun
    exact hkept

theorem isDirectory_of_keepsFile (h : KeepsFile cap.rBaseKey props first) :
    props.isDirectory = false := by
  obtain ⟨-, link, p, -, hdir, hsame⟩ := h
  rw [FileProperties.SameFile] at hsame
  rw [hsame] at hdir
  exact hdir

/-- The nodes of a section write under the first map key are of the same file. -/
theorem SectionWrite.keepsFile_of_mem_updates {w : SectionWrite}
    {updates : List (Bytes × CryptreeNode)} (hc : 0 < w.props.chunkSize) (hdata : w.data ≠ [])
    (hfirst : KeepsFile w.cap.rBaseKey w.props w.first)
    (hapart : FirstApart H w.cap w.streamSecret (chunkCount w.newSize w.props.chunkSize))
    (hrun : w.updates H = .ok updates) {e : Bytes × CryptreeNode} (he : e ∈ updates)
    (hkey : e.1 = w.cap.mapKey) : KeepsFile w.cap.rBaseKey w.props e.2 := by
  have hdir := isDirectory_of_keepsFile hfirst
  have hlen := List.length_pos_of_ne_nil hdata
  unfold SectionWrite.updates at hrun
  obtain ⟨start, hstart, hrun⟩ := bind_eq_ok.1 hrun
  rw [advanceMapKey_eq] at hstart
  cases hstart
  obtain ⟨written, hwritten, hrun⟩ := bind_eq_ok.1 hrun
  have hloop : ∀ e ∈ written, e.1 = w.cap.mapKey → KeepsFile w.cap.rBaseKey w.props e.2 := by
    intro e he hkey
    obtain ⟨i, bat, next, hi, hi', hek, hchunk⟩ := w.mem_loop hwritten e he
    have hreach : i < chunkCount w.newSize w.props.chunkSize := by
      have hle : i ≤ (w.offset + w.data.length - 1) / w.props.chunkSize := by omega
      rw [Nat.le_div_iff_mul_le hc] at hle
      refine (lt_chunkCount_iff hc).2 (Or.inr ?_)
      exact lt_of_lt_of_le (by omega) (le_max_right w.props.size _)
    obtain rfl : i = 0 := by
      by_contra h0
      exact hapart i (Nat.pos_of_ne_zero h0) hreach (hek.symm.trans hkey)
    exact w.chunk_zero hfirst hdir hchunk
  unfold SectionWrite.firstProps at hrun
  by_cases hresized : w.newSize ≠ w.props.size
  · rw [if_pos hresized] at hrun
    dsimp only at hrun
    split at hrun
    · obtain ⟨node, hnode, hrun⟩ := bind_eq_ok.1 hrun
      cases hrun
      rcases List.mem_append.1 he with he | he
      · exact hloop e he hkey
      · rw [List.mem_singleton.1 he]
        exact hfirst.updateProperties (w.props.sameFile_resizedProps _ _) hdir hnode
    · cases hrun
      exact hloop e he hkey
  · rw [if_neg hresized] at hrun
    cases hrun
    exact hloop e he hkey

theorem writeFileSection_keeps {offset : ℕ} {data : Bytes} {mirrorBat : Option BatId} {now : ℤ}
    {written : List Bytes} (hmeta : retrieveFileMetadata net cap = .ok (first, props))
    (hc : 0 < props.chunkSize)
    (hapart : FirstApart H cap (props.streamSecret.getD [])
      (chunkCount (max props.size (offset + data.length)) props.chunkSize))
    (hrun : writeFileSection H cap offset data signer mirrorBat now net = (.ok written, net')) :
    HasSameFile net' cap props := by
  unfold writeFileSection at hrun
  split at hrun
  · cases hrun
    exact ⟨first, props, hmeta, .refl _⟩
  · next hdata =>
      obtain ⟨⟨t, node, p⟩, hopen, hrun⟩ := Exec.query_bind_eq_ok hrun
      obtain ⟨hnet, hfetch, hfile, hp⟩ := openFileForWrite_ok hopen
      have hmeta' := retrieveFileMetadata_eq hnet hfetch hp
      obtain ⟨rfl, rfl⟩ := Prod.mk.inj (Except.ok.inj (hmeta.symm.trans hmeta'))
      have hfirst := keepsFile_of_fetch hfetch hfile hp
      dsimp only at hrun
      split at hrun
      · cases hrun
      · cases hsecret : props.streamSecret with
        | none =>
            simp only [hsecret] at hrun
            cases hrun
        | some streamSecret =>
            simp only [hsecret] at hrun
            rw [hsecret, Option.getD_some] at hapart
            obtain ⟨dataKey, -, hrun⟩ := Exec.lift_bind_eq_ok hrun
            obtain ⟨updates, hupdates, hrun⟩ := Exec.lift_bind_eq_ok hrun
            obtain ⟨_, net₁, hcommit, hrun⟩ := Exec.bind_eq_ok hrun
            cases hrun
            exact hasSameFile_of_reuploadNodes hnet hfetch hp
              (fun e he hkey => SectionWrite.keepsFile_of_mem_updates
                (w := ⟨t, cap, first, props, dataKey, streamSecret, offset, data, mirrorBat, now⟩)
                hc hdata hfirst hapart hupdates he hkey)
              List.not_mem_nil hcommit

/-! ## A truncation -/

/-- The map keys from chunk `a` on. -/
theorem keysFrom_chunkKey (H : ContentHasher) (cap : AbsoluteCapability) (streamSecret : Bytes)
    (n a : ℕ) :
    keysFrom H streamSecret n (chunkKey H streamSecret cap.mapKey a)
        (chunkBat H streamSecret cap.bat a) =
      .ok ((List.range' a n).map (chunkKey H streamSecret cap.mapKey)) :=
  keysFrom_eq H ⟨cap, cap.rBaseKey, streamSecret, 1, Nat.one_pos⟩ n a

/-- The nodes of a truncation under the first map key are of the same file, and that key stays. -/
theorem truncation_keeps {streamSecret : Bytes} {newSize : ℕ} {now : ℤ}
    {updates : List (Bytes × CryptreeNode)} {removed : List Bytes}
    (hfirst : KeepsFile cap.rBaseKey props first) (hshorter : newSize < props.size)
    (hapart : FirstApart H cap streamSecret (chunkCount props.size props.chunkSize))
    (hrun : truncation H t cap first props streamSecret newSize now = .ok (updates, removed)) :
    (∀ e ∈ updates, e.1 = cap.mapKey → KeepsFile cap.rBaseKey props e.2) ∧
      cap.mapKey ∉ removed := by
  have hdir := isDirectory_of_keepsFile hfirst
  have hkeep := chunkCount_pos newSize props.chunkSize
  have hle : chunkCount newSize props.chunkSize ≤ chunkCount props.size props.chunkSize :=
    chunkCount_mono hshorter.le
  unfold truncation at hrun
  obtain ⟨dataKey, -, hrun⟩ := bind_eq_ok.1 hrun
  obtain ⟨last, hlast, hrun⟩ := bind_eq_ok.1 hrun
  rw [advanceMapKey_eq] at hlast
  cases hlast
  obtain ⟨lastNode, hlastNode, hrun⟩ := bind_eq_ok.1 hrun
  obtain ⟨bytes, -, hrun⟩ := bind_eq_ok.1 hrun
  obtain ⟨lastNew, hlastNew, hrun⟩ := bind_eq_ok.1 hrun
  obtain ⟨next, hnext, hrun⟩ := bind_eq_ok.1 hrun
  rw [calculateNextMapKey_chunk] at hnext
  cases hnext
  obtain ⟨keys, hkeys, hrun⟩ := bind_eq_ok.1 hrun
  rw [keysFrom_chunkKey] at hkeys
  cases hkeys
  have hremoved : cap.mapKey ∉ (List.range' (chunkCount newSize props.chunkSize - 1 + 1)
      (chunkCount props.size props.chunkSize - chunkCount newSize props.chunkSize)).map
        (chunkKey H streamSecret cap.mapKey) := by
    simp only [List.mem_map, List.mem_range'_1]
    rintro ⟨i, ⟨hi, hi'⟩, heq⟩
    exact hapart i (by omega) (by omega) heq
  by_cases h0 : chunkCount newSize props.chunkSize - 1 = 0
  · rw [if_pos h0] at hrun
    obtain ⟨node, hnode, hrun⟩ := bind_eq_ok.1 hrun
    cases hrun
    refine ⟨fun e he _ => ?_, hremoved⟩
    rw [List.mem_singleton.1 he]
    rw [h0] at hlastNode
    obtain rfl : first = lastNode := Except.ok.inj hlastNode
    exact (hfirst.overwriteChunkData hlastNew).updateProperties
      (props.sameFile_resizedProps _ _) hdir hnode
  · rw [if_neg h0] at hrun
    obtain ⟨node, hnode, hrun⟩ := bind_eq_ok.1 hrun
    cases hrun
    refine ⟨fun e he hkey => ?_, hremoved⟩
    rcases List.mem_cons.1 he with rfl | he
    · exact hfirst.updateProperties (props.sameFile_resizedProps _ _) hdir hnode
    · rw [List.mem_singleton.1 he] at hkey
      exact absurd hkey (hapart _ (Nat.pos_of_ne_zero h0) (by omega))

theorem truncateFile_keeps {newSize : ℕ} {now : ℤ} {changed : List Bytes}
    (hmeta : retrieveFileMetadata net cap = .ok (first, props))
    (hapart : FirstApart H cap (props.streamSecret.getD []) (chunkCount props.size props.chunkSize))
    (hrun : truncateFile H cap newSize signer now net = (.ok changed, net')) :
    HasSameFile net' cap props := by
  unfold truncateFile at hrun
  obtain ⟨⟨t, node, p⟩, hopen, hrun⟩ := Exec.query_bind_eq_ok hrun
  obtain ⟨hnet, hfetch, hfile, hp⟩ := openFileForWrite_ok hopen
  have hmeta' := retrieveFileMetadata_eq hnet hfetch hp
  obtain ⟨rfl, rfl⟩ := Prod.mk.inj (Except.ok.inj (hmeta.symm.trans hmeta'))
  have hfirst := keepsFile_of_fetch hfetch hfile hp
  have hdir := isDirectory_of_keepsFile hfirst
  dsimp only at hrun
  split at hrun
  · cases hrun
    exact ⟨first, props, hmeta, .refl _⟩
  · next hshorter =>
      cases hsecret : props.streamSecret with
      | none =>
          simp only [hsecret] at hrun
          cases hrun
      | some streamSecret =>
          simp only [hsecret] at hrun
          rw [hsecret, Option.getD_some] at hapart
          obtain ⟨⟨updates, removed⟩, htrunc, hrun⟩ := Exec.lift_bind_eq_ok hrun
          obtain ⟨_, net₁, hcommit, hrun⟩ := Exec.bind_eq_ok hrun
          cases hrun
          obtain ⟨hupdates, hremoved⟩ :=
            truncation_keeps hfirst (not_le.1 hshorter) hapart htrunc
          exact hasSameFile_of_reuploadNodes hnet hfetch hp hupdates hremoved hcommit

/-! ## A rewrite -/

/-- The first chunk after a rewrite. -/
theorem rewrite_first {streamSecret : Bytes} {dataKey : SymmetricKey} {c newN oldN : ℕ} (hc : 0 < c)
    {q : ℕ → ChunkParts} {content : Bytes} (hnew : 0 < newN)
    (hapart : FirstApart H cap streamSecret (max oldN newN)) :
    ((((List.range' 0 oldN).filter fun j => newN ≤ j).map
      ((⟨cap, dataKey, streamSecret, c, hc⟩ : FileHandle).key H)).foldl Tree.removeEntry
        (t.writeAll id ((List.range' 0 newN).map fun j =>
          ((⟨cap, dataKey, streamSecret, c, hc⟩ : FileHandle).key H j,
            (⟨cap, dataKey, streamSecret, c, hc⟩ : FileHandle).block (q j)
              (chunkAt c j content))))) cap.mapKey =
      some ((q 0).block cap.rBaseKey dataKey (chunkAt c 0 content)) := by
  rw [Tree.removeAll_of_not_mem]
  · rcases Tree.writeAll_cases (g := id) ((List.range' 0 newN).map fun j =>
        ((⟨cap, dataKey, streamSecret, c, hc⟩ : FileHandle).key H j,
          (⟨cap, dataKey, streamSecret, c, hc⟩ : FileHandle).block (q j) (chunkAt c j content)))
      t cap.mapKey with ⟨hnot, -⟩ | ⟨e, he, hkey, heq⟩
    · refine absurd ?_ hnot
      simp only [List.map_map, List.mem_map, List.mem_range'_1, Function.comp]
      exact ⟨0, ⟨le_rfl, by omega⟩, rfl⟩
    · obtain ⟨j, hj, rfl⟩ := List.mem_map.1 he
      have hj' := (List.mem_range'_1.1 hj).2
      obtain rfl : j = 0 := by
        by_contra h0
        exact hapart j (Nat.pos_of_ne_zero h0) (by omega) hkey
      exact heq
  · simp only [List.mem_map, List.mem_filter, List.mem_range'_1, decide_eq_true_eq]
    rintro ⟨j, ⟨⟨-, hj⟩, hj'⟩, heq⟩
    exact hapart j (by omega) (by omega) heq

/-- A rewrite that succeeds leaves the properties of a new file. -/
theorem rewriteFileContent_properties {content : Bytes} {mirrorBat : Option BatId}
    (hmeta : retrieveFileMetadata net cap = .ok (first, props)) (hc : 0 < props.chunkSize)
    (hapart : FirstApart H cap (props.streamSecret.getD [])
      (max (chunkCount props.size props.chunkSize) (chunkCount content.length props.chunkSize)))
    (hrun : rewriteFileContent H cap content signer mirrorBat net = (.ok (), net')) :
    props.isDirectory = false ∧ ∃ node tree streamSecret, props.streamSecret = some streamSecret ∧
      retrieveFileMetadata net' cap = .ok (node, chunkProps props.name props.mimeType content.length
        props.createdEpoch streamSecret props.thumbnail props.chunkSize false tree 0) := by
  unfold rewriteFileContent at hrun
  obtain ⟨t, htree, hrun⟩ := Exec.query_bind_eq_ok hrun
  have hnet : net cap.writer = some t := by
    unfold openWriterRoot at htree
    split at htree
    · cases htree
      assumption
    · cases htree
  cases hfetch : fetchChunkNode t cap.rBaseKey cap.mapKey with
  | none =>
      simp only [hfetch] at hrun
      cases hrun
  | some node =>
      simp only [hfetch] at hrun
      obtain ⟨p, hp, hrun⟩ := Exec.lift_bind_eq_ok hrun
      have hmeta' := retrieveFileMetadata_eq hnet hfetch hp
      obtain ⟨rfl, rfl⟩ := Prod.mk.inj (Except.ok.inj (hmeta.symm.trans hmeta'))
      split at hrun
      · cases hrun
      · next hfile =>
          have hkept := keepsFile_of_fetch hfetch (by simpa using hfile) hp
          have hdir := isDirectory_of_keepsFile hkept
          obtain ⟨base, -, hrun⟩ := Exec.lift_bind_eq_ok hrun
          obtain ⟨dataKey, -, hrun⟩ := Exec.lift_bind_eq_ok hrun
          obtain ⟨link, -, hrun⟩ := Exec.lift_bind_eq_ok hrun
          cases hsecret : props.streamSecret with
          | none =>
              cases link
              · cases hrun
              · simp only [hsecret] at hrun
                cases hrun
          | some streamSecret =>
              cases link with
              | none => cases hrun
              | some toParent =>
                  simp only [hsecret] at hrun
                  rw [hsecret, Option.getD_some] at hapart
                  refine ⟨hdir, ?_⟩
                  obtain ⟨chunks, hchunks, hrun⟩ := Exec.lift_bind_eq_ok hrun
                  obtain ⟨tree, q, -, hq, rfl⟩ := writeFileChunks_ok
                    (f := ⟨cap, dataKey, streamSecret, props.chunkSize, hc⟩) hchunks
                  obtain ⟨t₁, hput, hrun⟩ := Exec.lift_bind_eq_ok hrun
                  obtain rfl := Except.ok.inj (hput.symm.trans (Tree.foldlM_put (g := id) _ t))
                  obtain ⟨t₂, hdrop, hrun⟩ := Exec.lift_bind_eq_ok hrun
                  rw [List.length_map, List.length_range'] at hdrop
                  obtain rfl := Except.ok.inj (hdrop.symm.trans (dropTrailing_eq H
                    ⟨cap, dataKey, streamSecret, props.chunkSize, hc⟩ _ _ 0 _))
                  rw [commitTree] at hrun
                  split at hrun
                  · cases hrun
                    refine ⟨(q 0).node cap.rBaseKey dataKey (chunkAt props.chunkSize 0 content), tree,
                      streamSecret, rfl, retrieveFileMetadata_eq (Function.update_self _ _ _) ?_ ?_⟩
                    · rw [fetchChunkNode, rewrite_first hc (chunkCount_pos _ _) hapart]
                      exact congrArg some (ChunkParts.fromCbor_block _ _ _ _ (by rw [hq]; rfl))
                    · rw [ChunkParts.getProperties_node, hq]
                  · cases hrun

/-- The number of bytes of a file after an edit. -/
def FileEdit.sizeAfter (props : FileProperties) : FileEdit → ℕ
  | writeSection offset data _ _ => max props.size (offset + data.length)
  | truncate newSize _ => min props.size newSize
  | rewrite content _ => content.length

/-- The files an edit keeps the flags of: a rewrite only those that have none set. -/
def FileEdit.KeepsFlags (props : FileProperties) : FileEdit → Prop
  | writeSection _ _ _ _ => True
  | truncate _ _ => True
  | rewrite _ _ => props.isHidden = false ∧ props.isLink = false

/-- An edit keeps the properties of a file, but for its size, hash tree and time of modification,
exactly if it is no rewrite or the file is neither hidden nor a link. -/
theorem edit_keeps_properties_iff {edit : FileEdit}
    (hmeta : retrieveFileMetadata net cap = .ok (first, props)) (hc : 0 < props.chunkSize)
    (hapart : FirstApart H cap (props.streamSecret.getD [])
      (max (chunkCount props.size props.chunkSize)
        (chunkCount (edit.sizeAfter props) props.chunkSize)))
    (hrun : edit.run H cap signer net = (.ok (), net')) :
    HasSameFile net' cap props ↔ edit.KeepsFlags props := by
  cases edit with
  | writeSection offset data mirrorBat now =>
      obtain ⟨written, net₁, hwrite, hrun⟩ := Exec.bind_eq_ok hrun
      cases hrun
      exact iff_of_true (writeFileSection_keeps hmeta hc
        (fun i h0 hi => hapart i h0 (lt_max_of_lt_right hi)) hwrite) trivial
  | truncate newSize now =>
      obtain ⟨changed, net₁, htruncate, hrun⟩ := Exec.bind_eq_ok hrun
      cases hrun
      exact iff_of_true (truncateFile_keeps hmeta
        (fun i h0 hi => hapart i h0 (lt_max_of_lt_left hi)) htruncate) trivial
  | rewrite content mirrorBat =>
      obtain ⟨hdir, node, tree, streamSecret, hsecret, hmeta'⟩ :=
        rewriteFileContent_properties hmeta hc hapart hrun
      constructor
      · rintro ⟨node', p, hp, hsame⟩
        obtain ⟨-, rfl⟩ := Prod.mk.inj (Except.ok.inj (hmeta'.symm.trans hp))
        rw [FileProperties.SameFile] at hsame
        exact ⟨(congrArg FileProperties.isHidden hsame).symm,
          (congrArg FileProperties.isLink hsame).symm⟩
      · rintro ⟨hhidden, hlink⟩
        refine ⟨node, _, hmeta', ?_⟩
        cases props
        simp_all [FileProperties.SameFile, chunkProps, FileProperties.newFile]

end Edits

/-! ## A hidden file -/

/-- The properties of a hidden file of one byte. -/
def hiddenProps : FileProperties :=
  { FileProperties.newFile "a" "text/plain" 1 0 (List.replicate 32 10) none with isHidden := true }

/-- Its only chunk. -/
def hiddenNode : CryptreeNode :=
  { bats := []
    fromBaseKey := .build rootFileCap.rBaseKey ⟨byteSymmetricKey 9, none,
      .subsequentChunk (List.replicate 32 6) none rootFileCap.rBaseKey⟩
    fromParentKey := .build rootFileCap.rBaseKey ⟨some (toParentLink rootCap (byteSymmetricKey 5)),
      hiddenProps⟩
    childrenOrData := .build (byteSymmetricKey 9) (.data [1])
    isDirectory := false }

/-- A network with nothing but this file. -/
def hiddenNetwork : Network := fun w =>
  if w = rootFileCap.writer then
    some fun k => if k = rootFileCap.mapKey then some hiddenNode.toCbor else none
  else none

theorem retrieveFileMetadata_hidden :
    retrieveFileMetadata hiddenNetwork rootFileCap = .ok (hiddenNode, hiddenProps) := rfl

/-- The file can be rewritten. -/
theorem exists_hidden_rewrite : ∃ net', (FileEdit.rewrite [1, 2] none).run legacyHasher rootFileCap
    (byteSigner 2) hiddenNetwork = (.ok (), net') := by
  have hok : ((FileEdit.rewrite [1, 2] none).run legacyHasher rootFileCap (byteSigner 2)
      hiddenNetwork).1.toOption.isSome = true := by decide +kernel
  refine ⟨_, Prod.ext ?_ rfl⟩
  cases h : ((FileEdit.rewrite [1, 2] none).run legacyHasher rootFileCap (byteSigner 2)
      hiddenNetwork).1 with
  | ok _ => rfl
  | error e =>
      rw [h] at hok
      cases hok

theorem firstApart_hidden : FirstApart legacyHasher rootFileCap
    (hiddenProps.streamSecret.getD []) (max (chunkCount hiddenProps.size hiddenProps.chunkSize)
      (chunkCount ((FileEdit.rewrite [1, 2] none).sizeAfter hiddenProps) hiddenProps.chunkSize)) := by
  have hone : max (chunkCount hiddenProps.size hiddenProps.chunkSize)
      (chunkCount ((FileEdit.rewrite [1, 2] none).sizeAfter hiddenProps) hiddenProps.chunkSize) = 1 := by
    decide
  intro i h0 hi
  omega

/-- A rewrite of a hidden file. -/
theorem edit_keeps_properties_iff_hidden :
    ∃ net', HasSameFile net' rootFileCap hiddenProps ↔
      (FileEdit.rewrite [1, 2] none).KeepsFlags hiddenProps := by
  obtain ⟨net', hrun⟩ := exists_hidden_rewrite
  exact ⟨net', edit_keeps_properties_iff retrieveFileMetadata_hidden (by decide) firstApart_hidden
    hrun⟩

/-- A hidden file is not hidden any more once it has been rewritten. -/
theorem rewrite_shows_hidden_file :
    ∃ net', (FileEdit.rewrite [1, 2] none).run legacyHasher rootFileCap (byteSigner 2)
        hiddenNetwork = (.ok (), net') ∧ ¬HasSameFile net' rootFileCap hiddenProps := by
  obtain ⟨net', hrun⟩ := exists_hidden_rewrite
  refine ⟨net', hrun, ?_⟩
  obtain ⟨-, node, tree, streamSecret, -, hmeta⟩ := rewriteFileContent_properties
    retrieveFileMetadata_hidden (by decide) firstApart_hidden hrun
  rintro ⟨node', p, hp, hsame⟩
  obtain ⟨-, rfl⟩ := Prod.mk.inj (Except.ok.inj (hmeta.symm.trans hp))
  exact Bool.false_ne_true (congrArg FileProperties.isHidden hsame)

end Peergos
