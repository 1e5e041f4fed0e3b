import PeergosClient.Fs.FileContent

/-!
# Editing a file in place

What a section write, a truncation and a rewrite do to a held file: the tree they commit holds the
content spliced, cut short or replaced.  Beside the content, the lemmas say which chunks lose their
hash-tree branch and which keep the node they had.
-/

namespace Peergos

open Chunks

variable {H : ContentHasher} {limit : ℕ} {f : FileHandle} {t : Tree} {parts : ℕ → ChunkParts}
  {content : Bytes}

/-! ## Several puts -/

/-- The tree after puts under the current values. -/
def Tree.writeAll {β : Type} (g : β → CryptreeBlock) (l : List (Bytes × β)) (t : Tree) : Tree :=
  l.foldl (fun t e => Function.update t e.1 (some (g e.2))) t

namespace Tree

variable {β : Type} {g : β → CryptreeBlock}

theorem put_current (t : Tree) (key : Bytes) (value : CryptreeBlock) :
    t.put key (t key) value = .ok (Function.update t key (some value)) := by
  unfold put
  cases h : t key with
  | none => rfl
  | some current => exact if_pos rfl

theorem foldlM_put (l : List (Bytes × β)) (t : Tree) :
    l.foldlM (fun t e => t.put e.1 (t e.1) (g e.2)) t = Except.ok (writeAll g l t) := by
  induction l generalizing t with
  | nil => rfl
  | cons e l ih =>
      rw [List.foldlM_cons, put_current]
      exact ih _

theorem writeAll_append (l l' : List (Bytes × β)) (t : Tree) :
    writeAll g (l ++ l') t = writeAll g l' (writeAll g l t) := List.foldl_append

theorem writeAll_of_not_mem {l : List (Bytes × β)} {t : Tree} {key : Bytes}
    (h : key ∉ l.map Prod.fst) : writeAll g l t key = t key := by
  induction l generalizing t with
  | nil => rfl
  | cons e l ih =>
      rw [List.map_cons, List.mem_cons, not_or] at h
      exact (ih h.2).trans (Function.update_of_ne h.1 _ _)

/-- Puts under a run of distinct keys. -/
theorem writeAll_range {key : ℕ → Bytes} {node : ℕ → β} {a n : ℕ} {t : Tree}
    (hkey : ∀ i, a ≤ i → i < a + n → ∀ j, a ≤ j → j < a + n → key i = key j → i = j)
    {j : ℕ} (hj : a ≤ j) (hj' : j < a + n) :
    writeAll g ((List.range' a n).map fun i => (key i, node i)) t (key j) = some (g (node j)) := by
  induction n generalizing a t with
  | zero => omega
  | succ n ih =>
      rw [List.range'_succ, List.map_cons]
      show writeAll g _ (Function.update t (key a) (some (g (node a)))) (key j) = _
      by_cases heq : j = a
      · subst heq
        rw [writeAll_of_not_mem, Function.update_self]
        simp only [List.map_map, List.mem_map, List.mem_range', Function.comp]
        rintro ⟨i, ⟨k, hk, rfl⟩, hi⟩
        have := hkey _ (by omega) (by omega) j (by omega) (by omega) hi
        omega
      · exact ih (fun i hi hi' k hk hk' => hkey i (by omega) (by omega) k (by omega) (by omega))
          (by omega) (by omega)

theorem removeAll_of_not_mem {l : List Bytes} {t : Tree} {key : Bytes} (h : key ∉ l) :
    l.foldl removeEntry t key = t key := by
  induction l generalizing t with
  | nil => rfl
  | cons k l ih =>
      rw [List.mem_cons, not_or] at h
      exact (ih h.2).trans (Function.update_of_ne h.1 _ _)

theorem removeAll_of_mem {l : List Bytes} {t : Tree} {key : Bytes} (h : key ∈ l) :
    l.foldl removeEntry t key = none := by
  induction l generalizing t with
  | nil => exact absurd h List.not_mem_nil
  | cons k l ih =>
      by_cases hl : key ∈ l
      · exact ih hl
      · have hk : key = k := (List.mem_cons.1 h).resolve_right hl
        exact (removeAll_of_not_mem (l := l) hl).trans (hk ▸ Function.update_self _ _ _)

end Tree

/-- The stored hash of chunk `i` is not stale: there is none, or it is the branch of the hash tree of
the content. -/
def FreshHash (H : ContentHasher) (c : ℕ) (content : Bytes) (i : ℕ) (p : ChunkParts) : Prop :=
  p.props.treeHash = none ∨
    ∃ tree, contentTree H c content = .ok tree ∧ p.props.treeHash = some (tree.branch i)

/-- What an edit makes of a file that was held with `parts`: the tree holds the new content, the
chunks that were written store no stale hash, and the others are as they were. -/
structure EditedFile (H : ContentHasher) (limit : ℕ) (f : FileHandle) (parts : ℕ → ChunkParts)
    (written : ℕ → Prop) (t : Tree) (parts' : ℕ → ChunkParts) (content : Bytes) : Prop where
  holds : HoldsFile H limit f t parts' content
  fresh : ∀ i, written i → FreshHash H f.chunkSize content i (parts' i)
  kept : ∀ i, ¬written i → parts' i = parts i

/-! ## Opening and committing -/

theorem HoldsFile.openFileForWrite_eq (h : HoldsFile H limit f t parts content) {net : Network}
    (hnet : net f.cap.writer = some t) : openFileForWrite net f.cap =
      .ok (t, (parts 0).node f.cap.rBaseKey f.dataKey (chunkAt f.chunkSize 0 content),
        (parts 0).props) := by
  simp only [openFileForWrite, openWriterRoot, hnet, bind, Except.bind, h.fetch_first,
    ChunkParts.isDirectory_node, ChunkParts.getProperties_node, Bool.false_eq_true, if_false, pure,
    Except.pure]

theorem HoldsFile.chunkNode_eq (h : HoldsFile H limit f t parts content) {i : ℕ}
    (hi : i < chunkCount content.length f.chunkSize) :
    chunkNode t f.cap ((parts 0).node f.cap.rBaseKey f.dataKey (chunkAt f.chunkSize 0 content)) i
        (f.key H i) =
      .ok ((parts i).node f.cap.rBaseKey f.dataKey (chunkAt f.chunkSize i content)) := by
  unfold chunkNode
  by_cases h0 : i = 0
  · subst h0
    rfl
  · rw [if_neg h0, h.fetch hi]

/-- A change that is committed by the file's own writer. -/
theorem reuploadNodes_run {cap : AbsoluteCapability} {signer : SigningPrivateKeyAndPublicHash}
    {net : Network} {t : Tree} (hnet : net cap.writer = some t)
    (updates : List (Bytes × CryptreeNode)) (removals : List Bytes) :
    reuploadNodes cap updates removals signer net =
      if signer.publicKeyHash = cap.writer then
        (.ok (), Function.update net cap.writer
          (some (removals.foldl Tree.removeEntry (t.writeAll CryptreeNode.toCbor updates))))
      else (protocolErr "section overwrite pointer rejected (concurrent modification?)", net) := by
  have hopen : openWriterRoot net cap.writer = .ok t := by rw [openWriterRoot, hnet]
  unfold reuploadNodes
  rw [Exec.bind_of_ok (s := net) (a := t) (by rw [Exec.query_run, hopen]),
    Exec.bind_of_ok (s := net) (a := t.writeAll CryptreeNode.toCbor updates)
      (by rw [Exec.lift_run, Tree.foldlM_put])]
  rfl

/-! ## A section write -/

/-- A section write on a held file. -/
def HoldsFile.sectionWrite (_ : HoldsFile H limit f t parts content) (offset : ℕ) (data : Bytes)
    (mirrorBat : Option BatId) (now : ℤ) : SectionWrite :=
  ⟨t, f.cap, (parts 0).node f.cap.rBaseKey f.dataKey (chunkAt f.chunkSize 0 content),
    (parts 0).props, f.dataKey, f.streamSecret, offset, data, mirrorBat, now⟩

/-- Properties that say what the first chunk of a file has to say. -/
structure Describes (f : FileHandle) (size : ℕ) (props : FileProperties) : Prop where
  size : props.size = size
  chunkSize : props.chunkSize = f.chunkSize
  streamSecret : props.streamSecret = some f.streamSecret

/-- The parts of a chunk a section write has written: without a hash-tree branch, and those of the
first chunk with the new size. -/
structure WrittenParts (f : FileHandle) (size i : ℕ) (p : ChunkParts) : Prop where
  isFile : p.props.isDirectory = false
  treeHash : p.props.treeHash = none
  first : i = 0 → Describes f size p.props

section Section

variable {offset : ℕ} {data : Bytes} (mirrorBat : Option BatId) (now : ℤ)

theorem HoldsFile.describes (h : HoldsFile H limit f t parts content) :
    Describes f content.length (parts 0).props := ⟨h.size, h.chunkSize, h.streamSecret⟩

theorem HoldsFile.newSize_eq (h : HoldsFile H limit f t parts content)
    (hoffset : offset ≤ content.length) :
    (h.sectionWrite offset data mirrorBat now).newSize = (splice content offset data).length := by
  rw [length_splice _ _ _ hoffset, ← h.size]
  rfl

/-- The properties of a resized file. -/
theorem describes_resizedProps {props : FileProperties} {size newSize : ℕ}
    (h : Describes f size props) : Describes f newSize (resizedProps props newSize now) :=
  ⟨rfl, h.chunkSize, h.streamSecret⟩

/-- An existing chunk the range overlaps. -/
theorem HoldsFile.existingChunk_eq (h : HoldsFile H limit f t parts content)
    (hoffset : offset ≤ content.length) {i : ℕ} (hi : i < chunkCount content.length f.chunkSize)
    (hstart : offset < (i + 1) * f.chunkSize) (hstop : i * f.chunkSize < offset + data.length) :
    ∃ p, WrittenParts f (splice content offset data).length i p ∧
      (h.sectionWrite offset data mirrorBat now).existingChunk i (f.key H i) =
        .ok (p.node f.cap.rBaseKey f.dataKey
          (chunkAt f.chunkSize i (splice content offset data))) := by
  have hsize : (h.sectionWrite offset data mirrorBat now).newSize = _ :=
    h.newSize_eq mirrorBat now hoffset
  have hpatch := patch_chunkAt (0 : UInt8) hoffset hstart hstop
  set w := h.sectionWrite offset data mirrorBat now with hw
  have hnode : chunkNode w.t w.cap w.first i (f.key H i) = _ := h.chunkNode_eq hi
  have hbytes : patch 0 (chunkAt f.chunkSize i content) (i * w.props.chunkSize) w.props.chunkSize
      w.offset w.data = chunkAt f.chunkSize i (splice content offset data) := by
    rw [show w.props.chunkSize = f.chunkSize from h.chunkSize]
    exact hpatch
  unfold SectionWrite.existingChunk
  simp only [hnode, bind, Except.bind]
  rw [show w.dataKey = f.dataKey from rfl, show w.cap = f.cap from rfl]
  simp only [ChunkParts.getAndDecryptBytes_node, hbytes, ChunkParts.overwriteChunkData_node]
  by_cases hresized : w.newSize ≠ w.props.size ∧ i = 0
  · obtain ⟨hne, rfl⟩ := hresized
    rw [SectionWrite.firstProps, if_pos hne]
    refine ⟨{ (parts 0).overwritten now with props := resizedProps w.props w.newSize w.now },
      ⟨h.isFile 0, rfl, fun _ => ?_⟩, ChunkParts.updateProperties_node _ _ _ _ _⟩
    rw [hsize]
    exact describes_resizedProps now h.describes
  · refine ⟨(parts i).overwritten now, ⟨h.isFile i, rfl, ?_⟩, ?_⟩
    · rintro rfl
      have hsame : w.newSize = w.props.size := by
        by_contra hne
        exact hresized ⟨hne, rfl⟩
      exact ⟨hsame.symm.trans hsize, h.chunkSize, h.streamSecret⟩
    · rw [SectionWrite.firstProps]
      split
      · next p hp hp' =>
          split at hp'
          · next hne => exact absurd ⟨hne, rfl⟩ hresized
          · cases hp'
      · rfl

/-- A chunk past the old end. -/
theorem HoldsFile.newChunk_eq (h : HoldsFile H limit f t parts content)
    (hoffset : offset ≤ content.length) {i : ℕ} (hi : chunkCount content.length f.chunkSize ≤ i)
    (hstart : offset < (i + 1) * f.chunkSize) (hstop : i * f.chunkSize < offset + data.length)
    (bat : Option Bat) (next : Bytes × Option Bat) :
    ∃ p, WrittenParts f (splice content offset data).length i p ∧
      (h.sectionWrite offset data mirrorBat now).newChunk i bat next =
        .ok (p.node f.cap.rBaseKey f.dataKey
          (chunkAt f.chunkSize i (splice content offset data))) := by
  have hpatch := patch_chunkAt (0 : UInt8) hoffset hstart hstop
  rw [chunkAt_eq_nil f.chunkSize_pos hi] at hpatch
  have hsize : (h.sectionWrite offset data mirrorBat now).newSize = _ :=
    h.newSize_eq mirrorBat now hoffset
  set w := h.sectionWrite offset data mirrorBat now with hw
  have hbytes : patch 0 [] (i * w.props.chunkSize) w.props.chunkSize w.offset w.data =
      chunkAt f.chunkSize i (splice content offset data) := by
    rw [show w.props.chunkSize = f.chunkSize from h.chunkSize]
    exact hpatch
  -- a chunk is new only if the file grows
  have hne : w.newSize ≠ w.props.size := by
    rw [hsize, length_splice _ _ _ hoffset, show w.props.size = content.length from h.size]
    have := size_le_chunkCount_mul content.length f.chunkSize_pos
    have hle := Nat.mul_le_mul_right f.chunkSize hi
    omega
  obtain ⟨p, hp, hchunk⟩ := exists_fileChunk bat w.mirrorBat f.cap.rBaseKey f.dataKey none next
    (parts 0).toParent { w.firstProps.getD w.props with thumbnail := none }
    (chunkAt f.chunkSize i (splice content offset data))
  refine ⟨p, ⟨?_, ?_, fun h0 => ?_⟩, ?_⟩
  · rw [hp, SectionWrite.firstProps, if_pos hne]
    exact h.isFile 0
  · rw [hp, SectionWrite.firstProps, if_pos hne]
    rfl
  · have := chunkCount_pos content.length f.chunkSize
    omega
  · have hlink : w.first.parentLink w.cap.rBaseKey = .ok (some (parts 0).toParent) :=
      ChunkParts.parentLink_node _ _ _ _
    unfold SectionWrite.newChunk
    simp only [hlink, bind, Except.bind, hbytes]
    rw [show w.dataKey = f.dataKey from rfl, show w.cap = f.cap from rfl, hchunk]
    rfl

/-- The loop over the overlapped chunks. -/
theorem HoldsFile.loop_eq (h : HoldsFile H limit f t parts content)
    (hoffset : offset ≤ content.length) {m a : ℕ}
    (hoverlap : ∀ i, a ≤ i → i < a + m →
      offset < (i + 1) * f.chunkSize ∧ i * f.chunkSize < offset + data.length) :
    ∃ q : ℕ → ChunkParts,
      (h.sectionWrite offset data mirrorBat now).loop H m a (f.key H a)
          (chunkBat H f.streamSecret f.cap.bat a) =
        .ok ((List.range' a m).map fun i => (f.key H i, (q i).node f.cap.rBaseKey f.dataKey
          (chunkAt f.chunkSize i (splice content offset data)))) ∧
      ∀ i, a ≤ i → i < a + m → WrittenParts f (splice content offset data).length i (q i) := by
  induction m generalizing a with
  | zero => exact ⟨parts, rfl, fun i _ _ => by omega⟩
  | succ m ih =>
      obtain ⟨hstart, hstop⟩ := hoverlap a le_rfl (by omega)
      obtain ⟨q, hq, hparts⟩ :=
        ih (a := a + 1) fun i hi hi' => hoverlap i (by omega) (by omega)
      have hkey := calculateNextMapKey_chunk H f.streamSecret f.cap.mapKey f.cap.bat a
      have hnode : ∃ p, WrittenParts f (splice content offset data).length a p ∧
          (h.sectionWrite offset data mirrorBat now).chunk a (f.key H a)
              (chunkBat H f.streamSecret f.cap.bat a)
              (f.key H (a + 1), chunkBat H f.streamSecret f.cap.bat (a + 1)) =
            .ok (p.node f.cap.rBaseKey f.dataKey
              (chunkAt f.chunkSize a (splice content offset data))) := by
        unfold SectionWrite.chunk
        rw [show (h.sectionWrite offset data mirrorBat now).props = (parts 0).props from rfl,
          h.size, h.chunkSize]
        split
        · next hlt => exact h.existingChunk_eq mirrorBat now hoffset hlt hstart hstop
        · next hge => exact h.newChunk_eq mirrorBat now hoffset (not_lt.1 hge) hstart hstop _ _
      obtain ⟨p, hp, hnode⟩ := hnode
      refine ⟨fun i => if i = a then p else q i, ?_, fun i hi hi' => ?_⟩
      · unfold SectionWrite.loop
        rw [show calculateNextMapKey H (h.sectionWrite offset data mirrorBat now).streamSecret
          (f.key H a) (chunkBat H f.streamSecret f.cap.bat a) =
            .ok (f.key H (a + 1), chunkBat H f.streamSecret f.cap.bat (a + 1)) from hkey]
        simp only [bind, Except.bind, hnode, hq, pure, Except.pure, List.range'_succ,
          List.map_cons, if_true]
        refine congrArg Except.ok (congrArg (List.cons _) (List.map_congr_left fun i hi => ?_))
        have hne : i ≠ a := by
          have := List.mem_range'.1 hi
          omega
        simp only [if_neg hne]
      · by_cases heq : i = a
        · subst heq
          simpa only [if_true] using hp
        · simpa only [if_neg heq] using hparts i (by omega) (by omega)

/-- The chunks a section write overlaps. -/
def Overlaps (c offset : ℕ) (data : Bytes) (i : ℕ) : Prop :=
  offset < (i + 1) * c ∧ i * c < offset + data.length

/-- The chunks a section write writes: those it overlaps, and the first if the file grows. -/
def SectionWritten (c size offset : ℕ) (data : Bytes) (i : ℕ) : Prop :=
  Overlaps c offset data i ∨ (i = 0 ∧ size < offset + data.length)

instance (c offset : ℕ) (data : Bytes) : DecidablePred (Overlaps c offset data) :=
  fun _ => inferInstanceAs (Decidable (_ ∧ _))

instance (c size offset : ℕ) (data : Bytes) : DecidablePred (SectionWritten c size offset data) :=
  fun _ => inferInstanceAs (Decidable (_ ∨ _))

theorem overlaps_iff {c : ℕ} (hc : 0 < c) (hdata : data ≠ []) {i : ℕ} :
    Overlaps c offset data i ↔ offset / c ≤ i ∧ i ≤ (offset + data.length - 1) / c := by
  have hlen := List.length_pos_of_ne_nil hdata
  rw [Overlaps, Nat.le_div_iff_mul_le hc, ← Nat.lt_add_one_iff, Nat.div_lt_iff_lt_mul hc]
  omega

/-- A chunk the range does not reach was there before, and is as it was. -/
theorem lt_chunkCount_of_not_overlaps {c : ℕ} (hc : 0 < c) (hoffset : offset ≤ content.length)
    {i : ℕ} (hi : i < chunkCount (splice content offset data).length c)
    (hnot : ¬Overlaps c offset data i) : i < chunkCount content.length c := by
  rw [lt_chunkCount_iff hc, length_splice _ _ _ hoffset] at hi
  rw [lt_chunkCount_iff hc]
  rw [Overlaps, Nat.succ_mul] at hnot
  omega

theorem chunkAt_of_not_overlaps {c : ℕ} (hoffset : offset ≤ content.length) {i : ℕ}
    (hnot : ¬Overlaps c offset data i) :
    chunkAt c i (splice content offset data) = chunkAt c i content := by
  refine chunkAt_splice_of_disjoint hoffset ?_
  rw [Overlaps] at hnot
  omega

theorem overlaps_lt_chunkCount {c : ℕ} (hc : 0 < c) (hoffset : offset ≤ content.length) {i : ℕ}
    (h : Overlaps c offset data i) : i < chunkCount (splice content offset data).length c := by
  rw [lt_chunkCount_iff hc, length_splice _ _ _ hoffset]
  exact Or.inr (lt_max_of_lt_right h.2)

/-- The parts of a first chunk that is written for its size alone. -/
def HoldsFile.resizedFirst (h : HoldsFile H limit f t parts content) (offset : ℕ) (data : Bytes)
    (mirrorBat : Option BatId) (now : ℤ) : ChunkParts :=
  { parts 0 with
    props := resizedProps (parts 0).props (h.sectionWrite offset data mirrorBat now).newSize now }

/-- Whether the first chunk is written for its size alone. -/
def ResizesFirst (c size offset : ℕ) (data : Bytes) : Prop :=
  0 < offset / c ∧ size < offset + data.length

instance (c size offset : ℕ) (data : Bytes) : Decidable (ResizesFirst c size offset data) :=
  inferInstanceAs (Decidable (_ ∧ _))

/-- The nodes a section write writes. -/
theorem HoldsFile.updates_eq (h : HoldsFile H limit f t parts content)
    (hoffset : offset ≤ content.length) (hdata : data ≠ []) :
    ∃ q : ℕ → ChunkParts,
      (∀ i, Overlaps f.chunkSize offset data i →
        WrittenParts f (splice content offset data).length i (q i)) ∧
      (h.sectionWrite offset data mirrorBat now).updates H =
        .ok (((List.range' (offset / f.chunkSize)
            ((offset + data.length - 1) / f.chunkSize + 1 - offset / f.chunkSize)).map fun i =>
              (f.key H i, (q i).node f.cap.rBaseKey f.dataKey
                (chunkAt f.chunkSize i (splice content offset data)))) ++
          if ResizesFirst f.chunkSize content.length offset data then
            [(f.cap.mapKey, (h.resizedFirst offset data mirrorBat now).node f.cap.rBaseKey f.dataKey
              (chunkAt f.chunkSize 0 content))]
          else []) := by
  have hlen := List.length_pos_of_ne_nil hdata
  have hle : offset / f.chunkSize ≤ (offset + data.length - 1) / f.chunkSize :=
    Nat.div_le_div_right (by omega)
  have hrange : ∀ i, offset / f.chunkSize ≤ i → i < offset / f.chunkSize +
      ((offset + data.length - 1) / f.chunkSize + 1 - offset / f.chunkSize) →
      Overlaps f.chunkSize offset data i := fun i hi hi' =>
    (overlaps_iff f.chunkSize_pos hdata).2 ⟨hi, by omega⟩
  obtain ⟨q, hq, hparts⟩ := h.loop_eq mirrorBat now hoffset hrange
  refine ⟨q, fun i hi => ?_, ?_⟩
  · obtain ⟨hi, hi'⟩ := (overlaps_iff f.chunkSize_pos hdata).1 hi
    exact hparts i hi (by omega)
  · have hadvance := advanceMapKey_eq H f.streamSecret f.cap.mapKey f.cap.bat (offset / f.chunkSize)
    have hfirst : (h.sectionWrite offset data mirrorBat now).first.updateProperties f.cap.rBaseKey
        (resizedProps (parts 0).props (h.sectionWrite offset data mirrorBat now).newSize now) =
        .ok ((h.resizedFirst offset data mirrorBat now).node f.cap.rBaseKey f.dataKey
          (chunkAt f.chunkSize 0 content)) := ChunkParts.updateProperties_node _ _ _ _ _
    set w := h.sectionWrite offset data mirrorBat now with hw
    have hgrows : w.newSize ≠ w.props.size ↔ content.length < offset + data.length := by
      rw [h.newSize_eq mirrorBat now hoffset, length_splice _ _ _ hoffset,
        show w.props.size = content.length from h.size]
      omega
    unfold SectionWrite.updates
    rw [show w.props.chunkSize = f.chunkSize from h.chunkSize]
    simp only [show w.offset = offset from rfl, show w.data = data from rfl, bind, Except.bind,
      show advanceMapKey H w.streamSecret w.cap.mapKey w.cap.bat (offset / f.chunkSize) = _ from
        hadvance]
    rw [show w.loop H _ _ (chunkKey H f.streamSecret f.cap.mapKey (offset / f.chunkSize))
      (chunkBat H f.streamSecret f.cap.bat (offset / f.chunkSize)) = _ from hq]
    rw [SectionWrite.firstProps]
    by_cases hg : content.length < offset + data.length
    · simp only [if_pos (hgrows.2 hg)]
      by_cases h0 : 0 < offset / f.chunkSize
      · simp only [if_pos h0, if_pos (show ResizesFirst f.chunkSize content.length offset data from
          ⟨h0, hg⟩)]
        rw [show w.first.updateProperties w.cap.rBaseKey (resizedProps w.props w.newSize w.now) = _
          from hfirst]
        rfl
      · simp only [if_neg h0, if_neg (show ¬ResizesFirst f.chunkSize content.length offset data from
          fun hr => h0 hr.1), List.append_nil]
        rfl
    · simp only [if_neg (fun hne => hg (hgrows.1 hne)),
        if_neg (show ¬ResizesFirst f.chunkSize content.length offset data from fun hr => hg hr.2),
        List.append_nil]
      rfl

/-- The tree with the overlapped chunks written, and the first for its size. -/
theorem writeAll_section (hdistinct : f.DistinctKeys H limit) (hdata : data ≠ [])
    (hover : ∀ i, Overlaps f.chunkSize offset data i → i < limit) (size : ℕ)
    (q : ℕ → CryptreeNode) (first : CryptreeNode) {i : ℕ} (hi : i < limit) :
    t.writeAll CryptreeNode.toCbor (((List.range' (offset / f.chunkSize)
        ((offset + data.length - 1) / f.chunkSize + 1 - offset / f.chunkSize)).map fun i =>
          (f.key H i, q i)) ++
        if ResizesFirst f.chunkSize size offset data then [(f.cap.mapKey, first)] else [])
      (f.key H i) =
      if Overlaps f.chunkSize offset data i then some (q i).toCbor
      else if i = 0 ∧ ResizesFirst f.chunkSize size offset data then some first.toCbor
      else t (f.key H i) := by
  have hrange : ∀ {j}, offset / f.chunkSize ≤ j → j < offset / f.chunkSize +
      ((offset + data.length - 1) / f.chunkSize + 1 - offset / f.chunkSize) →
      Overlaps f.chunkSize offset data j := fun hj hj' =>
    (overlaps_iff f.chunkSize_pos hdata).2 ⟨hj, by omega⟩
  rw [Tree.writeAll_append]
  by_cases hov : Overlaps f.chunkSize offset data i
  · obtain ⟨hlo, hhi⟩ := (overlaps_iff f.chunkSize_pos hdata).1 hov
    rw [if_pos hov, Tree.writeAll_of_not_mem]
    · exact Tree.writeAll_range (fun a ha ha' b hb hb' =>
        hdistinct a (hover a (hrange ha ha')) b (hover b (hrange hb hb'))) hlo (by omega)
    · -- the range starts after a first chunk that is written for its size
      split
      · next hr =>
          have h0 := hr.1
          have hne : f.key H i ≠ f.cap.mapKey := fun heq => by
            have := hdistinct i hi 0 (by omega) heq
            omega
          simpa using hne
      · exact List.not_mem_nil
  · have hnot : f.key H i ∉ (((List.range' (offset / f.chunkSize)
        ((offset + data.length - 1) / f.chunkSize + 1 - offset / f.chunkSize)).map fun i =>
          (f.key H i, q i)).map Prod.fst) := by
      simp only [List.map_map, List.mem_map, List.mem_range'_1, Function.comp]
      rintro ⟨j, ⟨hj, hj'⟩, heq⟩
      have hjo := hrange hj hj'
      exact hov (hdistinct j (hover j hjo) i hi heq ▸ hjo)
    rw [if_neg hov]
    by_cases hr : ResizesFirst f.chunkSize size offset data
    · rw [if_pos hr]
      by_cases h0 : i = 0
      · subst h0
        rw [if_pos ⟨rfl, hr⟩]
        exact Function.update_self _ _ _
      · rw [if_neg fun h => h0 h.1, Tree.writeAll_of_not_mem, Tree.writeAll_of_not_mem hnot]
        have hne : f.key H i ≠ f.cap.mapKey := fun heq => h0 (hdistinct i hi 0 (by omega) heq)
        simpa using hne
    · rw [if_neg hr, if_neg fun h => hr h.2]
      exact Tree.writeAll_of_not_mem hnot

/-- The tree with the nodes of a section write. -/
theorem HoldsFile.writeAll_updates (h : HoldsFile H limit f t parts content)
    (hdistinct : f.DistinctKeys H limit) (hoffset : offset ≤ content.length) (hdata : data ≠ [])
    (hlimit : chunkCount (splice content offset data).length f.chunkSize ≤ limit) :
    ∃ ups parts', (h.sectionWrite offset data mirrorBat now).updates H = .ok ups ∧
      EditedFile H limit f parts (SectionWritten f.chunkSize content.length offset data)
        (t.writeAll CryptreeNode.toCbor ups) parts' (splice content offset data) := by
  obtain ⟨q, hq, hupdates⟩ := h.updates_eq mirrorBat now hoffset hdata
  have hc := f.chunkSize_pos
  have hlen := List.length_pos_of_ne_nil hdata
  have hsize := length_splice content offset data hoffset
  have hover : ∀ i, Overlaps f.chunkSize offset data i → i < limit := fun i hi =>
    lt_of_lt_of_le (overlaps_lt_chunkCount hc hoffset hi) hlimit
  have hgrows : chunkCount content.length f.chunkSize ≤
      chunkCount (splice content offset data).length f.chunkSize := chunkCount_mono (by omega)
  have htree := fun i (hi : i < limit) => writeAll_section (t := t) hdistinct hdata hover
    content.length (fun i => (q i).node f.cap.rBaseKey f.dataKey
      (chunkAt f.chunkSize i (splice content offset data)))
    ((h.resizedFirst offset data mirrorBat now).node f.cap.rBaseKey f.dataKey
      (chunkAt f.chunkSize 0 content)) hi
  set first := h.resizedFirst offset data mirrorBat now with hfirst
  have hdesc : Describes f (splice content offset data).length
      (if Overlaps f.chunkSize offset data 0 then q 0
        else if 0 = 0 ∧ ResizesFirst f.chunkSize content.length offset data then first
        else parts 0).props := by
    split
    · next hov => exact (hq 0 hov).first rfl
    · next hov =>
        split
        · rw [← h.newSize_eq mirrorBat now hoffset]
          exact describes_resizedProps now h.describes
        · next hr =>
            have hsame : (splice content offset data).length = content.length := by
              by_contra hne
              refine hr ⟨rfl, Nat.div_pos ?_ hc, by omega⟩
              rw [Overlaps] at hov
              omega
            rw [hsame]
            exact h.describes
  refine ⟨_, fun i => if Overlaps f.chunkSize offset data i then q i
    else if i = 0 ∧ ResizesFirst f.chunkSize content.length offset data then first
    else parts i, hupdates, ⟨⟨⟨hlimit, fun i hi => ?_, fun i hi hge => ?_, fun i => ?_, hdesc.size,
      hdesc.streamSecret⟩, hdesc.chunkSize⟩, fun i hw => ?_, fun i hw => ?_⟩⟩
  · rw [htree i (hi.trans_le hlimit)]
    split
    · rfl
    · next hov =>
        rw [chunkAt_of_not_overlaps hoffset hov]
        split
        · next h0 => rw [h0.1]; rfl
        · exact h.present i (lt_chunkCount_of_not_overlaps hc hoffset hi hov)
  · rw [htree i hi, if_neg fun hov => absurd (overlaps_lt_chunkCount hc hoffset hov) (by omega),
      if_neg]
    · exact h.absent i hi (by omega)
    · rintro ⟨rfl, -⟩
      have := chunkCount_pos (splice content offset data).length f.chunkSize
      omega
  · split
    · next hov => exact (hq i hov).isFile
    · split
      · exact h.isFile 0
      · exact h.isFile i
  · split
    · next hov => exact Or.inl (hq i hov).treeHash
    · next hov =>
        obtain ⟨rfl, hg⟩ := hw.resolve_left hov
        rw [if_pos]
        · exact Or.inl rfl
        · refine ⟨rfl, Nat.div_pos ?_ hc, hg⟩
          rw [Overlaps] at hov
          omega
  · rw [SectionWritten, not_or] at hw
    rw [if_neg hw.1, if_neg fun hr => hw.2 ⟨hr.1, hr.2.2⟩]

/-- A section write within the file. -/
theorem HoldsFile.writeFileSection_eq (h : HoldsFile H limit f t parts content)
    (hdistinct : f.DistinctKeys H limit) {net : Network} (hnet : net f.cap.writer = some t)
    (signer : SigningPrivateKeyAndPublicHash) (hoffset : offset ≤ content.length)
    (hdata : data ≠ [])
    (hlimit : chunkCount (splice content offset data).length f.chunkSize ≤ limit) :
    ∃ keys t' parts', writeFileSection H f.cap offset data signer mirrorBat now net =
        (if signer.publicKeyHash = f.cap.writer then
          (.ok keys, Function.update net f.cap.writer (some t'))
        else (protocolErr "section overwrite pointer rejected (concurrent modification?)", net)) ∧
      EditedFile H limit f parts (SectionWritten f.chunkSize content.length offset data) t' parts'
        (splice content offset data) := by
  have hopen := h.openFileForWrite_eq hnet
  obtain ⟨ups, parts', hups, hedited⟩ :=
    h.writeAll_updates mirrorBat now hdistinct hoffset hdata hlimit
  refine ⟨ups.map Prod.fst, _, parts', ?_, hedited⟩
  unfold writeFileSection
  rw [if_neg hdata, Exec.bind_of_ok (by rw [Exec.query_run, hopen])]
  simp only [h.size, h.streamSecret, if_neg (not_lt.2 hoffset)]
  rw [Exec.bind_of_ok (by rw [Exec.lift_run, ChunkParts.getDataKey_node]),
    Exec.bind_of_ok (a := ups) (by rw [Exec.lift_run]; exact congrArg (·, net) hups),
    Exec.bind_run, reuploadNodes_run hnet]
  split_ifs
  · rfl
  · rfl

/-- A section write that succeeds. -/
theorem HoldsFile.writeFileSection_ok (h : HoldsFile H limit f t parts content)
    (hdistinct : f.DistinctKeys H limit) {net net' : Network} (hnet : net f.cap.writer = some t)
    {signer : SigningPrivateKeyAndPublicHash} {written : List Bytes} (hdata : data ≠ [])
    (hlimit : chunkCount (splice content offset data).length f.chunkSize ≤ limit)
    (hrun : writeFileSection H f.cap offset data signer mirrorBat now net = (.ok written, net')) :
    offset ≤ content.length ∧ ∃ t' parts', net' = Function.update net f.cap.writer (some t') ∧
      EditedFile H limit f parts (SectionWritten f.chunkSize content.length offset data) t' parts'
        (splice content offset data) := by
  have hoffset : offset ≤ content.length := by
    by_contra hgt
    unfold writeFileSection at hrun
    rw [if_neg hdata, Exec.bind_of_ok (by rw [Exec.query_run, h.openFileForWrite_eq hnet])] at hrun
    simp only [h.size, if_pos (not_le.1 hgt)] at hrun
    cases hrun
  obtain ⟨keys, t', parts', heq, hedited⟩ :=
    h.writeFileSection_eq mirrorBat now hdistinct hnet signer hoffset hdata hlimit
  rw [heq] at hrun
  split_ifs at hrun
  · cases hrun
    exact ⟨hoffset, t', parts', rfl, hedited⟩
  · cases hrun

end Section

/-! ## A truncation -/

theorem keysFrom_eq (H : ContentHasher) (f : FileHandle) (n a : ℕ) :
    keysFrom H f.streamSecret n (f.key H a) (chunkBat H f.streamSecret f.cap.bat a) =
      .ok ((List.range' a n).map (f.key H)) := by
  induction n generalizing a with
  | zero => rfl
  | succ n ih =>
      have hkey := calculateNextMapKey_chunk H f.streamSecret f.cap.mapKey f.cap.bat a
      unfold keysFrom
      rw [show calculateNextMapKey H f.streamSecret (f.key H a)
        (chunkBat H f.streamSecret f.cap.bat a) =
          .ok (f.key H (a + 1), chunkBat H f.streamSecret f.cap.bat (a + 1)) from hkey]
      simp only [bind, Except.bind, ih, pure, Except.pure, List.range'_succ, List.map_cons]

section Truncation

variable {newSize : ℕ} (now : ℤ)

/-- The first chunk of a file that is cut short. -/
def ChunkParts.cutShort (p : ChunkParts) (newSize : ℕ) (now : ℤ) : ChunkParts :=
  { p with props := resizedProps p.props newSize now }

/-- The last chunk that is kept. -/
def lastKept (c newSize : ℕ) : ℕ := chunkCount newSize c - 1

/-- The nodes a truncation writes, and the keys it removes. -/
theorem HoldsFile.truncation_eq (h : HoldsFile H limit f t parts content)
    (hnew : newSize < content.length) :
    truncation H t f.cap ((parts 0).node f.cap.rBaseKey f.dataKey (chunkAt f.chunkSize 0 content))
        (parts 0).props f.streamSecret newSize now =
      .ok (if lastKept f.chunkSize newSize = 0 then
          [(f.cap.mapKey, ((parts 0).cutShort newSize now).node f.cap.rBaseKey f.dataKey
            (chunkAt f.chunkSize 0 (content.take newSize)))]
        else
          [(f.cap.mapKey, ((parts 0).cutShort newSize now).node f.cap.rBaseKey f.dataKey
              (chunkAt f.chunkSize 0 content)),
            (f.key H (lastKept f.chunkSize newSize),
              ((parts (lastKept f.chunkSize newSize)).overwritten now).node f.cap.rBaseKey f.dataKey
                (chunkAt f.chunkSize (lastKept f.chunkSize newSize) (content.take newSize)))],
        (List.range' (chunkCount newSize f.chunkSize)
          (chunkCount content.length f.chunkSize - chunkCount newSize f.chunkSize)).map
            (f.key H)) := by
  set last := lastKept f.chunkSize newSize with hlast
  have hkeep := chunkCount_pos newSize f.chunkSize
  have hsucc : last + 1 = chunkCount newSize f.chunkSize := by rw [hlast, lastKept]; omega
  have hlt : last < chunkCount content.length f.chunkSize :=
    lt_of_lt_of_le (by omega) (chunkCount_mono hnew.le)
  have hadvance : advanceMapKey H f.streamSecret f.cap.mapKey f.cap.bat last =
      .ok (f.key H last, chunkBat H f.streamSecret f.cap.bat last) := advanceMapKey_eq _ _ _ _ _
  have hnext : calculateNextMapKey H f.streamSecret (f.key H last)
      (chunkBat H f.streamSecret f.cap.bat last) =
        .ok (f.key H (last + 1), chunkBat H f.streamSecret f.cap.bat (last + 1)) :=
    calculateNextMapKey_chunk H f.streamSecret f.cap.mapKey f.cap.bat last
  unfold truncation
  simp only [h.size, h.chunkSize, ChunkParts.getDataKey_node, bind, Except.bind]
  rw [show chunkCount newSize f.chunkSize - 1 = last from rfl]
  simp only [hadvance, h.chunkNode_eq hlt, ChunkParts.getAndDecryptBytes_node, ← chunkAt_take,
    ChunkParts.overwriteChunkData_node, hnext, keysFrom_eq, hsucc]
  by_cases h0 : last = 0
  · rw [if_pos h0, if_pos h0, h0]
    simp only [ChunkParts.updateProperties_node]
    rfl
  · rw [if_neg h0, if_neg h0]
    simp only [ChunkParts.updateProperties_node]
    rfl

/-- Chunks before the last kept one are not cut. -/
theorem chunkAt_take_of_lt {c : ℕ} (hc : 0 < c) {i : ℕ} (hi : i < lastKept c newSize) :
    chunkAt c i (content.take newSize) = chunkAt c i content := by
  have hlt : i + 1 < chunkCount newSize c := by
    rw [lastKept] at hi
    omega
  have hsize := ((lt_chunkCount_iff hc).1 hlt).resolve_left (Nat.succ_ne_zero i)
  rw [Nat.succ_mul] at hsize
  rw [chunkAt_take, List.take_of_length_le]
  rw [length_chunkAt]
  omega

/-- The parts of a file that is cut short. -/
def truncatedParts (parts : ℕ → ChunkParts) (c newSize : ℕ) (now : ℤ) (i : ℕ) : ChunkParts :=
  if i = 0 then (parts 0).cutShort newSize now
  else if i = lastKept c newSize then (parts i).overwritten now else parts i

/-- The first and the last kept chunk written. -/
theorem writeAll_first_last (hdistinct : f.DistinctKeys H limit) {last : ℕ} (hlast : last < limit)
    (only first node : CryptreeNode) {i : ℕ} (hi : i < limit) :
    t.writeAll CryptreeNode.toCbor (if last = 0 then [(f.cap.mapKey, only)]
        else [(f.cap.mapKey, first), (f.key H last, node)]) (f.key H i) =
      if i = 0 then some (if last = 0 then only else first).toCbor
      else if i = last then some node.toCbor else t (f.key H i) := by
  have hne : ∀ {j}, j < limit → i ≠ j → f.key H i ≠ f.key H j := fun hj hne heq =>
    hne (hdistinct i hi _ hj heq)
  by_cases h0 : last = 0
  · rw [if_pos h0, if_pos h0]
    by_cases hi0 : i = 0
    · subst hi0
      rw [if_pos rfl]
      exact Function.update_self _ _ _
    · rw [if_neg hi0, if_neg (by omega)]
      exact Function.update_of_ne (hne (j := 0) (by omega) hi0) _ _
  · rw [if_neg h0, if_neg h0]
    by_cases hil : i = last
    · subst hil
      rw [if_neg h0, if_pos rfl]
      exact Function.update_self _ _ _
    · rw [if_neg hil]
      refine (Function.update_of_ne (hne hlast hil) _ _).trans ?_
      by_cases hi0 : i = 0
      · subst hi0
        rw [if_pos rfl]
        exact Function.update_self _ _ _
      · rw [if_neg hi0]
        exact Function.update_of_ne (hne (j := 0) (by omega) hi0) _ _

/-- The tree after a truncation. -/
theorem HoldsFile.truncate_tree (h : HoldsFile H limit f t parts content)
    (hdistinct : f.DistinctKeys H limit) (hnew : newSize < content.length) :
    ∃ ups removed,
      truncation H t f.cap ((parts 0).node f.cap.rBaseKey f.dataKey
        (chunkAt f.chunkSize 0 content)) (parts 0).props f.streamSecret newSize now =
          .ok (ups, removed) ∧
      EditedFile H limit f parts (fun i => i = 0 ∨ i = lastKept f.chunkSize newSize)
        (removed.foldl Tree.removeEntry (t.writeAll CryptreeNode.toCbor ups))
        (truncatedParts parts f.chunkSize newSize now) (content.take newSize) := by
  have hc := f.chunkSize_pos
  have hpos := chunkCount_pos newSize f.chunkSize
  have hlen : (content.take newSize).length = newSize := List.length_take_of_le hnew.le
  have hmono : chunkCount newSize f.chunkSize ≤ chunkCount content.length f.chunkSize :=
    chunkCount_mono hnew.le
  have hkept : lastKept f.chunkSize newSize = chunkCount newSize f.chunkSize - 1 := rfl
  have hwithin := h.within
  have htree := fun i (hi : i < limit) => writeAll_first_last (t := t) hdistinct
    (show lastKept f.chunkSize newSize < limit by omega)
    (((parts 0).cutShort newSize now).node f.cap.rBaseKey f.dataKey
      (chunkAt f.chunkSize 0 (content.take newSize)))
    (((parts 0).cutShort newSize now).node f.cap.rBaseKey f.dataKey (chunkAt f.chunkSize 0 content))
    (((parts (lastKept f.chunkSize newSize)).overwritten now).node f.cap.rBaseKey f.dataKey
      (chunkAt f.chunkSize (lastKept f.chunkSize newSize) (content.take newSize))) hi
  refine ⟨_, _, h.truncation_eq now hnew, ⟨⟨⟨by rw [hlen]; omega, fun i hi => ?_,
    fun i hi hge => ?_, fun i => ?_, ?_, h.streamSecret⟩, h.chunkSize⟩, fun i hw => ?_,
    fun i hw => ?_⟩⟩
  · rw [hlen] at hi
    rw [Tree.removeAll_of_not_mem]
    · rw [htree i (by omega), truncatedParts]
      by_cases hi0 : i = 0
      · subst hi0
        rw [if_pos rfl, if_pos rfl]
        split
        · rfl
        · rw [chunkAt_take_of_lt hc (by omega)]
          rfl
      · rw [if_neg hi0, if_neg hi0]
        by_cases hil : i = lastKept f.chunkSize newSize
        · rw [if_pos hil, if_pos hil, hil]
          rfl
        · rw [if_neg hil, if_neg hil, chunkAt_take_of_lt hc (by omega)]
          exact h.present i (by omega)
    · simp only [List.mem_map, List.mem_range'_1]
      rintro ⟨j, ⟨hj, hj'⟩, heq⟩
      have := hdistinct j (by omega) i (by omega) heq
      omega
  · rw [hlen] at hge
    by_cases hold : i < chunkCount content.length f.chunkSize
    · refine Tree.removeAll_of_mem (List.mem_map_of_mem (List.mem_range'_1.2 ⟨hge, by omega⟩))
    · rw [Tree.removeAll_of_not_mem, htree i hi, if_neg (by omega), if_neg (by omega)]
      · exact h.absent i hi (not_lt.1 hold)
      · simp only [List.mem_map, List.mem_range'_1]
        rintro ⟨j, ⟨hj, hj'⟩, heq⟩
        have := hdistinct j (by omega) i (by omega) heq
        omega
  · unfold truncatedParts
    split
    · exact h.isFile 0
    · split
      · exact h.isFile i
      · exact h.isFile i
  · rw [hlen]
    rfl
  · refine Or.inl ?_
    unfold truncatedParts
    split
    · rfl
    · next h0 =>
        rw [if_pos (hw.resolve_left h0)]
        rfl
  · rw [not_or] at hw
    rw [truncatedParts, if_neg hw.1, if_neg hw.2]

/-- A truncation to the size the file has, or more, does nothing. -/
theorem HoldsFile.truncateFile_of_le (h : HoldsFile H limit f t parts content) {net : Network}
    (hnet : net f.cap.writer = some t) (signer : SigningPrivateKeyAndPublicHash)
    (hnew : content.length ≤ newSize) : truncateFile H f.cap newSize signer now net = (.ok [], net) := by
  have hopen := h.openFileForWrite_eq hnet
  unfold truncateFile
  rw [Exec.bind_of_ok (by rw [Exec.query_run, hopen])]
  simp only [h.size, if_pos hnew]
  rfl

/-- A truncation that succeeds. -/
theorem HoldsFile.truncateFile_ok (h : HoldsFile H limit f t parts content)
    (hdistinct : f.DistinctKeys H limit) {net net' : Network} (hnet : net f.cap.writer = some t)
    {signer : SigningPrivateKeyAndPublicHash} {written : List Bytes}
    (hnew : newSize < content.length)
    (hrun : truncateFile H f.cap newSize signer now net = (.ok written, net')) :
    ∃ t' parts', net' = Function.update net f.cap.writer (some t') ∧
      EditedFile H limit f parts (fun i => i = 0 ∨ i = lastKept f.chunkSize newSize) t' parts'
        (content.take newSize) := by
  have hopen := h.openFileForWrite_eq hnet
  obtain ⟨ups, removed, htrunc, hedited⟩ := h.truncate_tree now hdistinct hnew
  unfold truncateFile at hrun
  rw [Exec.bind_of_ok (by rw [Exec.query_run, hopen])] at hrun
  simp only [h.size, h.streamSecret, if_neg (not_le.2 hnew)] at hrun
  rw [Exec.bind_of_ok (a := (ups, removed))
    (by rw [Exec.lift_run]; exact congrArg (·, net) htrunc), Exec.bind_run,
    reuploadNodes_run hnet] at hrun
  split at hrun
  · next hsigner =>
      split at hsigner
      · cases hsigner
        cases hrun
        exact ⟨_, _, rfl, hedited⟩
      · cases hsigner
  · cases hrun

end Truncation

end Peergos
