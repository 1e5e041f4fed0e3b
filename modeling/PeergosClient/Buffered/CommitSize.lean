import PeergosClient.Buffered.Flush
import PeergosClient.Cbor.Size
import PeergosClient.Fs.CapabilityCbor
import PeergosClient.Lib.ByteOrder
import PeergosClient.Lib.Sha256

/-!
# How big a bulk commit gets

A server takes a `bulk/commit` of at most `MAX_BULK_COMMIT_SIZE` bytes that names at most
`MAX_BULK_COMMIT_BLOCKS` blocks.  The client counts the inline bytes and the blocks and leaves
64 KiB for everything else, the *framing*: headers, keys, signatures and the hashes of the blocks
written ahead.

`signMessage` and `sha256` are parameters; a signed message is the message and 64 bytes more.
-/

namespace Peergos

open CborObject

/-- `MAX_BLOCK_SIZE`. -/
def maxBlockSize : ℕ := 1024 * 1024 + 100

/-! ## The encodings -/

/-- `maybe_to_cbor`. -/
def maybeToCbor : Option Cid → CborObject
  | some cid => .byteString cid.toBytes
  | none => .null

/-- `PointerUpdate::to_cbor`. -/
def PointerUpdate.toCbor (u : PointerUpdate) : CborObject :=
  .list ([maybeToCbor u.original, maybeToCbor u.updated] ++ (u.sequence.map .long).toList)

/-- `byte_list`. -/
def byteList (blocks : List Bytes) : CborObject := .list (blocks.map .byteString)

/-- `link_list`. -/
def linkList (cids : List Cid) : CborObject := .list (cids.map fun c => .merkleLink c.toBytes)

/-- `WriterCommit::block_list_payload`. -/
def blockListPayload (sha256 : Bytes → Bytes) (blocks : List Cid) (nextSequence : Option Int64) :
    Bytes :=
  sha256 ((blocks.map Cid.toBytes).flatten ++ ByteOrder.beI64 (nextSequence.getD 0).toInt)

section Encodings

variable (signMessage : PublicKeyHash → Bytes → Bytes) (sha256 : Bytes → Bytes)

/-- `SignedPointerUpdate::to_cbor`. -/
def SignedPointerUpdate.toCbor (u : SignedPointerUpdate) : CborObject :=
  .build [("w", u.writer.toCbor), ("s", .byteString (signMessage u.writer u.signed.toCbor.toBytes))]

/-- The signature a blocks-only commit carries. -/
def WriterCommit.signature (writer : PublicKeyHash) (list : List Cid × Option Int64) : Bytes :=
  signMessage writer (blockListPayload sha256 list.1 list.2)

/-- `WriterCommit::to_cbor`. -/
def WriterCommit.toCbor (w : WriterCommit) : CborObject :=
  .build ([("w", w.writer.toCbor), ("c", byteList w.cborBlocks), ("r", byteList w.rawBlocks),
      ("p", linkList w.preWritten)] ++
    (w.pointer.map fun u => ("u", u.toCbor signMessage)).toList ++
    (w.blockListSignature.map fun s =>
      ("s", .byteString (signature signMessage sha256 w.writer s))).toList)

/-- `BulkCommit::to_cbor`. -/
def BulkCommit.toCbor (c : BulkCommit) : CborObject :=
  .build ([("w", .list (c.writers.map (WriterCommit.toCbor signMessage sha256)))] ++
    (c.tid.map fun t => ("t", .str t)).toList)

/-- The length of `BulkCommit::serialize`. -/
def BulkCommit.serializedSize (c : BulkCommit) : ℕ := (c.toCbor signMessage sha256).toBytes.length

/-- What a server takes. -/
def BulkCommit.WithinLimits (c : BulkCommit) : Prop :=
  c.serializedSize signMessage sha256 ≤ maxBulkCommitSize ∧
    c.blockCount + c.preWrittenCount ≤ maxBulkCommitBlocks

/-! ## Framing -/

/-- The framing of a list of blocks. -/
def blocksFrame (blocks : List Bytes) : ℕ :=
  headerSize blocks.length + (blocks.map fun b => headerSize b.length).sum

/-- The size of an optional field. -/
def optionalSize {α : Type} (size : α → ℕ) (a : Option α) : ℕ := (a.map size).getD 0

/-- All of a writer's part that is not the bytes of a block. -/
def WriterCommit.frameSize (w : WriterCommit) : ℕ :=
  1 + entrySize ("w", w.writer.toCbor) + (2 + blocksFrame w.cborBlocks) +
    (2 + blocksFrame w.rawBlocks) + entrySize ("p", linkList w.preWritten) +
    optionalSize (fun u => entrySize ("u", SignedPointerUpdate.toCbor signMessage u)) w.pointer +
    optionalSize (fun s => entrySize ("s", .byteString (signature signMessage sha256 w.writer s)))
      w.blockListSignature

/-- A writer's part with all of its blocks, as a blocks-only call carries it. -/
def WriterCommit.blocksOnly (w : WriterCommit) : WriterCommit :=
  { w with preWritten := [], pointer := none, blockListSignature := some ([], none) }

/-- All of a commit that is not the bytes of a block. -/
def BulkCommit.frameSize (c : BulkCommit) : ℕ :=
  1 + (2 + headerSize c.writers.length) +
    (c.writers.map (WriterCommit.frameSize signMessage sha256)).sum +
    optionalSize (fun t => entrySize ("t", .str t)) c.tid

/-- A commit with all of its blocks, as one blocks-only call. -/
def BulkCommit.blocksOnly (tid : TransactionId) (c : BulkCommit) : BulkCommit :=
  ⟨some tid, c.writers.map WriterCommit.blocksOnly⟩

end Encodings

variable {signMessage : PublicKeyHash → Bytes → Bytes} {sha256 : Bytes → Bytes}

theorem length_byteList (blocks : List Bytes) :
    (byteList blocks).toBytes.length = blocksFrame blocks + (blocks.map List.length).sum := by
  rw [byteList, length_toBytes_list, blocksFrame, List.length_map, List.map_map]
  have hsum : (blocks.map ((fun v => v.toBytes.length) ∘ CborObject.byteString)).sum =
      (blocks.map fun b => headerSize b.length).sum + (blocks.map List.length).sum := by
    induction blocks with
    | nil => rfl
    | cons b blocks ih =>
        simp only [List.map_cons, List.sum_cons, Function.comp_apply, length_toBytes_byteString]
        rw [ih]
        omega
  omega

theorem sum_map_toList {α : Type} (a : Option α) (name : String) (value : α → CborObject) :
    ((a.map fun x => (name, value x)).toList.map entrySize).sum =
      optionalSize (fun x => entrySize (name, value x)) a := by
  cases a <;> simp [optionalSize]

/-- A writer's part is its framing and its blocks. -/
theorem WriterCommit.length_toCbor (w : WriterCommit) :
    (w.toCbor signMessage sha256).toBytes.length =
      w.frameSize signMessage sha256 + w.inlineSize := by
  obtain ⟨writer, cbor, raw, pre, pointer, list⟩ := w
  have hkey : ∀ (name : String) (v : CborObject), (utf8 name).length = 1 →
      entrySize (name, v) = 2 + v.toBytes.length := by
    intro name v h
    rw [entrySize, h]
    rfl
  have hfew : headerSize ([("w", writer.toCbor), ("c", byteList cbor), ("r", byteList raw),
      ("p", linkList pre)] ++ (pointer.map fun u => ("u", u.toCbor signMessage)).toList ++
      (list.map fun s =>
        ("s", CborObject.byteString (signature signMessage sha256 writer s))).toList).length = 1 := by
    cases pointer <;> cases list <;> rfl
  rw [toCbor, length_toBytes_build, hfew, List.map_append, List.map_append, List.sum_append,
    List.sum_append, sum_map_toList, sum_map_toList]
  · simp only [List.map_cons, List.map_nil, List.sum_cons, List.sum_nil]
    rw [hkey "c" _ rfl, hkey "r" _ rfl, length_byteList, length_byteList]
    simp only [frameSize, inlineSize, List.map_append, List.sum_append]
    omega
  · cases pointer <;> cases list <;> simp

/-- A commit is its framing and its blocks. -/
theorem BulkCommit.serializedSize_eq (c : BulkCommit) :
    c.serializedSize signMessage sha256 = c.frameSize signMessage sha256 + c.inlineSize := by
  obtain ⟨tid, writers⟩ := c
  have hfew : headerSize ([("w", CborObject.list
      (writers.map (WriterCommit.toCbor signMessage sha256)))] ++
      (tid.map fun t => ("t", CborObject.str t)).toList).length = 1 := by
    cases tid <;> rfl
  have hsum : (writers.map fun w => (w.toCbor signMessage sha256).toBytes.length).sum =
      (writers.map (WriterCommit.frameSize signMessage sha256)).sum +
        (writers.map WriterCommit.inlineSize).sum := by
    induction writers with
    | nil => rfl
    | cons w writers ih =>
        simp only [List.map_cons, List.sum_cons, w.length_toCbor]
        rw [ih]
        · omega
        · cases tid <;> rfl
  have htid : ((tid.map fun t => ("t", CborObject.str t)).toList.map entrySize).sum =
      optionalSize (fun t => entrySize ("t", .str t)) tid := sum_map_toList tid "t" .str
  rw [serializedSize, toCbor, length_toBytes_build, hfew, List.map_append, List.sum_append, htid]
  · simp only [List.map_cons, List.map_nil, List.sum_cons, List.sum_nil]
    have hentry : entrySize ("w", CborObject.list
        (writers.map (WriterCommit.toCbor signMessage sha256))) =
        2 + (headerSize writers.length +
          (writers.map fun w => (w.toCbor signMessage sha256).toBytes.length).sum) := by
      rw [entrySize, length_toBytes_list, List.length_map, List.map_map]
      rfl
    simp only [frameSize, inlineSize]
    rw [hentry, hsum]
    omega
  · cases tid <;> simp

/-! ## Fewer blocks, less framing -/

theorem sum_map_le_of_subperm {α : Type} (f : α → ℕ) {l l' : List α} (h : l.Subperm l') :
    (l.map f).sum ≤ (l'.map f).sum := by
  obtain ⟨l₁, hperm, hsub⟩ := h
  rw [← (hperm.map f).sum_eq]
  exact (hsub.map f).sum_le_sum fun _ _ => Nat.zero_le _

theorem blocksFrame_le {blocks blocks' : List Bytes} (h : blocks.Subperm blocks') :
    blocksFrame blocks ≤ blocksFrame blocks' :=
  Nat.add_le_add (headerSize_mono h.length_le) (sum_map_le_of_subperm _ h)

theorem dataOf_subperm {blocks blocks' : List InlineBlock} (h : blocks.Subperm blocks')
    (isRaw : Bool) : (dataOf isRaw blocks).Subperm (dataOf isRaw blocks') := by
  obtain ⟨l, hperm, hsub⟩ := h
  exact ⟨dataOf isRaw l, (hperm.filter _).map _, (hsub.filter _).map _⟩

theorem dataOf_cons (isRaw : Bool) (b : InlineBlock) (blocks : List InlineBlock) :
    dataOf isRaw (b :: blocks) =
      if b.isRaw = isRaw then b.data :: dataOf isRaw blocks else dataOf isRaw blocks := by
  unfold dataOf
  by_cases h : b.isRaw = isRaw <;> simp [h]

/-- Blocks are cbor or raw. -/
theorem sum_dataOf (f : Bytes → ℕ) (blocks : List InlineBlock) :
    ((dataOf false blocks ++ dataOf true blocks).map f).sum =
      (blocks.map fun b => f b.data).sum := by
  induction blocks with
  | nil => rfl
  | cons b blocks ih =>
      rw [List.map_append, List.sum_append] at ih
      rw [List.map_append, List.sum_append, dataOf_cons, dataOf_cons, List.map_cons, List.sum_cons,
        ← ih]
      cases b.isRaw with
      | false =>
          simp only [if_true, reduceCtorEq, if_false, List.map_cons, List.sum_cons]
          omega
      | true =>
          simp only [if_true, reduceCtorEq, if_false, List.map_cons, List.sum_cons]
          omega

theorem length_dataOf (blocks : List InlineBlock) :
    (dataOf false blocks).length + (dataOf true blocks).length = blocks.length := by
  have h := sum_dataOf (fun _ => 1) blocks
  simpa using h

/-! ## The order of the blocks -/

theorem mem_byHash {blocks : List InlineBlock} {b : InlineBlock} (h : b ∈ byHash blocks) :
    b ∈ blocks := by
  have hfold : ∀ (blocks acc : List InlineBlock),
      b ∈ blocks.foldl (fun m b => m.filter (fun x => x.cid ≠ b.cid) ++ [b]) acc →
        b ∈ acc ∨ b ∈ blocks := by
    intro blocks
    induction blocks with
    | nil => exact fun acc h => Or.inl h
    | cons c blocks ih =>
        intro acc h
        rcases ih _ h with h | h
        · rcases List.mem_append.1 h with h | h
          · exact Or.inl (List.mem_of_mem_filter h)
          · exact Or.inr (List.mem_cons.2 (Or.inl (List.mem_singleton.1 h)))
        · exact Or.inr (List.mem_cons_of_mem _ h)
  exact (hfold blocks [] h).resolve_left (by simp)

theorem nodup_byHash (blocks : List InlineBlock) : ((byHash blocks).map (·.cid)).Nodup := by
  have hfold : ∀ (blocks acc : List InlineBlock), (acc.map (·.cid)).Nodup →
      ((blocks.foldl (fun m b => m.filter (fun x => x.cid ≠ b.cid) ++ [b]) acc).map
        (·.cid)).Nodup := by
    intro blocks
    induction blocks with
    | nil => exact fun acc h => h
    | cons c blocks ih =>
        intro acc h
        refine ih _ ?_
        rw [List.map_append, List.nodup_append]
        refine ⟨h.sublist ((List.filter_sublist).map _), List.nodup_singleton _, ?_⟩
        intro x hx y hy
        obtain ⟨b, hb, rfl⟩ := List.mem_map.1 hx
        rw [List.map_singleton, List.mem_singleton] at hy
        subst hy
        simpa using (List.mem_filter.1 hb).2
  exact hfold blocks [] List.nodup_nil

theorem cons_filter_perm {left : List InlineBlock} (h : (left.map (·.cid)).Nodup)
    {b : InlineBlock} (hb : b ∈ left) :
    (b :: left.filter fun x => x.cid ≠ b.cid).Perm left := by
  induction left with
  | nil => cases hb
  | cons c left ih =>
      rw [List.map_cons, List.nodup_cons] at h
      rcases List.mem_cons.1 hb with rfl | hb
      · have hkeep : (left.filter fun x => x.cid ≠ b.cid) = left := by
          refine List.filter_eq_self.2 fun x hx => ?_
          have hne : x.cid ≠ b.cid := fun heq => h.1 (List.mem_map.2 ⟨x, hx, heq⟩)
          simpa using hne
        rw [List.filter_cons_of_neg (by simp), hkeep]
      · have hne : c.cid ≠ b.cid := fun heq => h.1 (List.mem_map.2 ⟨b, hb, heq.symm⟩)
        rw [List.filter_cons_of_pos (by simpa using hne)]
        exact (List.Perm.swap _ _ _).trans ((ih h.2 hb).cons c)

theorem fromRootFirstLoop_perm (pops : ℕ) {left : List InlineBlock} (queue : List Cid)
    (h : (left.map (·.cid)).Nodup) : (fromRootFirstLoop pops left queue).Perm left := by
  induction pops generalizing left queue with
  | zero => exact .refl _
  | succ pops ih =>
      cases queue with
      | nil => exact .refl _
      | cons next queue =>
          rw [fromRootFirstLoop]
          cases hfind : left.find? fun b => b.cid = next with
          | none => exact ih queue h
          | some b =>
              have hcid : b.cid = next := by simpa using List.find?_some hfind
              have hnodup : ((left.filter fun x => x.cid ≠ next).map (·.cid)).Nodup :=
                h.sublist ((List.filter_sublist).map _)
              refine ((ih _ hnodup).cons b).trans ?_
              rw [← hcid]
              exact cons_filter_perm h (List.mem_of_find?_eq_some hfind)

/-- Every block comes once, and no other. -/
theorem fromRootFirst_subperm (blocks : List InlineBlock) (root : Option Cid) :
    (fromRootFirst blocks root).Subperm blocks := by
  have hnodup := nodup_byHash blocks
  have hperm : (fromRootFirst blocks root).Perm (byHash blocks) :=
    fromRootFirstLoop_perm _ _ hnodup
  exact hperm.subperm.trans
    (List.subperm_of_subset (List.Nodup.of_map _ hnodup) fun b hb => mem_byHash hb)

/-! ## The last call -/

theorem takeWithin_eq {budget countBudget budget' countBudget' : ℕ}
    {blocks taken deferred : List InlineBlock}
    (h : takeWithin budget countBudget blocks = (taken, deferred, budget', countBudget')) :
    taken ++ deferred = blocks ∧ (taken.map fun b => b.data.length).sum + budget' = budget ∧
      taken.length + countBudget' = countBudget := by
  induction blocks generalizing budget countBudget taken with
  | nil =>
      cases h
      simp
  | cons b blocks ih =>
      rw [takeWithin] at h
      split at h
      · next hfits =>
          rcases hrest : takeWithin (budget - b.data.length) (countBudget - 1) blocks with
            ⟨taken₁, deferred₁, budget₁, countBudget₁⟩
          rw [hrest] at h
          cases h
          obtain ⟨happ, hbytes, hcount⟩ := ih hrest
          rw [List.cons_append, happ, List.map_cons, List.sum_cons, List.length_cons]
          refine ⟨rfl, ?_, ?_⟩ <;> omega
      · cases h
        simp

theorem mapM_inlineBlock {isRaw : Bool} {datas : List Bytes} {blocks : List InlineBlock}
    (h : (datas.mapM fun data => do
      let cid ← liftMf (buildCid (sha256 data) isRaw)
      .ok (⟨cid, data, isRaw⟩ : InlineBlock)) = .ok blocks) :
    blocks.map (·.data) = datas ∧ ∀ b ∈ blocks, b.isRaw = isRaw := by
  induction datas generalizing blocks with
  | nil =>
      cases h
      simp
  | cons data datas ih =>
      rw [List.mapM_cons] at h
      obtain ⟨b, hb, h⟩ := bind_eq_ok.1 h
      obtain ⟨cid, -, hb⟩ := bind_eq_ok.1 hb
      obtain ⟨rest, hrest, h⟩ := bind_eq_ok.1 h
      cases hb
      cases h
      obtain ⟨hdata, hraw⟩ := ih hrest
      refine ⟨by rw [List.map_cons, hdata], ?_⟩
      rintro b hb
      rcases List.mem_cons.1 hb with rfl | hb
      · rfl
      · exact hraw b hb

theorem dataOf_append_of_all {isRaw : Bool} {blocks others : List InlineBlock}
    (h : ∀ b ∈ blocks, b.isRaw = isRaw) (ho : ∀ b ∈ others, b.isRaw = !isRaw) :
    dataOf isRaw (blocks ++ others) = blocks.map (·.data) ∧
      dataOf isRaw (others ++ blocks) = blocks.map (·.data) := by
  have hall : (blocks.filter fun b => b.isRaw = isRaw) = blocks :=
    List.filter_eq_self.2 fun b hb => by simpa using h b hb
  have hnone : (others.filter fun b => b.isRaw = isRaw) = [] :=
    List.filter_eq_nil_iff.2 fun b hb => by simp [ho b hb]
  simp [dataOf, List.filter_append, hall, hnone]

/-- One writer in the first loop: its blocks in order, those for the last call and the rest. -/
theorem splitWriter_eq {st st' : SplitLoop} {w : WriterCommit × Option Cid}
    (h : splitWriter sha256 st w = .ok st') :
    ∃ inline taken rest, dataOf false inline = w.1.cborBlocks ∧ dataOf true inline = w.1.rawBlocks ∧
      (taken ++ rest).Subperm inline ∧
      (taken.map fun b => b.data.length).sum + st'.budget = st.budget ∧
      taken.length + st'.countBudget = st.countBudget ∧
      st'.lastWriters = st.lastWriters ++ [⟨w.1.writer, dataOf false taken, dataOf true taken,
        w.1.preWritten, w.1.pointer, none⟩] ∧
      st'.deferred = if rest = [] then st.deferred else st.deferred ++ [(w.1.writer, rest)] := by
  obtain ⟨cbor, hcbor, h⟩ := bind_eq_ok.1 h
  obtain ⟨raw, hraw, h⟩ := bind_eq_ok.1 h
  obtain ⟨hcborData, hcborRaw⟩ := mapM_inlineBlock hcbor
  obtain ⟨hrawData, hrawRaw⟩ := mapM_inlineBlock hraw
  rcases htake : takeWithin st.budget st.countBudget (fromRootFirst (cbor ++ raw) w.2) with
    ⟨taken, rest, budget, countBudget⟩
  obtain ⟨happ, hbytes, hcount⟩ := takeWithin_eq htake
  simp only [htake] at h
  cases h
  refine ⟨cbor ++ raw, taken, rest, ?_, ?_, ?_, hbytes, hcount, rfl, rfl⟩
  · rw [(dataOf_append_of_all hcborRaw hrawRaw).1, hcborData]
  · rw [(dataOf_append_of_all hrawRaw hcborRaw).2, hrawData]
  · rw [happ]
    exact fromRootFirst_subperm _ _

section FirstLoop

variable (signMessage sha256)

/-- What is put off of a writer's blocks, as one blocks-only call. -/
def restCommit (d : PublicKeyHash × List InlineBlock) : WriterCommit :=
  ⟨d.1, dataOf false d.2, dataOf true d.2, [], none, some ([], none)⟩

/-- The part of a writer that goes into the last call. -/
structure LastOf (w last : WriterCommit) : Prop where
  pre : last.preWritten = w.preWritten
  frame : last.frameSize signMessage sha256 ≤
    { w with blockListSignature := none }.frameSize signMessage sha256

/-- The state of the first loop after the writers `done`. -/
structure Splitting (done : List WriterCommit) (countBudget : ℕ) (st : SplitLoop) : Prop where
  parts : List.Forall₂ (LastOf signMessage sha256) done st.lastWriters
  bytes : (st.lastWriters.map WriterCommit.inlineSize).sum + st.budget = maxBulkInline
  count : (st.lastWriters.map WriterCommit.blockCount).sum + st.countBudget = countBudget
  nonempty : ∀ d ∈ st.deferred, d.2 ≠ []
  blocks : ∀ d ∈ st.deferred, ∀ b ∈ d.2, ∃ w ∈ done, b.data ∈ w.cborBlocks ++ w.rawBlocks
  frames : (st.deferred.map fun d => (restCommit d).frameSize signMessage sha256).sum ≤
    (done.map fun w => w.blocksOnly.frameSize signMessage sha256).sum
  length : st.deferred.length ≤ done.length

variable {signMessage}

/-- Fewer blocks in a writer's part. -/
theorem frameSize_le_of_blocks {w w' : WriterCommit} (hwriter : w.writer = w'.writer)
    (hcbor : w.cborBlocks.Subperm w'.cborBlocks) (hraw : w.rawBlocks.Subperm w'.rawBlocks)
    (hpre : w.preWritten = w'.preWritten) (hpointer : w.pointer = w'.pointer)
    (hlist : w.blockListSignature = w'.blockListSignature) :
    w.frameSize signMessage sha256 ≤ w'.frameSize signMessage sha256 := by
  have hc := blocksFrame_le hcbor
  have hr := blocksFrame_le hraw
  unfold WriterCommit.frameSize
  rw [hwriter, hpre, hpointer, hlist]
  omega

variable {sha256}

theorem Splitting.step {done : List WriterCommit} {countBudget : ℕ} {st st' : SplitLoop}
    {w : WriterCommit × Option Cid} (h : Splitting signMessage sha256 done countBudget st)
    (hstep : splitWriter sha256 st w = .ok st') :
    Splitting signMessage sha256 (done ++ [w.1]) countBudget st' := by
  obtain ⟨inline, taken, rest, hcbor, hraw, hsub, hbytes, hcount, hlast, hdeferred⟩ :=
    splitWriter_eq hstep
  have htaken : taken.Subperm inline := (List.sublist_append_left taken rest).subperm.trans hsub
  have hrest : rest.Subperm inline := (List.sublist_append_right taken rest).subperm.trans hsub
  set last : WriterCommit := ⟨w.1.writer, dataOf false taken, dataOf true taken, w.1.preWritten,
    w.1.pointer, none⟩ with hlastDef
  have hsize : last.inlineSize = (taken.map fun b => b.data.length).sum :=
    sum_dataOf List.length taken
  have hblocks : last.blockCount = taken.length := length_dataOf taken
  have hframe : (restCommit (w.1.writer, rest)).frameSize signMessage sha256 ≤
      w.1.blocksOnly.frameSize signMessage sha256 :=
    frameSize_le_of_blocks sha256 rfl (hcbor ▸ dataOf_subperm hrest false)
      (hraw ▸ dataOf_subperm hrest true) rfl rfl rfl
  refine ⟨?_, ?_, ?_, ?_, ?_, ?_, ?_⟩
  · rw [hlast]
    refine List.rel_append h.parts (.cons ⟨rfl, ?_⟩ .nil)
    exact frameSize_le_of_blocks sha256 rfl (hcbor ▸ dataOf_subperm htaken false)
      (hraw ▸ dataOf_subperm htaken true) rfl rfl rfl
  · have := h.bytes
    rw [hlast, List.map_append, List.sum_append, List.map_singleton, List.sum_singleton, hsize]
    omega
  · have := h.count
    rw [hlast, List.map_append, List.sum_append, List.map_singleton, List.sum_singleton, hblocks]
    omega
  · intro d hd
    rw [hdeferred] at hd
    split at hd
    · exact h.nonempty d hd
    · next hne =>
        rcases List.mem_append.1 hd with hd | hd
        · exact h.nonempty d hd
        · cases List.mem_singleton.1 hd
          exact hne
  · intro d hd b hb
    have hold : d ∈ st.deferred → ∃ w' ∈ done ++ [w.1], b.data ∈ w'.cborBlocks ++ w'.rawBlocks := by
      intro hd
      obtain ⟨w', hw', hmem⟩ := h.blocks d hd b hb
      exact ⟨w', List.mem_append_left _ hw', hmem⟩
    rw [hdeferred] at hd
    split at hd
    · exact hold hd
    · rcases List.mem_append.1 hd with hd | hd
      · exact hold hd
      · cases List.mem_singleton.1 hd
        refine ⟨w.1, by simp, ?_⟩
        rw [← hcbor, ← hraw, List.mem_append]
        have hmem : b ∈ inline := hrest.subset hb
        cases hisRaw : b.isRaw with
        | false => exact Or.inl (List.mem_map.2 ⟨b, List.mem_filter.2 ⟨hmem, by simp [hisRaw]⟩, rfl⟩)
        | true => exact Or.inr (List.mem_map.2 ⟨b, List.mem_filter.2 ⟨hmem, by simp [hisRaw]⟩, rfl⟩)
  · have := h.frames
    rw [hdeferred, List.map_append, List.sum_append, List.map_singleton, List.sum_singleton]
    split
    · omega
    · rw [List.map_append, List.sum_append, List.map_singleton, List.sum_singleton]
      omega
  · have := h.length
    rw [hdeferred, List.length_append, List.length_singleton]
    split
    · omega
    · rw [List.length_append, List.length_singleton]
      omega

theorem Splitting.loop {countBudget : ℕ} {ws : List (WriterCommit × Option Cid)}
    {done : List WriterCommit} {st st' : SplitLoop}
    (h : Splitting signMessage sha256 done countBudget st)
    (hloop : ws.foldlM (splitWriter sha256) st = .ok st') :
    Splitting signMessage sha256 (done ++ ws.map Prod.fst) countBudget st' := by
  induction ws generalizing done st with
  | nil =>
      cases hloop
      rw [List.map_nil, List.append_nil]
      exact h
  | cons w ws ih =>
      rw [List.foldlM_cons] at hloop
      obtain ⟨st₁, hstep, hrest⟩ := bind_eq_ok.1 hloop
      have hnext := ih (h.step hstep) hrest
      rw [List.append_assoc] at hnext
      exact hnext

end FirstLoop

/-! ## The calls before the last -/

/-- The bytes of a group. -/
def groupSize (group : List InlineBlock) : ℕ := (group.map fun b => b.data.length).sum

theorem groupSize_append (group group' : List InlineBlock) :
    groupSize (group ++ group') = groupSize group + groupSize group' := by
  simp [groupSize]

/-- A group that fits a call of its own. -/
structure GroupFits (group : List InlineBlock) : Prop where
  pos : 0 < groupSize group
  bytes : groupSize group ≤ maxBulkInline
  count : group.length ≤ maxBulkCommitBlocks

/-- Two groups one after the other do not fit one call. -/
def GroupsApart (group group' : List InlineBlock) : Prop :=
  maxBulkInline < groupSize group + groupSize group' ∨ maxBulkCommitBlocks ≤ group.length

theorem GroupFits.single {b : InlineBlock} (hpos : 0 < b.data.length)
    (hle : b.data.length ≤ maxBlockSize) : GroupFits [b] := by
  have hmax : maxBlockSize ≤ maxBulkInline := by decide
  refine ⟨?_, ?_, by simp [maxBulkCommitBlocks]⟩
  · simpa [groupSize] using hpos
  · simpa [groupSize] using hle.trans hmax

theorem deferredGroups_cons {b : InlineBlock} (blocks : List InlineBlock)
    {group : List InlineBlock} (hgroup : group ≠ []) (size : ℕ) :
    deferredGroups (b :: blocks) group size =
      if maxBulkInline < size + b.data.length ∨ maxBulkCommitBlocks ≤ group.length then
        group :: deferredGroups blocks [b] b.data.length
      else deferredGroups blocks (group ++ [b]) (size + b.data.length) := by
  rw [deferredGroups, if_neg hgroup]

/-- The groups from one that has been begun: it is the start of the first, each fits a call, and no
two neighbours do. -/
theorem deferredGroups_started {blocks group : List InlineBlock}
    (hblocks : ∀ b ∈ blocks, 0 < b.data.length ∧ b.data.length ≤ maxBlockSize)
    (hgroup : GroupFits group) :
    ∃ tail groups, deferredGroups blocks group (groupSize group) = (group ++ tail) :: groups ∧
      (∀ g ∈ (group ++ tail) :: groups, GroupFits g) ∧
      List.IsChain GroupsApart ((group ++ tail) :: groups) ∧
      ((group ++ tail) :: groups).flatten = group ++ blocks := by
  have hne : ∀ g, GroupFits g → g ≠ [] := by
    rintro g hg rfl
    exact absurd hg.pos (by simp [groupSize])
  induction blocks generalizing group with
  | nil =>
      refine ⟨[], [], ?_, ?_, ?_, by simp⟩
      · rw [List.append_nil]
        cases group with
        | nil => exact absurd rfl (hne _ hgroup)
        | cons b group => rfl
      · simpa using hgroup
      · exact List.isChain_singleton _
  | cons b blocks ih =>
      rw [List.forall_mem_cons] at hblocks
      rw [deferredGroups_cons blocks (hne _ hgroup)]
      split
      · next hfull =>
          obtain ⟨tail, groups, heq, hfits, hchain, hflat⟩ :=
            ih hblocks.2 (GroupFits.single hblocks.1.1 hblocks.1.2)
          have hb : groupSize [b] = b.data.length := by simp [groupSize]
          rw [hb] at heq
          refine ⟨[], ([b] ++ tail) :: groups, by rw [heq, List.append_nil], ?_, ?_, ?_⟩
          · rw [List.append_nil, List.forall_mem_cons]
            exact ⟨hgroup, hfits⟩
          · rw [List.append_nil, List.isChain_cons_cons]
            refine ⟨hfull.imp (fun h => ?_) id, hchain⟩
            rw [groupSize_append, hb]
            omega
          · rw [List.append_nil, List.flatten_cons, hflat]
            rfl
      · next hroom =>
          rw [not_or, not_lt, not_le] at hroom
          have hsize : groupSize (group ++ [b]) = groupSize group + b.data.length := by
            simp [groupSize]
          have hfits : GroupFits (group ++ [b]) := by
            refine ⟨?_, ?_, ?_⟩
            · have := hgroup.pos
              omega
            · omega
            · rw [List.length_append, List.length_singleton]
              omega
          obtain ⟨tail, groups, heq, hall, hchain, hflat⟩ := ih hblocks.2 hfits
          rw [hsize, List.append_assoc] at heq
          rw [List.append_assoc] at hall hchain hflat
          refine ⟨[b] ++ tail, groups, heq, hall, hchain, ?_⟩
          rw [hflat, List.append_assoc]
          rfl

/-- The groups of blocks none of which is empty. -/
theorem deferredGroups_spec {blocks : List InlineBlock} (hne : blocks ≠ [])
    (hblocks : ∀ b ∈ blocks, 0 < b.data.length ∧ b.data.length ≤ maxBlockSize) :
    ∃ group groups, deferredGroups blocks [] 0 = group :: groups ∧
      (∀ g ∈ group :: groups, GroupFits g) ∧ List.IsChain GroupsApart (group :: groups) ∧
      (group :: groups).flatten = blocks := by
  cases blocks with
  | nil => exact absurd rfl hne
  | cons b blocks =>
      rw [List.forall_mem_cons] at hblocks
      obtain ⟨tail, groups, heq, hfits, hchain, hflat⟩ :=
        deferredGroups_started hblocks.2 (GroupFits.single hblocks.1.1 hblocks.1.2)
      have hb : groupSize [b] = b.data.length := by simp [groupSize]
      rw [hb] at heq
      exact ⟨[b] ++ tail, groups, by rw [deferredGroups, if_pos rfl, heq], hfits, hchain, hflat⟩

section Calls

variable (signMessage sha256)

/-- The part of a writer a group becomes. -/
def groupCommit (writer : PublicKeyHash) (seq : Option Int64) (group : List InlineBlock) :
    WriterCommit :=
  { writer := writer
    cborBlocks := (group.filter fun b => !b.isRaw).map (·.data)
    rawBlocks := (group.filter fun b => b.isRaw).map (·.data)
    preWritten := []
    pointer := none
    blockListSignature := some (((group.filter fun b => !b.isRaw) ++
      (group.filter fun b => b.isRaw)).map (·.cid), seq) }

/-- A call within the limits, with at most `n` writers and a framing of at most `frame`. -/
structure CallFits (frame n : ℕ) (call : List WriterCommit) : Prop where
  framed : (call.map (WriterCommit.frameSize signMessage sha256)).sum ≤ frame
  few : call.length ≤ n
  bytes : (call.map WriterCommit.inlineSize).sum ≤ maxBulkInline
  count : (call.map WriterCommit.blockCount).sum ≤ maxBulkCommitBlocks
  pre : ∀ w ∈ call, w.preWritten = []

/-- All calls so far fit, and the loop has counted the last one right. -/
structure CallsFit (frame n : ℕ) (st : CallsLoop) : Prop where
  each : ∀ call ∈ st.calls, CallFits signMessage sha256 frame n call
  used : ∀ call, st.calls.getLast? = some call →
    (call.map WriterCommit.inlineSize).sum = st.used ∧
      (call.map WriterCommit.blockCount).sum = st.count
  pos : st.calls ≠ [] → 0 < st.used

variable {signMessage sha256}

theorem CallFits.mono {frame frame' n n' : ℕ} {call : List WriterCommit}
    (h : CallFits signMessage sha256 frame n call) (hframe : frame ≤ frame') (hn : n ≤ n') :
    CallFits signMessage sha256 frame' n' call :=
  ⟨h.framed.trans hframe, h.few.trans hn, h.bytes, h.count, h.pre⟩

theorem CallsFit.mono {frame frame' n n' : ℕ} {st : CallsLoop}
    (h : CallsFit signMessage sha256 frame n st) (hframe : frame ≤ frame') (hn : n ≤ n') :
    CallsFit signMessage sha256 frame' n' st :=
  ⟨fun call hcall => (h.each call hcall).mono hframe hn, h.used, h.pos⟩

theorem dataOf_filter (group : List InlineBlock) :
    (group.filter fun b => !b.isRaw).map (·.data) = dataOf false group ∧
      (group.filter fun b => b.isRaw).map (·.data) = dataOf true group := by
  refine ⟨?_, ?_⟩
  · unfold dataOf
    congr 2
    funext b
    cases b.isRaw <;> rfl
  · unfold dataOf
    congr 2
    funext b
    cases b.isRaw <;> rfl

theorem inlineSize_groupCommit (writer : PublicKeyHash) (seq : Option Int64)
    (group : List InlineBlock) : (groupCommit writer seq group).inlineSize = groupSize group := by
  obtain ⟨hcbor, hraw⟩ := dataOf_filter group
  rw [WriterCommit.inlineSize, groupCommit, hcbor, hraw]
  exact sum_dataOf List.length group

theorem blockCount_groupCommit (writer : PublicKeyHash) (seq : Option Int64)
    (group : List InlineBlock) : (groupCommit writer seq group).blockCount = group.length := by
  obtain ⟨hcbor, hraw⟩ := dataOf_filter group
  rw [WriterCommit.blockCount, groupCommit, hcbor, hraw]
  exact length_dataOf group

/-- A signature takes the same room whatever it signs. -/
theorem frameSize_groupCommit (hsign : ∀ w m, (signMessage w m).length = 64 + m.length)
    (hsha : ∀ m, (sha256 m).length = 32) (writer : PublicKeyHash) (seq : Option Int64)
    (group : List InlineBlock) : (groupCommit writer seq group).frameSize signMessage sha256 =
      (restCommit (writer, group)).frameSize signMessage sha256 := by
  obtain ⟨hcbor, hraw⟩ := dataOf_filter group
  have hsig : ∀ list, entrySize ("s", .byteString
      (WriterCommit.signature signMessage sha256 writer list)) = 100 := by
    intro list
    have hlen : (WriterCommit.signature signMessage sha256 writer list).length = 96 := by
      rw [WriterCommit.signature, hsign, blockListPayload, hsha]
    rw [entrySize, length_toBytes_byteString, hlen]
    rfl
  simp only [WriterCommit.frameSize, groupCommit, restCommit, optionalSize, Option.map_some,
    Option.map_none, Option.getD_some, Option.getD_none, hsig, hcbor, hraw]

theorem frameSize_groupCommit_le (hsign : ∀ w m, (signMessage w m).length = 64 + m.length)
    (hsha : ∀ m, (sha256 m).length = 32) (writer : PublicKeyHash) (seq : Option Int64)
    {group rest : List InlineBlock} (h : group.Subperm rest) :
    (groupCommit writer seq group).frameSize signMessage sha256 ≤
      (restCommit (writer, rest)).frameSize signMessage sha256 := by
  rw [frameSize_groupCommit hsign hsha]
  exact frameSize_le_of_blocks sha256 rfl (dataOf_subperm h false) (dataOf_subperm h true) rfl rfl
    rfl

theorem addGroup_eq (writer : PublicKeyHash) (seq : Option Int64) (st : CallsLoop)
    (group : List InlineBlock) : addGroup writer seq st group =
      if st.calls = [] ∨ (0 < st.used ∧ (maxBulkInline < st.used + groupSize group ∨
          maxBulkCommitBlocks < st.count + group.length)) then
        ⟨st.calls ++ [[groupCommit writer seq group]], groupSize group, group.length⟩
      else ⟨st.calls.dropLast ++ [st.calls.getLastD [] ++ [groupCommit writer seq group]],
        st.used + groupSize group, st.count + group.length⟩ := rfl

/-- A group in a call of its own. -/
theorem CallFits.single {writer : PublicKeyHash} {seq : Option Int64} {group : List InlineBlock}
    {frame n : ℕ} (hgroup : GroupFits group) (hn : 1 ≤ n)
    (hframe : (groupCommit writer seq group).frameSize signMessage sha256 ≤ frame) :
    CallFits signMessage sha256 frame n [groupCommit writer seq group] := by
  refine ⟨by simpa using hframe, by simpa using hn, ?_, ?_, ?_⟩
  · simpa [inlineSize_groupCommit] using hgroup.bytes
  · simpa [blockCount_groupCommit] using hgroup.count
  · intro w hw
    cases List.mem_singleton.1 hw
    rfl

/-- A group that opens a call. -/
theorem CallsFit.opened {writer : PublicKeyHash} {seq : Option Int64} {group : List InlineBlock}
    {frame n : ℕ} {st : CallsLoop} (h : CallsFit signMessage sha256 frame n st)
    (hgroup : GroupFits group) (hn : 1 ≤ n)
    (hframe : (groupCommit writer seq group).frameSize signMessage sha256 ≤ frame) :
    CallsFit signMessage sha256 frame n
      ⟨st.calls ++ [[groupCommit writer seq group]], groupSize group, group.length⟩ := by
  refine ⟨?_, ?_, fun _ => hgroup.pos⟩
  · intro call hcall
    rcases List.mem_append.1 hcall with hcall | hcall
    · exact h.each call hcall
    · cases List.mem_singleton.1 hcall
      exact CallFits.single hgroup hn hframe
  · intro call hcall
    rw [List.getLast?_concat] at hcall
    cases hcall
    simp [inlineSize_groupCommit, blockCount_groupCommit]

/-- A group added to the calls, in the last one or in one of its own. -/
theorem CallsFit.add {writer : PublicKeyHash} {seq : Option Int64} {group : List InlineBlock}
    {frame n : ℕ} {st : CallsLoop} (h : CallsFit signMessage sha256 frame n st)
    (hgroup : GroupFits group) :
    CallsFit signMessage sha256
      (frame + (groupCommit writer seq group).frameSize signMessage sha256) (n + 1)
      (addGroup writer seq st group) := by
  rw [addGroup_eq]
  split
  · exact (h.mono (Nat.le_add_right _ _) (Nat.le_add_right _ _)).opened hgroup (by omega)
      (Nat.le_add_left _ _)
  · next hroom =>
      rw [not_or, not_and, not_or, not_lt, not_lt] at hroom
      obtain ⟨hne, hroom⟩ := hroom
      obtain ⟨hbytes, hcount⟩ := hroom (h.pos hne)
      have hlast : st.calls.getLast? = some (st.calls.getLast hne) :=
        List.getLast?_eq_some_getLast hne
      have hlastD : st.calls.getLastD [] = st.calls.getLast hne := by
        rw [List.getLastD_eq_getLast?, hlast, Option.getD_some]
      obtain ⟨hused, hblocks⟩ := h.used _ hlast
      have hfits := h.each _ (List.getLast_mem hne)
      rw [hlastD]
      refine ⟨?_, ?_, fun _ => ?_⟩
      · intro call hcall
        rcases List.mem_append.1 hcall with hcall | hcall
        · exact (h.each call (List.mem_of_mem_dropLast hcall)).mono (Nat.le_add_right _ _)
            (Nat.le_add_right _ _)
        · cases List.mem_singleton.1 hcall
          refine ⟨?_, ?_, ?_, ?_, ?_⟩
          · have := hfits.framed
            rw [List.map_append, List.sum_append, List.map_singleton, List.sum_singleton]
            omega
          · have := hfits.few
            rw [List.length_append, List.length_singleton]
            omega
          · rw [List.map_append, List.sum_append, List.map_singleton, List.sum_singleton, hused,
              inlineSize_groupCommit]
            exact hbytes
          · rw [List.map_append, List.sum_append, List.map_singleton, List.sum_singleton, hblocks,
              blockCount_groupCommit]
            exact hcount
          · intro w hw
            rcases List.mem_append.1 hw with hw | hw
            · exact hfits.pre w hw
            · cases List.mem_singleton.1 hw
              rfl
      · intro call hcall
        rw [List.getLast?_concat] at hcall
        cases hcall
        rw [List.map_append, List.sum_append, List.map_append, List.sum_append, List.map_singleton,
          List.map_singleton, List.sum_singleton, List.sum_singleton, hused, hblocks,
          inlineSize_groupCommit, blockCount_groupCommit]
        exact ⟨rfl, rfl⟩
      · have := hgroup.pos
        change 0 < st.used + groupSize group
        omega

/-- After a group the last call holds at least that group. -/
theorem addGroup_used (writer : PublicKeyHash) (seq : Option Int64) (st : CallsLoop)
    (group : List InlineBlock) : (addGroup writer seq st group).calls ≠ [] ∧
      groupSize group ≤ (addGroup writer seq st group).used ∧
      group.length ≤ (addGroup writer seq st group).count := by
  rw [addGroup_eq]
  split
  · exact ⟨by simp, le_rfl, le_rfl⟩
  · exact ⟨by simp, Nat.le_add_left _ _, Nat.le_add_left _ _⟩

/-- The further groups of a writer each open a call. -/
theorem CallsFit.further {writer : PublicKeyHash} {seq : Option Int64} {frame n : ℕ}
    {group : List InlineBlock} {groups : List (List InlineBlock)} {st : CallsLoop}
    (h : CallsFit signMessage sha256 frame n st) (hn : 1 ≤ n) (hne : st.calls ≠ [])
    (hused : groupSize group ≤ st.used) (hcount : group.length ≤ st.count)
    (hchain : List.IsChain GroupsApart (group :: groups)) (hfits : ∀ g ∈ groups, GroupFits g)
    (hframe : ∀ g ∈ groups, (groupCommit writer seq g).frameSize signMessage sha256 ≤ frame) :
    CallsFit signMessage sha256 frame n (groups.foldl (addGroup writer seq) st) := by
  induction groups generalizing group st with
  | nil => exact h
  | cons g groups ih =>
      rw [List.isChain_cons_cons] at hchain
      rw [List.forall_mem_cons] at hfits hframe
      have hlen : 0 < g.length := by
        rw [List.length_pos_iff]
        rintro rfl
        exact absurd hfits.1.pos (by simp [groupSize])
      have hopens : st.calls = [] ∨ (0 < st.used ∧ (maxBulkInline < st.used + groupSize g ∨
          maxBulkCommitBlocks < st.count + g.length)) := by
        refine Or.inr ⟨h.pos hne, ?_⟩
        rcases hchain.1 with hbytes | hblocks
        · exact Or.inl (by omega)
        · exact Or.inr (by omega)
      have hused' := addGroup_used writer seq st g
      have hnext : CallsFit signMessage sha256 frame n (addGroup writer seq st g) := by
        rw [addGroup_eq, if_pos hopens]
        exact h.opened hfits.1 hn hframe.1
      exact ih hnext hused'.1 hused'.2.1 hused'.2.2 hchain.2 hfits.2 hframe.2

/-- All the blocks put off of one writer. -/
theorem CallsFit.writer (hsign : ∀ w m, (signMessage w m).length = 64 + m.length)
    (hsha : ∀ m, (sha256 m).length = 32) {d : PublicKeyHash × List InlineBlock}
    (seq : Option Int64) {frame n : ℕ} {st : CallsLoop}
    (h : CallsFit signMessage sha256 frame n st) (hne : d.2 ≠ [])
    (hblocks : ∀ b ∈ d.2, 0 < b.data.length ∧ b.data.length ≤ maxBlockSize) :
    CallsFit signMessage sha256 (frame + (restCommit d).frameSize signMessage sha256) (n + 1)
      ((deferredGroups d.2 [] 0).foldl (addGroup d.1 seq) st) := by
  obtain ⟨group, groups, heq, hfits, hchain, hflat⟩ := deferredGroups_spec hne hblocks
  have hframe : ∀ g ∈ group :: groups, (groupCommit d.1 seq g).frameSize signMessage sha256 ≤
      (restCommit d).frameSize signMessage sha256 := by
    intro g hg
    refine frameSize_groupCommit_le hsign hsha d.1 seq ?_
    rw [← hflat]
    exact (List.sublist_flatten_of_mem hg).subperm
  rw [List.forall_mem_cons] at hfits hframe
  rw [heq, List.foldl_cons]
  have hfirst := (CallsFit.add h hfits.1).mono
    (Nat.add_le_add_left hframe.1 frame) le_rfl
  have hused := addGroup_used d.1 seq st group
  refine hfirst.further (by omega) hused.1 hused.2.1 hused.2.2 hchain hfits.2 fun g hg => ?_
  exact (hframe.2 g hg).trans (Nat.le_add_left _ _)

/-- All the blocks put off. -/
theorem CallsFit.loop (hsign : ∀ w m, (signMessage w m).length = 64 + m.length)
    (hsha : ∀ m, (sha256 m).length = 32) (nextSequence : PublicKeyHash → Option Int64)
    {deferred : List (PublicKeyHash × List InlineBlock)} {frame n : ℕ} {st : CallsLoop}
    (h : CallsFit signMessage sha256 frame n st) (hne : ∀ d ∈ deferred, d.2 ≠ [])
    (hblocks : ∀ d ∈ deferred, ∀ b ∈ d.2, 0 < b.data.length ∧ b.data.length ≤ maxBlockSize) :
    CallsFit signMessage sha256
      (frame + (deferred.map fun d => (restCommit d).frameSize signMessage sha256).sum)
      (n + deferred.length)
      (deferred.foldl (fun st d =>
        (deferredGroups d.2 [] 0).foldl (addGroup d.1 (nextSequence d.1)) st) st) := by
  induction deferred generalizing frame n st with
  | nil => exact h
  | cons d deferred ih =>
      rw [List.forall_mem_cons] at hne hblocks
      have hd := CallsFit.writer hsign hsha (nextSequence d.1) h hne.1 hblocks.1
      have hrest := ih hd hne.2 hblocks.2
      rw [List.map_cons, List.sum_cons, List.length_cons, List.foldl_cons]
      refine hrest.mono ?_ ?_
      · omega
      · omega

end Calls

/-! ## Room for the framing -/

section Limits

variable (signMessage sha256) in
/-- The framing of a split commit is within what is left for it: it names few enough blocks written
ahead, none of its blocks is empty, and its framing is small, in the last call as without its
pointers in one before it. -/
structure BulkCommit.FramingFits (commit : BulkCommit) (tid : TransactionId) : Prop where
  pre : commit.preWrittenCount ≤ maxBulkCommitBlocks
  nonempty : ∀ w ∈ commit.writers, ∀ b ∈ w.cborBlocks ++ w.rawBlocks, b ≠ []
  last : commit.frameSize signMessage sha256 ≤ maxBulkCommitSize - maxBulkInline
  before : (commit.blocksOnly tid).frameSize signMessage sha256 ≤ maxBulkCommitSize - maxBulkInline

variable {nextSequence : PublicKeyHash → Option Int64} {commit : BulkCommit}
  {roots : List (Option Cid)} {tid : TransactionId}

theorem withinLimits_of_frame {c : BulkCommit}
    (hframe : c.frameSize signMessage sha256 ≤ maxBulkCommitSize - maxBulkInline)
    (hbytes : c.inlineSize ≤ maxBulkInline)
    (hcount : c.blockCount + c.preWrittenCount ≤ maxBulkCommitBlocks) :
    c.WithinLimits signMessage sha256 := by
  refine ⟨?_, hcount⟩
  have hroom : maxBulkInline ≤ maxBulkCommitSize := by decide
  rw [BulkCommit.serializedSize_eq]
  omega

variable (signMessage) in
/-- The first loop of `split` over a whole commit. -/
theorem splitting_of_split {calls : List BulkCommit × BulkCommit}
    (hroots : roots.length = commit.writers.length)
    (h : split sha256 nextSequence commit roots tid = .ok calls) :
    ∃ st, Splitting signMessage sha256 commit.writers
        (maxBulkCommitBlocks - commit.preWrittenCount) st ∧
      calls.2 = ⟨commit.tid, st.lastWriters⟩ ∧
      ∀ call ∈ calls.1, ∃ writers ∈ (st.deferred.foldl (fun st d =>
        (deferredGroups d.2 [] 0).foldl (addGroup d.1 (nextSequence d.1)) st) ⟨[], 0, 0⟩).calls,
        call = ⟨some tid, writers⟩ := by
  obtain ⟨st, hloop, h⟩ := bind_eq_ok.1 h
  cases h
  have hstart : Splitting signMessage sha256 [] (maxBulkCommitBlocks - commit.preWrittenCount)
      ⟨maxBulkInline, maxBulkCommitBlocks - commit.preWrittenCount, [], []⟩ :=
    ⟨.nil, by simp, by simp, by simp, by simp, by simp, by simp⟩
  have hdone := hstart.loop hloop
  rw [List.nil_append, List.map_fst_zip (by omega)] at hdone
  refine ⟨st, hdone, rfl, fun call hcall => ?_⟩
  obtain ⟨writers, hwriters, rfl⟩ := List.mem_map.1 hcall
  exact ⟨writers, List.mem_of_mem_filter hwriters, rfl⟩

theorem preWrittenCount_last {st : SplitLoop} {countBudget : ℕ} {tid : Option TransactionId}
    (h : Splitting signMessage sha256 commit.writers countBudget st) :
    (⟨tid, st.lastWriters⟩ : BulkCommit).preWrittenCount = commit.preWrittenCount := by
  have hsum : ∀ ws lasts : List WriterCommit, List.Forall₂ (LastOf signMessage sha256) ws lasts →
      (lasts.map fun w => w.preWritten.length).sum = (ws.map fun w => w.preWritten.length).sum := by
    intro ws lasts hparts
    induction hparts with
    | nil => rfl
    | cons hlast _ ih => simp only [List.map_cons, List.sum_cons, hlast.pre, ih]
  exact hsum _ _ h.parts

theorem frameSize_last_le {st : SplitLoop} {countBudget : ℕ}
    (hunsigned : ∀ w ∈ commit.writers, w.blockListSignature = none)
    (h : Splitting signMessage sha256 commit.writers countBudget st) :
    (⟨commit.tid, st.lastWriters⟩ : BulkCommit).frameSize signMessage sha256 ≤
      commit.frameSize signMessage sha256 := by
  have hsum : ∀ (ws lasts : List WriterCommit), List.Forall₂ (LastOf signMessage sha256) ws lasts →
      (∀ w ∈ ws, w.blockListSignature = none) →
      (lasts.map (WriterCommit.frameSize signMessage sha256)).sum ≤
        (ws.map (WriterCommit.frameSize signMessage sha256)).sum := by
    intro ws lasts hparts
    induction hparts with
    | nil => exact fun _ => le_rfl
    | @cons w last ws lasts hlast _ ih =>
        intro hws
        rw [List.forall_mem_cons] at hws
        have hframe := hlast.frame
        have hsame : ({ w with blockListSignature := none } : WriterCommit) = w := by
          rw [← hws.1]
        rw [hsame] at hframe
        simp only [List.map_cons, List.sum_cons]
        exact Nat.add_le_add hframe (ih hws.2)
  have hle := hsum _ _ h.parts hunsigned
  unfold BulkCommit.frameSize
  rw [← h.parts.length_eq]
  dsimp only
  omega

/-- A split commit whose framing is within what is left for it. -/
theorem withinLimits_of_split (hsign : ∀ w m, (signMessage w m).length = 64 + m.length)
    (hsha : ∀ m, (sha256 m).length = 32) {calls : List BulkCommit × BulkCommit}
    (hroots : roots.length = commit.writers.length)
    (hunsigned : ∀ w ∈ commit.writers, w.blockListSignature = none)
    (hsize : ∀ w ∈ commit.writers, ∀ b ∈ w.cborBlocks ++ w.rawBlocks, b.length ≤ maxBlockSize)
    (hroom : commit.FramingFits signMessage sha256 tid)
    (hsplit : split sha256 nextSequence commit roots tid = .ok calls) :
    ∀ c ∈ calls.1 ++ [calls.2], c.WithinLimits signMessage sha256 := by
  obtain ⟨hpre, hne, hframe, honly⟩ := hroom
  obtain ⟨st, hst, hlast, hbefore⟩ := splitting_of_split signMessage hroots hsplit
  intro c hc
  rcases List.mem_append.1 hc with hc | hc
  · obtain ⟨writers, hwriters, rfl⟩ := hbefore c hc
    have hblocks : ∀ d ∈ st.deferred, ∀ b ∈ d.2,
        0 < b.data.length ∧ b.data.length ≤ maxBlockSize := by
      intro d hd b hb
      obtain ⟨w, hw, hmem⟩ := hst.blocks d hd b hb
      exact ⟨List.length_pos_iff.2 (hne w hw _ hmem), hsize w hw _ hmem⟩
    have hstart : CallsFit signMessage sha256 0 0 ⟨[], 0, 0⟩ := ⟨by simp, by simp, by simp⟩
    have hfits := (hstart.loop hsign hsha nextSequence hst.nonempty hblocks).each writers hwriters
    have hwriterCount : writers.length ≤ commit.writers.length := by
      have := hfits.few
      have := hst.length
      omega
    have hheader := headerSize_mono hwriterCount
    refine withinLimits_of_frame (le_trans ?_ honly) hfits.bytes ?_
    · have hframed := hfits.framed
      have hsum := hst.frames
      simp only [BulkCommit.frameSize, BulkCommit.blocksOnly, List.length_map, List.map_map]
      rw [Nat.zero_add] at hframed
      have hcomp : (commit.writers.map
          (WriterCommit.frameSize signMessage sha256 ∘ WriterCommit.blocksOnly)).sum =
          (commit.writers.map fun w => w.blocksOnly.frameSize signMessage sha256).sum := rfl
      omega
    · have hnone : (⟨some tid, writers⟩ : BulkCommit).preWrittenCount = 0 := by
        unfold BulkCommit.preWrittenCount
        refine List.sum_eq_zero ?_
        intro n hn
        obtain ⟨w, hw, rfl⟩ := List.mem_map.1 hn
        rw [hfits.pre w hw, List.length_nil]
      rw [hnone]
      exact hfits.count
  · rw [List.mem_singleton.1 hc, hlast]
    refine withinLimits_of_frame ((frameSize_last_le hunsigned hst).trans hframe) ?_ ?_
    · have := hst.bytes
      unfold BulkCommit.inlineSize
      dsimp only
      omega
    · have := hst.count
      rw [preWrittenCount_last hst]
      unfold BulkCommit.blockCount
      dsimp only
      omega

/-! ## Splitting comes to its end -/

theorem mapM_inlineBlock_ok (hsha : ∀ m, (sha256 m).length = 32) (isRaw : Bool)
    (datas : List Bytes) : ∃ blocks, (datas.mapM fun data => do
      let cid ← liftMf (buildCid (sha256 data) isRaw)
      .ok (⟨cid, data, isRaw⟩ : InlineBlock) : Result (List InlineBlock)) = .ok blocks := by
  induction datas with
  | nil => exact ⟨[], rfl⟩
  | cons data datas ih =>
      obtain ⟨blocks, hblocks⟩ := ih
      have hvalid : multihashRefusal .sha2_256 (sha256 data) = none := by
        simp [multihashRefusal, MultihashType.length, legacyMaxIdentityHashSize, hsha]
      have hnew := Multihash.new_of_valid ⟨.sha2_256, sha256 data, hvalid⟩
      simp only at hnew
      rw [List.mapM_cons, hblocks]
      simp only [buildCid, Cid.new, hnew]
      exact ⟨_, rfl⟩

theorem splitWriter_ok (hsha : ∀ m, (sha256 m).length = 32) (st : SplitLoop)
    (w : WriterCommit × Option Cid) : ∃ st', splitWriter sha256 st w = .ok st' := by
  obtain ⟨cbor, hcbor⟩ := mapM_inlineBlock_ok hsha false w.1.cborBlocks
  obtain ⟨raw, hraw⟩ := mapM_inlineBlock_ok hsha true w.1.rawBlocks
  rw [splitWriter, hcbor, ok_bind, hraw, ok_bind]
  exact ⟨_, rfl⟩

theorem splitLoop_ok (hsha : ∀ m, (sha256 m).length = 32) (ws : List (WriterCommit × Option Cid))
    (st : SplitLoop) : ∃ st', ws.foldlM (splitWriter sha256) st = .ok st' := by
  induction ws generalizing st with
  | nil => exact ⟨st, rfl⟩
  | cons w ws ih =>
      obtain ⟨st₁, hst₁⟩ := splitWriter_ok hsha st w
      obtain ⟨st₂, hst₂⟩ := ih st₁
      exact ⟨st₂, by rw [List.foldlM_cons, hst₁, ok_bind, hst₂]⟩

theorem split_ok (hsha : ∀ m, (sha256 m).length = 32)
    (nextSequence : PublicKeyHash → Option Int64) (commit : BulkCommit) (roots : List (Option Cid))
    (tid : TransactionId) : ∃ calls, split sha256 nextSequence commit roots tid = .ok calls := by
  obtain ⟨st, hst⟩ := splitLoop_ok hsha (commit.writers.zip roots)
    ⟨maxBulkInline, maxBulkCommitBlocks - commit.preWrittenCount, [], []⟩
  rw [split, hst, ok_bind]
  exact ⟨_, rfl⟩

end Limits

def sampleRoot : Cid := ⟨.v1, .dagCbor, ⟨.sha2_256, List.replicate 32 9, by decide⟩⟩

theorem sampleHash_valid : multihashRefusal .id [1] = none := by decide

theorem sampleKey_safe :
    (⟨.v1, .raw, ⟨.id, [1], sampleHash_valid⟩⟩ : Cid).multihash.hashType = .sha2_256 ∨
      (⟨.v1, .raw, ⟨.id, [1], sampleHash_valid⟩⟩ : Cid).multihash.hashType = .id := Or.inr rfl

/-- A writer of one cbor block, with `pre` large blocks written ahead. -/
def samplePart (pre : ℕ) : WriterCommit :=
  let key : PublicKeyHash := ⟨⟨.v1, .raw, ⟨.id, [1], sampleHash_valid⟩⟩, sampleKey_safe⟩
  let large (i : ℕ) : Cid := ⟨.v1, .raw, ⟨.sha2_256,
    List.replicate 30 0 ++ [UInt8.ofNat (i / 256), UInt8.ofNat i], by
      simp [multihashRefusal, MultihashType.length, legacyMaxIdentityHashSize]⟩⟩
  ⟨key, [[0xa0]], [], (List.range pre).map large, some ⟨key, ⟨none, some sampleRoot, some 1⟩⟩, none⟩

/-- A signature in front of the message. -/
def sampleSign (_ : PublicKeyHash) (message : Bytes) : Bytes := List.replicate 64 0 ++ message

/-- A writer of a cbor block and some small raw blocks, with a block written ahead. -/
def sampleWriter (n : UInt8) (small : ℕ) : WriterCommit :=
  ⟨byteKey n, [[0xa0]], (List.range small).map fun i => [n, UInt8.ofNat (i / 256), UInt8.ofNat i],
    [byteCid n], some ⟨byteKey n, ⟨none, some sampleRoot, some 1⟩⟩, none⟩

/-- Two writers. -/
def sampleCommit (small : ℕ) : BulkCommit :=
  ⟨some "1", [sampleWriter 1 small, sampleWriter 2 small]⟩

theorem exists_of_mem_sampleCommit {small : ℕ} {w : WriterCommit}
    (hw : w ∈ (sampleCommit small).writers) : ∃ n, w = sampleWriter n small := by
  rcases List.mem_pair.1 hw with rfl | rfl
  · exact ⟨1, rfl⟩
  · exact ⟨2, rfl⟩

theorem length_of_mem_sampleCommit {small : ℕ} {w : WriterCommit}
    (hw : w ∈ (sampleCommit small).writers) {b : Bytes} (hb : b ∈ w.cborBlocks ++ w.rawBlocks) :
    0 < b.length ∧ b.length ≤ 3 := by
  obtain ⟨n, rfl⟩ := exists_of_mem_sampleCommit hw
  rcases List.mem_append.1 hb with hb | hb
  · cases List.mem_singleton.1 hb
    decide
  · obtain ⟨i, -, rfl⟩ := List.mem_map.1 hb
    exact ⟨Nat.succ_pos 2, le_rfl⟩

end Peergos
