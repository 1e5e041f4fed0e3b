import PeergosClient.Buffered.Chain
import PeergosClient.Buffered.Reachability
import PeergosClient.Buffered.Server
import PeergosClient.Buffered.Stable
import PeergosClient.Lib.Grouping
import PeergosClient.Lib.Sha256

/-!
# What `commit_blocks` uploads

`commitBlocks` sends the owner's blocks that hang off the roots, each once and under the writer it
was buffered with, and drops just these from the buffer once every upload has been answered.  The
batches keep to the limits of the server, except that a cbor block which alone is over the byte
limit still goes out, in a batch of its own.

The server is watched by a log of the uploads it was asked for.
-/

namespace Peergos

/-! ## A server whose uploads are logged -/

/-- The uploads a server was asked for, in order. -/
abbrev UploadLog := List (PublicKeyHash × BufferedStorage.Batch)

section Logged

variable {σ : Type}

/-- A call that leaves the log alone. -/
def unlogged {α : Type} (x : Exec σ Fault α) : Exec (σ × UploadLog) Fault α :=
  Exec.zoom Prod.fst (fun s p => (s, p.2)) x

/-- The server with a log of its uploads. -/
def Target.logged (t : Target σ) : Target (σ × UploadLog) where
  setPointerUpdate owner signer u := unlogged (t.setPointerUpdate owner signer u)
  getPointerTarget owner writer := unlogged (t.getPointerTarget owner writer)
  startTransaction owner := unlogged (t.startTransaction owner)
  closeTransaction owner tid := unlogged (t.closeTransaction owner tid)
  putBlocks owner batch tid := fun p =>
    ((t.putBlocks owner batch tid p.1).1,
      ((t.putBlocks owner batch tid p.1).2, p.2 ++ [(owner, batch)]))
  putRawBatch owner signer blocks tid := unlogged (t.putRawBatch owner signer blocks tid)
  bulkCommit owner commit := unlogged (t.bulkCommit owner commit)
  store :=
    { get := fun p cid => t.store.get p.1 cid
      put := fun p b => do
        let (cid, s) ← t.store.put p.1 b
        .ok (cid, (s, p.2)) }

/-- The client of the logged server. -/
def Client.logged (c : Client σ) : Client (σ × UploadLog) :=
  ⟨c.target.logged, c.sha256, c.fuel, c.ourOrder, c.remoteOrder⟩

end Logged

/-! ## What the batches hold -/

/-- A block as it is uploaded: its writer, whether it is raw, its signature and its bytes. -/
abbrev SignedBlock := PublicKeyHash × Bool × Bytes × Bytes

/-- The block of a buffer entry as it is uploaded. -/
def BufferedBlock.signed (b : BufferedBlock) : SignedBlock :=
  (b.writer, b.isRaw, b.signature, b.data)

namespace BufferedStorage

/-- The blocks of an upload. -/
def Batch.signedBlocks (x : Batch) : List SignedBlock :=
  x.items.map fun item => (x.writer, x.isRaw, item)

/-- The bytes of an upload. -/
def Batch.size (x : Batch) : ℕ := (x.items.map fun item => item.2.length).sum

/-- The most blocks one upload may hold. -/
def Batch.maxBlocks (x : Batch) : ℕ := if x.isRaw then maxBlockAuths else maxCborBlocksPerBatch

/-- An upload within both limits. -/
structure Batch.WithinLimits (x : Batch) : Prop where
  blocks : x.items.length ≤ x.maxBlocks
  bytes : x.isRaw = false → x.size ≤ maxCborBatchSize

/-- An upload within both limits, or of a single cbor block. -/
structure Batch.WithinLimitsOrAlone (x : Batch) : Prop where
  blocks : x.items.length ≤ x.maxBlocks
  bytes : x.isRaw = false → x.size ≤ maxCborBatchSize ∨ x.items.length = 1

/-- The blocks of some uploads. -/
def uploaded (batches : List Batch) : List SignedBlock := batches.flatMap Batch.signedBlocks

@[simp] theorem uploaded_nil : uploaded [] = [] := rfl

@[simp] theorem uploaded_cons (x : Batch) (batches : List Batch) :
    uploaded (x :: batches) = x.signedBlocks ++ uploaded batches := rfl

@[simp] theorem uploaded_append (batches batches' : List Batch) :
    uploaded (batches ++ batches') = uploaded batches ++ uploaded batches' := by
  simp [uploaded]

/-- The batches of one writer's cbor blocks hold them in order. -/
theorem uploaded_cborBatches (writer : PublicKeyHash) (items batch : List (Bytes × Bytes))
    (size : ℕ) : uploaded (cborBatches writer items batch size) =
      (batch ++ items).map fun item => (writer, false, item) := by
  induction items generalizing batch size with
  | nil =>
      cases batch with
      | nil => rfl
      | cons item batch => simp [cborBatches, Batch.signedBlocks]
  | cons item items ih =>
      rw [cborBatches]
      split
      · rw [uploaded_cons, ih]
        simp [Batch.signedBlocks]
      · rw [ih, List.append_assoc]
        rfl

theorem uploaded_rawBatches (writer : PublicKeyHash) (items batch : List (Bytes × Bytes)) :
    uploaded (rawBatches writer items batch) =
      (batch ++ items).map fun item => (writer, true, item) := by
  induction items generalizing batch with
  | nil =>
      cases batch with
      | nil => rfl
      | cons item batch => simp [rawBatches, Batch.signedBlocks]
  | cons item items ih =>
      rw [rawBatches]
      split
      · rw [uploaded_cons, ih]
        simp [Batch.signedBlocks]
      · rw [ih, List.append_assoc]
        rfl

/-- A cbor batch is closed before a block takes it over a limit. -/
theorem withinLimits_cborBatches {writer : PublicKeyHash} (items : List (Bytes × Bytes))
    {batch : List (Bytes × Bytes)} {size : ℕ}
    (hsize : size = (batch.map fun item => item.2.length).sum)
    (hbatch : Batch.WithinLimitsOrAlone ⟨writer, false, batch⟩) :
    ∀ x ∈ cborBatches writer items batch size, x.WithinLimitsOrAlone := by
  induction items generalizing batch size with
  | nil =>
      cases batch with
      | nil => simp [cborBatches]
      | cons item batch => simpa [cborBatches] using hbatch
  | cons item items ih =>
      rw [cborBatches]
      have hone : Batch.WithinLimitsOrAlone ⟨writer, false, [item]⟩ :=
        ⟨by simp [Batch.maxBlocks, maxCborBlocksPerBatch], fun _ => Or.inr rfl⟩
      split
      · rw [List.forall_mem_cons]
        exact ⟨hbatch, ih (by simp) hone⟩
      · rename_i hopen
        refine ih (by simp [hsize]) ?_
        by_cases hnil : batch = []
        · rw [hnil]
          exact hone
        · rw [not_and, not_or, not_lt, not_le] at hopen
          obtain ⟨hbytes, hblocks⟩ := hopen hnil
          refine ⟨?_, fun _ => Or.inl ?_⟩
          · simpa [Batch.maxBlocks] using hblocks
          · simpa [Batch.size, hsize] using hbytes

/-- A raw batch is closed as soon as it is full. -/
theorem withinLimits_rawBatches {writer : PublicKeyHash} (items : List (Bytes × Bytes))
    {batch : List (Bytes × Bytes)} (hbatch : batch.length < maxBlockAuths) :
    ∀ x ∈ rawBatches writer items batch, x.WithinLimitsOrAlone := by
  have hraw : ∀ batch : List (Bytes × Bytes), batch.length ≤ maxBlockAuths →
      Batch.WithinLimitsOrAlone ⟨writer, true, batch⟩ := by
    intro batch h
    exact ⟨by simpa [Batch.maxBlocks] using h, fun h => by cases h⟩
  induction items generalizing batch with
  | nil =>
      cases batch with
      | nil => simp [rawBatches]
      | cons item batch => simpa [rawBatches] using hraw _ hbatch.le
  | cons item items ih =>
      rw [rawBatches]
      split
      · rw [List.forall_mem_cons]
        exact ⟨hraw _ (by simpa using hbatch), ih (by decide)⟩
      · rename_i hopen
        exact ih (by simpa using hopen)

/-- The batches of grouped blocks hold the blocks under their writers. -/
theorem uploaded_flatMap_groups (batchesOf : PublicKeyHash → List (Bytes × Bytes) → List Batch)
    {isRaw : Bool} (h : ∀ writer items, uploaded (batchesOf writer items) =
      items.map fun item => (writer, isRaw, item)) {blocks : List BufferedBlock}
    (hblocks : ∀ b ∈ blocks, b.isRaw = isRaw) :
    (uploaded ((groupByWriter blocks).flatMap fun g => batchesOf g.1 g.2)).Perm
      (blocks.map BufferedBlock.signed) := by
  have hgroups : ∀ groups : List (PublicKeyHash × List (Bytes × Bytes)),
      uploaded (groups.flatMap fun g => batchesOf g.1 g.2) =
        (Grouping.entries groups).map fun e => (e.1, isRaw, e.2) := by
    intro groups
    induction groups with
    | nil => rfl
    | cons g groups ih => simp [ih, h]
  rw [hgroups]
  have hperm : (Grouping.entries (groupByWriter blocks)).Perm
      (blocks.map fun b => (b.writer, b.signature, b.data)) :=
    Grouping.entries_groupBy BufferedBlock.writer (fun b => (b.signature, b.data)) blocks
  refine (hperm.map _).trans (List.Perm.of_eq ?_)
  rw [List.map_map]
  refine List.map_congr_left fun b hb => ?_
  simp [BufferedBlock.signed, hblocks b hb]

/-- The batches of a flush hold the blocks it keeps, each once. -/
theorem uploaded_batches (b : BufferedStorage) (keep : List Cid) :
    (uploaded (b.batches keep)).Perm
      ((b.buffer.filter fun e => e.1 ∈ keep).map fun e => e.2.signed) := by
  rw [show (fun e : Cid × BufferedBlock => e.2.signed) = BufferedBlock.signed ∘ Prod.snd from rfl,
    ← List.map_map]
  unfold batches
  extract_lets blocks cbor smallRaw largeRaw
  rw [uploaded_append, uploaded_append]
  have hcbor : ∀ x ∈ cbor, x.isRaw = false := by
    intro x hx
    simpa using (List.mem_filter.1 hx).2
  have hsmall : ∀ x ∈ smallRaw, x.isRaw = true := by
    intro x hx
    exact (Bool.and_eq_true_iff.1 (List.mem_filter.1 hx).2).1
  have hlarge : ∀ x ∈ largeRaw, x.isRaw = true := by
    intro x hx
    exact (Bool.and_eq_true_iff.1 (List.mem_filter.1 hx).2).1
  have hparts : (cbor ++ smallRaw ++ largeRaw).Perm blocks := by
    have hraw : (smallRaw ++ largeRaw).Perm (blocks.filter fun x => !!x.isRaw) := by
      refine List.Perm.trans (List.Perm.of_eq ?_) (List.filter_append_perm
        (fun x => decide (x.data.length < maxSmallBlockSize)) (blocks.filter fun x => !!x.isRaw))
      rw [List.filter_filter, List.filter_filter]
      congr 1
      · refine List.filter_congr fun x _ => ?_
        simp [Bool.and_comm]
      · refine List.filter_congr fun x _ => ?_
        have hlarge : decide (maxSmallBlockSize ≤ x.data.length) =
            !decide (x.data.length < maxSmallBlockSize) := by
          rw [← decide_not, decide_eq_decide, not_lt]
        rw [hlarge, Bool.not_not, Bool.and_comm]
    rw [List.append_assoc]
    exact (hraw.append_left _).trans (List.filter_append_perm (fun x => !x.isRaw) blocks)
  refine List.Perm.trans ?_ (hparts.map BufferedBlock.signed)
  rw [List.map_append, List.map_append]
  refine List.Perm.append (List.Perm.append ?_ ?_) ?_
  · exact uploaded_flatMap_groups (fun w l => cborBatches w l [] 0)
      (fun w l => uploaded_cborBatches w l [] 0) hcbor
  · exact uploaded_flatMap_groups (fun w l => rawBatches w l [])
      (fun w l => uploaded_rawBatches w l []) hsmall
  · exact uploaded_flatMap_groups (fun w l => rawBatches w l [])
      (fun w l => uploaded_rawBatches w l []) hlarge

/-- The batches of a flush keep to the limits. -/
theorem withinLimits_batches (b : BufferedStorage) (keep : List Cid) :
    ∀ x ∈ b.batches keep, x.WithinLimitsOrAlone := by
  intro x hx
  have hraw : ∀ g : PublicKeyHash × List (Bytes × Bytes), x ∈ rawBatches g.1 g.2 [] →
      x.WithinLimitsOrAlone := fun g h => withinLimits_rawBatches g.2 (by decide) x h
  rcases List.mem_append.1 hx with hx | hx
  · rcases List.mem_append.1 hx with hx | hx
    · obtain ⟨g, -, hg⟩ := List.mem_flatMap.1 hx
      refine withinLimits_cborBatches g.2 rfl ⟨by simp [Batch.maxBlocks], fun _ => Or.inl ?_⟩ x hg
      simp [Batch.size]
    · obtain ⟨g, -, hg⟩ := List.mem_flatMap.1 hx
      exact hraw g hg
  · obtain ⟨g, -, hg⟩ := List.mem_flatMap.1 hx
    exact hraw g hg

end BufferedStorage

/-! ## Uploads joined one by one -/

namespace Client

variable {σ : Type} (c : Client σ)

/-- The same blocks are buffered, and the other task is to do the same. -/
structure SameBlocks (w v : World σ) : Prop where
  blocks : w.blocks = v.blocks
  others : w.others = v.others

theorem act_sameBlocks {w v : World σ} (h : SameBlocks w v) (a : Action) :
    SameBlocks (c.act w a) (c.act v a) := by
  cases a with
  | setPointerUpdate call => exact ⟨h.blocks, h.others⟩
  | bufferPut owner writer isRaw signed blocks =>
      simp only [act, h.blocks]
      cases v.blocks.bufferPut c.sha256 owner writer isRaw signed blocks with
      | ok r => exact ⟨rfl, h.others⟩
      | error e => exact h

theorem foldl_act_sameBlocks (batch : List Action) {w v : World σ} (h : SameBlocks w v) :
    SameBlocks (batch.foldl c.act w) (batch.foldl c.act v) := by
  induction batch generalizing w v with
  | nil => exact h
  | cons a batch ih => exact ih (c.act_sameBlocks h a)

/-- What the other task does to the blocks depends on them alone. -/
theorem interfere_sameBlocks {w v : World σ} (h : SameBlocks w v) :
    SameBlocks (c.interfere w) (c.interfere v) := by
  unfold interfere
  rw [h.others]
  split
  · exact h
  · exact c.foldl_act_sameBlocks _ ⟨h.blocks, rfl⟩

theorem interfere_iterate_sameBlocks (n : ℕ) {w v : World σ} (h : SameBlocks w v) :
    SameBlocks (c.interfere^[n] w) (c.interfere^[n] v) := by
  induction n generalizing w v with
  | zero => exact h
  | succ n ih => exact ih (c.interfere_sameBlocks h)

theorem interfere_iterate_alone (n : ℕ) {w : World σ} (h : w.others = []) :
    c.interfere^[n] w = w := by
  induction n with
  | zero => rfl
  | succ n ih => rw [Function.iterate_succ_apply, c.interfere_alone h, ih]

/-- Where a list of calls leaves the server. -/
def serverAfter {α : Type} (calls : List (Exec σ Fault α)) (s : σ) : σ :=
  calls.foldl (fun s call => (call s).2) s

/-- Every call is made, whatever the ones before it answer. -/
theorem collect_await {α : Type} (calls : List (Exec σ Fault α)) (w : World σ) :
    ∃ results w', Exec.collect calls (fun call => Exec.attempt (c.await call)) w =
        (.ok results, w') ∧ SameBlocks w' (c.interfere^[calls.length] w) ∧
      w'.server = serverAfter calls w.server ∧
      ((∀ call ∈ calls, ∀ s, ∃ a, (call s).1 = .ok a) → ∀ r ∈ results, ∃ a, r = .ok a) := by
  induction calls generalizing w with
  | nil => exact ⟨[], w, rfl, ⟨rfl, rfl⟩, rfl, fun _ r hr => absurd hr List.not_mem_nil⟩
  | cons call calls ih =>
      obtain ⟨results, w', hrun, hsame, hserver, hok⟩ :=
        ih { c.interfere w with server := (call (c.interfere w).server).2 }
      refine ⟨(call (c.interfere w).server).1 :: results, w', ?_, ?_, ?_, ?_⟩
      · have hcall : Exec.attempt (c.await call) w =
            (.ok (call (c.interfere w).server).1,
              { c.interfere w with server := (call (c.interfere w).server).2 }) := rfl
        rw [Exec.collect, Exec.bind_of_ok hcall, Exec.bind_of_ok hrun]
        rfl
      · have hiterate := c.interfere_iterate_sameBlocks calls.length
          (w := { c.interfere w with server := (call (c.interfere w).server).2 })
          (v := c.interfere w) ⟨rfl, rfl⟩
        exact ⟨hsame.blocks.trans hiterate.blocks, hsame.others.trans hiterate.others⟩
      · rw [hserver, interfere_server]
        rfl
      · intro hall r hr
        rcases List.mem_cons.1 hr with rfl | hr
        · exact hall call List.mem_cons_self _
        · exact hok (fun call' h => hall call' (List.mem_cons_of_mem _ h)) r hr

theorem foldlM_lift {α : Type} (results : List (Except Fault α)) (acc : List α) (w : World σ) :
    ∃ r, (results.foldlM (fun acc r => do
        let a ← Exec.lift r
        pure (acc ++ [a])) acc : Exec (World σ) Fault (List α)) w = (r, w) ∧
      ((∀ r ∈ results, ∃ a, r = .ok a) → ∃ l, r = .ok l) := by
  induction results generalizing acc with
  | nil => exact ⟨.ok acc, rfl, fun _ => ⟨acc, rfl⟩⟩
  | cons result results ih =>
      cases result with
      | ok a =>
          obtain ⟨r, hrun, hok⟩ := ih (acc ++ [a])
          exact ⟨r, hrun, fun h => hok fun r hr => h r (List.mem_cons_of_mem _ hr)⟩
      | error e =>
          refine ⟨.error e, rfl, fun h => ?_⟩
          obtain ⟨a, ha⟩ := h _ List.mem_cons_self
          cases ha

/-- The uploads are all made, and the buffer is left to the other tasks. -/
theorem joinAll_run {α : Type} (calls : List (Exec σ Fault α)) (w : World σ) :
    ∃ r w', c.joinAll calls w = (r, w') ∧ SameBlocks w' (c.interfere^[calls.length] w) ∧
      w'.server = serverAfter calls w.server ∧
      ((∀ call ∈ calls, ∀ s, ∃ a, (call s).1 = .ok a) → ∃ l, r = .ok l) := by
  obtain ⟨results, w', hcollect, hsame, hserver, hresults⟩ := c.collect_await calls w
  obtain ⟨r, hfold, hr⟩ := foldlM_lift results [] w'
  exact ⟨r, w', (Exec.bind_of_ok hcollect).trans hfold, hsame, hserver,
    fun h => hr (hresults h)⟩

theorem serverAfter_logged (t : Target σ) (owner : PublicKeyHash) (tid : TransactionId)
    (batches : List BufferedStorage.Batch) (p : σ × UploadLog) :
    (serverAfter (batches.map fun batch => t.logged.putBlocks owner batch tid) p).2 =
      p.2 ++ batches.map (owner, ·) := by
  induction batches generalizing p with
  | nil => simp [serverAfter]
  | cons batch batches ih =>
      show (serverAfter (batches.map fun batch => t.logged.putBlocks owner batch tid) _).2 = _
      rw [ih]
      simp [Target.logged]

/-- A flush of the blocks uploads each batch once and then drops the blocks it sent; if an upload
fails it drops none. -/
theorem commitBlocks_run (owner : PublicKeyHash) (roots : List Cid) (tid : TransactionId)
    (w : World (σ × UploadLog)) :
    let keep := w.blocks.keepFor owner roots
    let uploads := w.blocks.batches keep
    ∃ r w', c.logged.commitBlocks owner roots tid w = (r, w') ∧
      w'.server.2 = w.server.2 ++ uploads.map (owner, ·) ∧
      w'.blocks = (match r with
        | .ok _ => (c.logged.interfere^[uploads.length] w).blocks.drop keep
        | .error _ => (c.logged.interfere^[uploads.length] w).blocks) ∧
      ((∀ batch s, ∃ a, (c.target.putBlocks owner batch tid s).1 = .ok a) → r = .ok ()) := by
  intro keep uploads
  obtain ⟨r, w', hrun, hsame, hserver, hr⟩ := c.logged.joinAll_run
    (uploads.map fun batch => c.target.logged.putBlocks owner batch tid) w
  rw [List.length_map] at hsame
  have hlog := serverAfter_logged c.target owner tid uploads w.server
  rw [← hserver] at hlog
  cases r with
  | ok l =>
      refine ⟨.ok (), _, (Exec.bind_of_ok hrun).trans rfl, hlog, ?_, fun _ => rfl⟩
      exact congrArg (BufferedStorage.drop · keep) hsame.blocks
  | error e =>
      refine ⟨.error e, _, (Exec.bind_of_error hrun).trans rfl, hlog, hsame.blocks, fun h => ?_⟩
      have hcalls : ∀ call ∈ uploads.map fun batch => c.target.logged.putBlocks owner batch tid,
          ∀ s, ∃ a, (call s).1 = .ok a := by
        intro call hcall s
        obtain ⟨batch, -, rfl⟩ := List.mem_map.1 hcall
        exact h batch s.1
      obtain ⟨l, hl⟩ := hr hcalls
      cases hl

end Client

/-! ## A flush of the blocks -/

section Flush

variable {σ : Type}

/-- The entries of the buffer a flush of these roots has to send. -/
structure BufferedStorage.Needs (b : BufferedStorage) (owner : PublicKeyHash) (roots : List Cid)
    (sent : List (Cid × BufferedBlock)) : Prop where
  sublist : sent.Sublist b.buffer
  mem : ∀ e, e ∈ sent ↔ e ∈ b.buffer ∧ e.2.owner = owner ∧ b.Reaches roots e.1

/-- `commit_blocks` called in `w` writes what is needed: if it succeeds, the server was asked for
uploads that `limits` holds of and that are made of the needed blocks, each once and under its own
writer, and these blocks are gone from the buffer; if it fails they are not.  What other tasks have
put there since stays either way. -/
def Client.WritesNeeded (c : Client σ) (limits : BufferedStorage.Batch → Prop)
    (owner : PublicKeyHash) (roots : List Cid) (tid : TransactionId) (w : World (σ × UploadLog)) :
    Prop :=
  ∃ sent uploads, w.blocks.Needs owner roots sent ∧
    match c.logged.commitBlocks owner roots tid w with
    | (.ok _, w') =>
        w'.server.2 = w.server.2 ++ uploads.map (owner, ·) ∧
        (BufferedStorage.uploaded uploads).Perm (sent.map fun e => e.2.signed) ∧
        (∀ x ∈ uploads, limits x) ∧
        w'.blocks = (c.logged.interfere^[uploads.length] w).blocks.drop (sent.map Prod.fst)
    | (.error _, w') =>
        w'.blocks = (c.logged.interfere^[uploads.length] w).blocks ∧
        (w.others = [] → w'.blocks = w.blocks)

/-- A flush that succeeded has uploaded what is needed. -/
theorem Client.WritesNeeded.of_ok {c : Client σ} {limits : BufferedStorage.Batch → Prop}
    {owner : PublicKeyHash} {roots : List Cid} {tid : TransactionId} {w w' : World (σ × UploadLog)}
    (h : c.WritesNeeded limits owner roots tid w)
    (hcommit : c.logged.commitBlocks owner roots tid w = (.ok (), w')) :
    ∃ sent uploads, w.blocks.Needs owner roots sent ∧
      (BufferedStorage.uploaded uploads).Perm (sent.map fun e => e.2.signed) ∧
      ∀ x ∈ uploads, limits x := by
  obtain ⟨sent, uploads, hneeds, hrun⟩ := h
  rw [hcommit] at hrun
  exact ⟨sent, uploads, hneeds, hrun.2.1, hrun.2.2.1⟩

namespace BufferedStorage

variable {b : BufferedStorage} {owner : PublicKeyHash} {roots : List Cid}

theorem lookup_of_mem (h : (b.buffer.map Prod.fst).Nodup) {cid : Cid} {block : BufferedBlock}
    (he : (cid, block) ∈ b.buffer) : b.lookup cid = some block := by
  unfold lookup
  cases hfind : b.buffer.find? fun e => e.1 = cid with
  | none => simpa using List.find?_eq_none.1 hfind _ he
  | some e =>
      have hkey : e.1 = cid := by simpa using List.find?_some hfind
      have heq : e = (cid, block) :=
        List.inj_on_of_nodup_map h (List.mem_of_find?_eq_some hfind) he hkey
      rw [heq]
      rfl

theorem mem_keepFor (cid : Cid) : cid ∈ b.keepFor owner roots ↔
    b.Reaches roots cid ∧ ∃ block, b.lookup cid = some block ∧ block.owner = owner := by
  unfold keepFor
  rw [List.mem_filter, (b.reachable_spec roots).2]
  refine and_congr_right fun _ => ?_
  cases b.lookup cid with
  | none => simp
  | some block => simp

/-- What `commit_blocks` keeps is what is needed. -/
theorem needs_keepFor (h : (b.buffer.map Prod.fst).Nodup) :
    b.Needs owner roots (b.buffer.filter fun e => e.1 ∈ b.keepFor owner roots) := by
  refine ⟨List.filter_sublist, ?_⟩
  rintro ⟨cid, block⟩
  rw [List.mem_filter, decide_eq_true_iff, mem_keepFor]
  refine and_congr_right fun he => ?_
  rw [lookup_of_mem h he]
  constructor
  · rintro ⟨hreach, block', hblock', howner⟩
    cases hblock'
    exact ⟨howner, hreach⟩
  · rintro ⟨howner, hreach⟩
    exact ⟨hreach, block, rfl, howner⟩

/-- Dropping the blocks kept and dropping the entries sent is one thing. -/
theorem drop_keepFor (b' : BufferedStorage) :
    b'.drop ((b.buffer.filter fun e => e.1 ∈ b.keepFor owner roots).map Prod.fst) =
      b'.drop (b.keepFor owner roots) := by
  unfold drop
  congr 1
  refine List.filter_congr fun e _ => ?_
  rw [decide_eq_decide, not_iff_not, List.mem_map]
  constructor
  · rintro ⟨e', he', hcid⟩
    rw [← hcid]
    exact of_decide_eq_true (List.mem_filter.1 he').2
  · intro hkeep
    obtain ⟨-, block, hblock, -⟩ := (mem_keepFor _).1 hkeep
    obtain ⟨e', hfind, -⟩ := Option.map_eq_some_iff.1 hblock
    have hcid : e'.1 = e.1 := by simpa using List.find?_some hfind
    refine ⟨e', List.mem_filter.2 ⟨List.mem_of_find?_eq_some hfind, ?_⟩, hcid⟩
    rw [hcid]
    exact decide_eq_true hkeep

end BufferedStorage

/-- `commit_blocks` writes just what is needed and, if it fails, leaves the buffer alone. -/
theorem Client.commitBlocks_writesNeeded (c : Client σ) (owner : PublicKeyHash) (roots : List Cid)
    (tid : TransactionId) (w : World (σ × UploadLog))
    (hkeys : (w.blocks.buffer.map Prod.fst).Nodup) :
    c.WritesNeeded BufferedStorage.Batch.WithinLimitsOrAlone owner roots tid w := by
  obtain ⟨r, w', hrun, hlog, hblocks, -⟩ := c.commitBlocks_run owner roots tid w
  refine ⟨_, w.blocks.batches (w.blocks.keepFor owner roots),
    BufferedStorage.needs_keepFor hkeys, ?_⟩
  rw [hrun]
  cases r with
  | ok _ =>
      refine ⟨hlog, w.blocks.uploaded_batches _, w.blocks.withinLimits_batches _, ?_⟩
      rw [BufferedStorage.drop_keepFor]
      exact hblocks
  | error e =>
      refine ⟨hblocks, fun halone => ?_⟩
      rw [c.logged.interfere_iterate_alone _ halone] at hblocks
      exact hblocks

/-! ## A block over the byte limit -/

/-- One cbor block in the buffer. -/
def bufferOf (data : Bytes) : BufferedStorage :=
  ⟨[(BufferedStorage.sampleCid 3, ⟨data, [], BufferedStorage.sampleOwner 1,
    BufferedStorage.sampleOwner 2, false⟩)], []⟩

/-- A client whose server takes every upload. -/
def takingClient : Client RamServer :=
  { RamServer.client Sha256.sha256 true with
    target := { RamServer.target Sha256.sha256 true with
      putBlocks := fun _ _ _ => pure [] } }

/-- A buffer of a client alone with a server that holds nothing. -/
def World.holding (b : BufferedStorage) : World (RamServer × UploadLog) :=
  { World.fresh (RamServer.empty, []) with blocks := b }

/-- Blocks of two writers below two roots, one below no root, and one of another owner. -/
def writersBuffer : BufferedStorage :=
  ⟨[(BufferedStorage.sampleCid 3,
      ⟨(CborObject.list [.merkleLink (BufferedStorage.sampleCid 4).toBytes]).toBytes, [],
        BufferedStorage.sampleOwner 1, BufferedStorage.sampleOwner 2, false⟩),
    (BufferedStorage.sampleCid 4, ⟨[0xf6], [], BufferedStorage.sampleOwner 1,
      BufferedStorage.sampleOwner 2, false⟩),
    (BufferedStorage.sampleCid 5, ⟨[1, 2], [], BufferedStorage.sampleOwner 1,
      BufferedStorage.sampleOwner 6, true⟩),
    (BufferedStorage.sampleCid 7, ⟨[0xf6], [], BufferedStorage.sampleOwner 1,
      BufferedStorage.sampleOwner 2, false⟩),
    (BufferedStorage.sampleCid 8, ⟨[0xf6], [], BufferedStorage.sampleOwner 9,
      BufferedStorage.sampleOwner 9, false⟩)], []⟩

theorem commitBlocks_writesNeeded_sample :
    takingClient.WritesNeeded BufferedStorage.Batch.WithinLimitsOrAlone
      (BufferedStorage.sampleOwner 1) [BufferedStorage.sampleCid 3, BufferedStorage.sampleCid 5] "0"
      (World.holding writersBuffer) :=
  takingClient.commitBlocks_writesNeeded _ _ _ _ (by decide)

/-- The three blocks below the roots are needed. -/
example : (writersBuffer.keepFor (BufferedStorage.sampleOwner 1)
    [BufferedStorage.sampleCid 3, BufferedStorage.sampleCid 5]).Perm
    [BufferedStorage.sampleCid 3, BufferedStorage.sampleCid 4, BufferedStorage.sampleCid 5] := by
  decide +kernel

/-- A block over the limit goes out. -/
theorem not_writesNeeded_bufferOf {data : Bytes} (h : maxCborBatchSize < data.length) :
    ¬ takingClient.WritesNeeded BufferedStorage.Batch.WithinLimits (BufferedStorage.sampleOwner 1)
      [BufferedStorage.sampleCid 3] "0" (World.holding (bufferOf data)) := by
  intro hwrites
  obtain ⟨r, w', hcommit, -, -, hok⟩ := takingClient.commitBlocks_run
    (BufferedStorage.sampleOwner 1) [BufferedStorage.sampleCid 3] "0" (World.holding (bufferOf data))
  rw [hok fun batch s => ⟨[], rfl⟩] at hcommit
  obtain ⟨sent, uploads, hneeds, hperm, hlimits⟩ := hwrites.of_ok hcommit
  -- the block is needed, so it is in some upload
  have hlookup : (bufferOf data).lookup (BufferedStorage.sampleCid 3) = some
      ⟨data, [], BufferedStorage.sampleOwner 1, BufferedStorage.sampleOwner 2, false⟩ := by
    simp [BufferedStorage.lookup, bufferOf]
  have hreach : (bufferOf data).Reaches [BufferedStorage.sampleCid 3] (BufferedStorage.sampleCid 3) :=
    Search.Reach.start (by simp) ((BufferedStorage.isSome_successors _).2 ⟨_, hlookup⟩)
  have hsent := (hneeds.mem _).2 ⟨List.mem_singleton.2 rfl, rfl, hreach⟩
  obtain ⟨x, hx, hblock⟩ := List.mem_flatMap.1 (hperm.mem_iff.2 (List.mem_map_of_mem hsent))
  obtain ⟨item, hitem, heq⟩ := List.mem_map.1 hblock
  have hraw : x.isRaw = false := congrArg (fun s => s.2.1) heq
  have hdata : item.2 = data := congrArg (fun s => s.2.2.2) heq
  have hle : item.2.length ≤ x.size :=
    List.single_le_sum (fun _ _ => Nat.zero_le _) _ (List.mem_map_of_mem hitem)
  have hsize := (hlimits x hx).bytes hraw
  rw [hdata] at hle
  omega

/-- A block one byte over the limit. -/
def bigBlock : Bytes := List.replicate (maxCborBatchSize + 1) 0

theorem length_bigBlock : maxCborBatchSize < bigBlock.length := by
  unfold bigBlock
  rw [List.length_replicate]
  exact Nat.lt_succ_self _

theorem commitBlocks_exceeds_limit :
    ¬ takingClient.WritesNeeded BufferedStorage.Batch.WithinLimits (BufferedStorage.sampleOwner 1)
      [BufferedStorage.sampleCid 3] "0" (World.holding (bufferOf bigBlock)) :=
  not_writesNeeded_bufferOf length_bigBlock

end Flush

end Peergos
