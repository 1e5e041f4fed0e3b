import PeergosClient.Buffered.Stable
import PeergosClient.Buffered.Reachability
import PeergosClient.Buffered.Server
import PeergosClient.Buffered.SplitBlocks

/-!
# Where the server's pointers have been

A pointer of the server moves from root to root.  A history lists the roots each writer's pointer
has been at, the latest first, so that two states of the server tell where it has been between them.
Other clients write as well, and a call whose answer is lost may have been applied, so a history may
hold more than this client was told; but what the server has answered for is in it.

`commit_one_with_merge` and `bulk_commit_owner` return only if the pointers of the entries they were
given have meanwhile been where the entries lead, or at a merge with what was there instead.
-/

namespace Peergos

open Exec

variable {σ : Type}

/-- The roots each writer's pointer has been at, the latest first. -/
abbrev PointerHistory (σ : Type) := σ → PublicKeyHash → List (Option Cid)

namespace PointerHistory

variable (history : PointerHistory σ)

/-- Nothing was taken from the history. -/
def Grows (s s' : σ) : Prop := ∀ writer, history s writer <:+ history s' writer

/-- The roots a writer's pointer has been at since the state `s₀`, with the one it was at then. -/
def since (s₀ s : σ) (writer : PublicKeyHash) : List (Option Cid) :=
  (history s writer).take ((history s writer).length + 1 - (history s₀ writer).length)

variable {history} {s₀ s s' : σ}

theorem Grows.refl (s : σ) : history.Grows s s := fun _ => List.suffix_rfl

theorem Grows.trans (h : history.Grows s₀ s) (h' : history.Grows s s') : history.Grows s₀ s' :=
  fun writer => (h writer).trans (h' writer)

variable {writer : PublicKeyHash} {root : Option Cid}

/-- What was reached stays reached. -/
theorem since_later (h : root ∈ history.since s₀ s writer) (h₀ : history.Grows s₀ s)
    (hs : history.Grows s s') : root ∈ history.since s₀ s' writer := by
  have hle := (h₀ writer).length_le
  obtain ⟨more, heq⟩ := hs writer
  unfold since at h ⊢
  rw [← heq, List.length_append]
  have hcount : more.length + (history s writer).length + 1 - (history s₀ writer).length =
      more.length + ((history s writer).length + 1 - (history s₀ writer).length) := by omega
  rw [hcount, List.take_length_add_append]
  exact List.mem_append_right _ h

/-- What was reached since a state was reached since an earlier one. -/
theorem since_earlier (h : root ∈ history.since s s' writer) (h₀ : history.Grows s₀ s) :
    root ∈ history.since s₀ s' writer := by
  have hle := (h₀ writer).length_le
  exact (List.take_subset_take_left _ (by omega)) h

end PointerHistory

/-- Calls only add to the history, and what the server says the pointer is, or says it has applied,
is where the pointer was during the call. -/
structure Target.KeepsHistory (T : Target σ) (history : PointerHistory σ) : Prop where
  follows : T.Follows history.Grows
  set_true : ∀ {s owner signer u s'}, T.setPointerUpdate owner signer u s = (.ok true, s') →
    u.updated ∈ history.since s s' signer.publicKeyHash
  read : ∀ {s owner writer u s'}, T.getPointerTarget owner writer s = (.ok u, s') →
    u.updated ∈ history.since s s' writer
  bulk : ∀ {s owner commit cids s'}, T.bulkCommit owner commit s = (.ok cids, s') →
    ∀ p ∈ commit.pointers, p.signed.updated ∈ history.since s s' p.writer

namespace Client

variable (c : Client σ) (history : PointerHistory σ)

/-- The merge of `ours` with `theirs` was written as `root`. -/
def MergedAs (theirs ours root : Cid) : Prop :=
  ∃ s s₁ s₂ base wd,
    ChampMerge.mergeWriterData c.target.store c.fuel c.ourOrder c.remoteOrder s base ours theirs =
      .ok (wd, s₁) ∧ c.target.store.put s₁ wd = .ok (root, s₂)

/-- Since the state `s₀` the writer's pointer has been at the root, or at a merge of it with another
root the pointer has been at. -/
def HasReached (s₀ s : σ) (writer : PublicKeyHash) (root : Option Cid) : Prop :=
  root ∈ history.since s₀ s writer ∨ ∃ ours theirs merged, root = some ours ∧
    some theirs ∈ history.since s₀ s writer ∧ some merged ∈ history.since s₀ s writer ∧
    c.MergedAs theirs ours merged

end Client

section Reached

variable {c : Client σ} {history : PointerHistory σ} {s₀ s s' : σ} {writer : PublicKeyHash}
  {root : Option Cid}

theorem Client.HasReached.later (h : c.HasReached history s₀ s writer root)
    (h₀ : history.Grows s₀ s) (hs : history.Grows s s') :
    c.HasReached history s₀ s' writer root := by
  rcases h with h | ⟨ours, theirs, merged, hroot, htheirs, hmerged, hmerge⟩
  · exact Or.inl (PointerHistory.since_later h h₀ hs)
  · exact Or.inr ⟨ours, theirs, merged, hroot, PointerHistory.since_later htheirs h₀ hs,
      PointerHistory.since_later hmerged h₀ hs, hmerge⟩

theorem Client.HasReached.earlier (h : c.HasReached history s s' writer root)
    (h₀ : history.Grows s₀ s) : c.HasReached history s₀ s' writer root := by
  rcases h with h | ⟨ours, theirs, merged, hroot, htheirs, hmerged, hmerge⟩
  · exact Or.inl (PointerHistory.since_earlier h h₀)
  · exact Or.inr ⟨ours, theirs, merged, hroot, PointerHistory.since_earlier htheirs h₀,
      PointerHistory.since_earlier hmerged h₀, hmerge⟩

/-- The entries have been reached since the server was in the state `s₀`. -/
def Client.AllReached (c : Client σ) (history : PointerHistory σ) (s₀ : σ)
    (writes : List WriterUpdate) (w : World σ) : Prop :=
  history.Grows s₀ w.server ∧
    ∀ u ∈ writes, c.HasReached history s₀ w.server u.writer u.update.updated

theorem allReached_stable (s₀ : σ) (writes : List WriterUpdate) :
    Stable history.Grows (c.AllReached history s₀ writes) where
  server h _ hs := ⟨h.1.trans hs, fun u hu => (h.2 u hu).later h.1 hs⟩
  blocks h _ := h
  others h _ := h
  accept h _ := h

namespace Client

variable {P : World σ → Prop} {owner : PublicKeyHash}

/-- What a call at an await point has done, in a run since the state `s₀`. -/
theorem await_reaches (hP : Stable history.Grows P) (hfrom : ∀ w, P w → history.Grows s₀ w.server)
    {α : Type} {call : Exec σ Fault α} (hcall : ∀ s, history.Grows s (call s).2) (pre : σ → Prop)
    (post : α → σ → Prop)
    (hpost : ∀ s a s', history.Grows s₀ s → history.Grows s s' → pre s →
      call s = (.ok a, s') → post a s') :
    Triple (fun w => P w ∧ pre w.server) (c.await call) (fun a w => P w ∧ post a w.server)
      fun _ => P := by
  rintro w ⟨hw, hpre⟩
  have hkept := (keeps_await (c := c) hP hcall).snd hw
  have hgrown := hfrom w hw
  have hgrows := hcall (c.interfere w).server
  rw [← interfere_server (c := c) w] at hpre hgrown
  unfold await at hkept ⊢
  dsimp only at hkept ⊢
  rcases hrun : call (c.interfere w).server with ⟨r, s⟩
  rw [hrun] at hkept hgrows
  cases r with
  | ok a => exact ⟨hkept, hpost _ _ _ hgrown hgrows hpre hrun⟩
  | error e => exact hkept

/-! ## Pointers one by one -/

theorem mergeOne_reaches (hT : c.target.KeepsHistory history) (hP : Stable history.Grows P)
    (hfrom : ∀ w, P w → history.Grows s₀ w.server) {u : WriterUpdate}
    (hsigner : u.signer.publicKeyHash = u.writer) (remote : PointerUpdate) :
    Triple (fun w => P w ∧ remote.updated ∈ history.since s₀ w.server u.writer)
      (c.mergeOne owner u remote)
      (fun _ w => P w ∧ c.HasReached history s₀ w.server u.writer u.update.updated)
      fun _ => P := by
  unfold mergeOne
  split
  · rename_i base ours theirs _ hours htheirs
    rw [htheirs]
    let read := fun s => some theirs ∈ history.since s₀ s u.writer
    let merged := fun wd s' => read s' ∧ ∃ s, ChampMerge.mergeWriterData c.target.store c.fuel
      c.ourOrder c.remoteOrder s base ours theirs = .ok (wd, s')
    refine Triple.bind (m := fun wd w => P w ∧ merged wd w.server)
      (await_reaches hP hfrom (follows_merge hT.follows _ _ _) read merged ?_) fun wd => ?_
    · exact fun s wd s' h₀ hs hread hrun =>
        ⟨PointerHistory.since_later hread h₀ hs, s, ofExcept_eq_ok hrun⟩
    let written := fun root s => read s ∧ c.MergedAs theirs ours root
    refine Triple.bind (m := fun root w => P w ∧ written root w.server)
      (await_reaches hP hfrom (follows_put hT.follows wd) (merged wd) written ?_) fun root => ?_
    · rintro s root s' h₀ hs ⟨hread, s₁, hmerge⟩ hrun
      exact ⟨PointerHistory.since_later hread h₀ hs, s₁, s, s', base, wd, hmerge,
        ofExcept_eq_ok hrun⟩
    refine Triple.bind (m := fun applied w => P w ∧ (applied = true →
      c.HasReached history s₀ w.server u.writer u.update.updated))
      (await_reaches hP hfrom (hT.follows.set owner _ _) (written root) (fun applied s =>
        applied = true → c.HasReached history s₀ s u.writer u.update.updated) ?_)
      fun applied => ?_
    · rintro s applied s' h₀ hs ⟨hread, hmerged⟩ hrun rfl
      have hset := PointerHistory.since_earlier (hT.set_true hrun) h₀
      rw [hsigner] at hset
      exact Or.inr ⟨ours, theirs, root, hours, PointerHistory.since_later hread h₀ hs, hset,
        hmerged⟩
    split
    · rename_i happlied
      exact Triple.pure fun w h => ⟨h.1, h.2 happlied⟩
    · exact Triple.fail fun w h => h.1
  · exact Triple.fail fun w h => h.1

/-- An entry that is committed has been reached. -/
theorem commitOneWithMerge_reaches (hT : c.target.KeepsHistory history)
    (hP : Stable history.Grows P) (hfrom : ∀ w, P w → history.Grows s₀ w.server)
    {u : WriterUpdate} (hsigner : u.signer.publicKeyHash = u.writer) :
    Triple P (c.commitOneWithMerge owner u)
      (fun _ w => P w ∧ c.HasReached history s₀ w.server u.writer u.update.updated)
      fun _ => P := by
  have hset : Triple P (c.await (c.target.setPointerUpdate owner u.signer u.update))
      (fun applied w => P w ∧ (applied = true →
        c.HasReached history s₀ w.server u.writer u.update.updated)) fun _ => P := by
    refine (await_reaches hP hfrom (hT.follows.set owner _ _) (fun _ => True) (fun applied s =>
      applied = true → c.HasReached history s₀ s u.writer u.update.updated) ?_).mono
      (fun w h => ⟨h, trivial⟩) (fun _ _ h => h) fun _ _ h => h
    rintro s applied s' h₀ - - hrun rfl
    have hset := PointerHistory.since_earlier (hT.set_true hrun) h₀
    rw [hsigner] at hset
    exact Or.inl hset
  refine Triple.bind (m := fun result w => P w ∧ (result = .ok true →
    c.HasReached history s₀ w.server u.writer u.update.updated)) (Triple.attempt (hset.mono
      (fun _ h => h) (fun applied w h => ⟨h.1, fun heq => h.2 (Except.ok.inj heq)⟩)
      fun _ _ h => ⟨h, by rintro ⟨⟩⟩)) fun result => ?_
  split
  · exact Triple.pure fun w h => ⟨h.1, h.2 rfl⟩
  · exact Triple.fail fun w h => h.1
  · exact Triple.fail fun w h => h.1
  · refine Triple.bind
      (m := fun remote w => P w ∧ remote.updated ∈ history.since s₀ w.server u.writer)
      ((await_reaches hP hfrom (hT.follows.read owner _) (fun _ => True)
        (fun remote s => remote.updated ∈ history.since s₀ s u.writer) ?_).mono
        (fun w h => ⟨h.1, trivial⟩) (fun _ _ h => h) fun _ _ h => h) fun remote => ?_
    · exact fun s remote s' h₀ _ _ hrun => PointerHistory.since_earlier (hT.read hrun) h₀
    split
    · rename_i hsame
      exact Triple.pure fun w h => ⟨h.1, Or.inl (hsame ▸ h.2)⟩
    · exact mergeOne_reaches hT hP hfrom hsigner remote

/-- The loop of `commit_pointers`. -/
theorem forEach_reaches (hT : c.target.KeepsHistory history) (hP : Stable history.Grows P)
    (hfrom : ∀ w, P w → history.Grows s₀ w.server) {writes : List WriterUpdate}
    (hsigner : ∀ u ∈ writes, u.signer.publicKeyHash = u.writer) :
    Triple P (Exec.forEach writes (c.commitOneWithMerge owner))
      (fun _ w => P w ∧ c.AllReached history s₀ writes w) fun _ => P := by
  induction writes generalizing P with
  | nil => exact Triple.pure fun w h => ⟨h, hfrom w h, by simp⟩
  | cons u writes ih =>
      rw [List.forall_mem_cons] at hsigner
      refine Triple.bind (commitOneWithMerge_reaches hT hP hfrom hsigner.1) fun _ => ?_
      have hstable := hP.and (allReached_stable (c := c) s₀ [u])
      refine (ih hstable (fun w h => hfrom w h.1) hsigner.2).mono
        (fun w h => ⟨h.1, hfrom w h.1, by simpa using h.2⟩) ?_ fun _ w h => h.1
      rintro _ w ⟨⟨h, hgrows, hu⟩, -, hwrites⟩
      exact ⟨h, hgrows, List.forall_mem_cons.2 ⟨hu u List.mem_cons_self, hwrites⟩⟩

/-! ## One bulk commit -/

/-- The last call of a split takes the pointer updates of all writers. -/
theorem split_pointers {sha256 : Bytes → Bytes} {nextSequence : PublicKeyHash → Option Int64}
    {commit last : BulkCommit} {roots : List (Option Cid)} {tid : TransactionId}
    {calls : List BulkCommit} (hlen : roots.length = commit.writers.length)
    (h : split sha256 nextSequence commit roots tid = .ok (calls, last)) :
    last.pointers = commit.pointers := by
  obtain ⟨st, hst, h⟩ := bind_eq_ok.1 h
  obtain ⟨parts, hparts, -, hlast, -⟩ := splitLoop_spec hst
  cases h
  have hwriters : parts.map WriterSplit.commit = commit.writers := by
    have hfst := congrArg (List.map Prod.fst) hparts
    rw [List.map_map, List.map_fst_zip hlen.ge] at hfst
    exact hfst
  unfold BulkCommit.pointers
  rw [show st.lastWriters = parts.map WriterSplit.last from hlast, ← hwriters,
    List.filterMap_map, List.filterMap_map]
  rfl

/-- Since the state `s₀` the pointers of a commit have been where its updates lead. -/
def PointersAt (history : PointerHistory σ) (s₀ : σ) (pointers : List SignedPointerUpdate)
    (w : World σ) : Prop :=
  history.Grows s₀ w.server ∧
    ∀ p ∈ pointers, p.signed.updated ∈ history.since s₀ w.server p.writer

theorem pointersAt_stable (history : PointerHistory σ) (s₀ : σ)
    (pointers : List SignedPointerUpdate) :
    Stable history.Grows (PointersAt history s₀ pointers) where
  server h _ hs := ⟨h.1.trans hs, fun p hp => PointerHistory.since_later (h.2 p hp) h.1 hs⟩
  blocks h _ := h
  others h _ := h
  accept h _ := h

theorem bulkCommit_reaches (hT : c.target.KeepsHistory history) (hP : Stable history.Grows P)
    (hfrom : ∀ w, P w → history.Grows s₀ w.server) (commit : BulkCommit) :
    Triple P (c.await (c.target.bulkCommit owner commit))
      (fun _ w => P w ∧ PointersAt history s₀ commit.pointers w) fun _ => P := by
  refine (await_reaches hP hfrom (hT.follows.bulk owner commit) (fun _ => True) (fun _ s =>
    ∀ p ∈ commit.pointers, p.signed.updated ∈ history.since s₀ s p.writer) ?_).mono
    (fun _ h => ⟨h, trivial⟩) (fun _ w h => ⟨h.1, hfrom w h.1, h.2⟩) fun _ _ h => h
  exact fun s cids s' h₀ _ _ hrun p hp => PointerHistory.since_earlier (hT.bulk hrun p hp) h₀

theorem sendBulkCommit_reaches (hT : c.target.KeepsHistory history) (hP : Stable history.Grows P)
    (hfrom : ∀ w, P w → history.Grows s₀ w.server) {commit : BulkCommit}
    {writes : List WriterUpdate} {roots : List (Option Cid)}
    (hlen : roots.length = commit.writers.length) :
    Triple P (c.sendBulkCommit owner commit writes roots)
      (fun _ w => P w ∧ PointersAt history s₀ commit.pointers w) fun _ => P := by
  unfold sendBulkCommit
  split
  · exact (bulkCommit_reaches hT hP hfrom commit).bind fun _ => Triple.pure fun _ h => h
  · refine Triple.bind (keeps_splitTid hT.follows hP owner _) fun tid => ?_
    refine Triple.bind (m := fun calls w => P w ∧ calls.2.pointers = commit.pointers)
      (Triple.lift (fun calls hsplit w h => ⟨h, split_pointers hlen hsplit⟩)
        fun _ _ _ h => h) fun calls => Triple.of_fact fun hcalls => ?_
    refine Triple.bind (Keeps.forEach (fun call => ?_) _) fun _ => ?_
    · exact (keeps_await hP (hT.follows.bulk owner call)).bind fun _ => Keeps.pure _
    rw [← hcalls]
    have hstable := hP.and (pointersAt_stable history s₀ calls.2.pointers)
    refine (bulkCommit_reaches hT hP hfrom calls.2).bind fun _ => ?_
    split
    · refine Triple.bind ?_ fun _ => Triple.pure fun _ h => h
      exact (keeps_await hstable (hT.follows.close owner tid)).mono (fun _ h => h)
        (fun _ _ h => h) fun _ _ h => h.1
    · exact Triple.pure fun _ h => h

theorem writerCommit_pointer (hT : c.target.KeepsHistory history) (hP : Stable history.Grows P)
    (tid : Option TransactionId) (u : WriterUpdate) (part : List (Cid × BufferedBlock)) :
    Triple P (c.writerCommit owner tid u part)
      (fun wc w => P w ∧ wc.pointer = some ⟨u.writer, u.update⟩) fun _ => P := by
  refine Triple.bind (m := fun _ => P) ?_ fun _ => Triple.pure fun _ h => ⟨h, rfl⟩
  cases tid with
  | some t => exact keeps_preWrite hT.follows hP _ _ _ _
  | none => exact Keeps.pure _

/-- A failed bulk commit stays failed. -/
theorem bulkResult_error {step : σ → σ → Prop} (hT : c.target.Follows step) (hP : Stable step P)
    (tid : Option TransactionId) (e : Fault) {post : Unit → World σ → Prop} :
    Triple P (c.bulkResult owner tid (.error e)) post fun _ => P := by
  unfold bulkResult
  cases e with
  | err e =>
      cases tid with
      | some t =>
          exact Triple.bind (keeps_await hP (hT.close owner t)).attempt fun _ =>
            Triple.fail fun _ h => h
      | none => exact Triple.fail fun _ h => h
  | panic => exact Triple.fail fun _ h => h
  | fuel => exact Triple.fail fun _ h => h

/-- The entries of a bulk commit that returned have been reached. -/
theorem bulkSendAny_reaches (hT : c.target.KeepsHistory history) (hP : Stable history.Grows P)
    (hfrom : ∀ w, P w → history.Grows s₀ w.server) (writes : List WriterUpdate) :
    Triple P (c.bulkSendAny owner writes)
      (fun _ w => P w ∧ c.AllReached history s₀ writes w) fun _ => P := by
  unfold bulkSendAny
  split
  · rename_i hnil
    exact Triple.pure fun w h => ⟨h, hfrom w h, by simp [hnil]⟩
  unfold bulkSend
  dsimp only
  refine Triple.bind (m := fun parts w => P w ∧ parts.length = writes.length)
    (Triple.reads fun w h => ⟨h, by simp [BufferedStorage.length_partitionByRoot]⟩)
    fun parts => Triple.of_fact fun hparts => ?_
  refine Triple.bind (keeps_bulkTid hT.follows hP owner _) fun tid => ?_
  have hsend : Triple P (do
      let writers ← Exec.collect (writes.zip parts) fun e => c.writerCommit owner tid e.1 e.2
      c.sendBulkCommit owner ⟨tid, writers⟩ writes (writes.map (·.update.updated)))
      (fun _ w => P w ∧ c.AllReached history s₀ writes w) fun _ => P := by
    refine Triple.bind (Triple.collect (R := fun (e : WriterUpdate × _) wc =>
      wc.pointer = some ⟨e.1.writer, e.1.update⟩) fun e _ =>
        writerCommit_pointer hT hP tid e.1 e.2) fun writers => Triple.of_fact fun hwriters => ?_
    have hlen : (writes.map (·.update.updated)).length = writers.length := by
      rw [← hwriters.length_eq, List.length_zip, hparts, min_self, List.length_map]
    refine (sendBulkCommit_reaches hT hP hfrom hlen).mono (fun _ h => h) ?_ fun _ _ h => h
    rintro - w ⟨h, hgrows, hpointers⟩
    refine ⟨h, hgrows, fun u hu => Or.inl ?_⟩
    obtain ⟨i, hi, rfl⟩ := List.mem_iff_getElem.1 hu
    have hzip : (writes[i], parts[i]) ∈ writes.zip parts :=
      List.mem_iff_getElem.2 ⟨i, by simp [hparts, hi], by simp⟩
    obtain ⟨wc, hwc, hpointer⟩ := exists_of_forall₂ hwriters hzip
    exact hpointers ⟨writes[i].writer, writes[i].update⟩
      (List.mem_filterMap.2 ⟨wc, hwc, hpointer⟩)
  refine Triple.bind (m := fun result w => P w ∧ (result = .ok () →
    c.AllReached history s₀ writes w))
    (Triple.attempt (hsend.mono (fun _ h => h) (fun _ _ h => ⟨h.1, fun _ => h.2⟩)
      fun _ _ h => ⟨h, by rintro ⟨⟩⟩)) fun result => ?_
  cases result with
  | ok _ => exact Triple.pure fun w h => ⟨h.1, h.2 rfl⟩
  | error e =>
      exact (bulkResult_error hT.follows hP tid e).mono (fun w h => h.1) (fun _ _ h => h)
        fun _ _ h => h

end Client

end Reached

/-! ## The history of a server in memory -/

namespace RamServer

/-- The roots a writer's pointer has been at: none at first, then those of the updates applied. -/
def history : PointerHistory RamServer := fun s writer =>
  (s.applied.filter fun e => e.1 = writer).map (fun e => e.2.updated) ++ [none]

theorem grows_of_suffix {s s' : RamServer} (h : s.applied <:+ s'.applied) :
    history.Grows s s' := by
  obtain ⟨more, h⟩ := h
  intro writer
  simp only [history, ← h, List.filter_append, List.map_append, List.append_assoc]
  exact List.suffix_append _ _

/-- Writing blocks moves no pointer. -/
theorem grows_of_eq {s s' : RamServer} (h : s'.applied = s.applied) : history.Grows s s' :=
  grows_of_suffix (h ▸ List.suffix_rfl)

theorem mem_since_pointer (s : RamServer) (writer : PublicKeyHash) :
    (s.pointer writer).updated ∈ history.since s s writer := by
  have hone : (history s writer).length + 1 - (history s writer).length = 1 := by omega
  rw [PointerHistory.since, hone]
  unfold pointer history
  rw [← List.head?_filter]
  cases s.applied.filter fun e => e.1 = writer with
  | nil => simp [PointerUpdate.empty]
  | cons e l => simp

theorem swap_grows {s s' : RamServer} {u : SignedPointerUpdate} (h : s.swap u = some s') :
    history.Grows s s' ∧ u.signed.updated ∈ history.since s s' u.writer := by
  unfold swap at h
  split at h
  · cases h
    refine ⟨grows_of_suffix (List.suffix_cons _ _), ?_⟩
    simp [PointerHistory.since, history]
  · cases h

/-- The updates of a bulk commit. -/
theorem foldlM_swap_grows {pointers : List SignedPointerUpdate} {s s' : RamServer}
    (h : pointers.foldlM swap s = some s') :
    history.Grows s s' ∧ ∀ p ∈ pointers, p.signed.updated ∈ history.since s s' p.writer := by
  induction pointers generalizing s with
  | nil =>
      cases h
      exact ⟨.refl _, by simp⟩
  | cons p pointers ih =>
      rw [List.foldlM_cons] at h
      obtain ⟨s₁, hswap, h⟩ := Option.bind_eq_some_iff.1 h
      obtain ⟨hrest, hall⟩ := ih h
      obtain ⟨hfirst, hp⟩ := swap_grows hswap
      exact ⟨hfirst.trans hrest, List.forall_mem_cons.2 ⟨PointerHistory.since_later hp hfirst hrest,
        fun q hq => PointerHistory.since_earlier (hall q hq) hfirst⟩⟩

variable (sha256 : Bytes → Bytes)

theorem put_applied {s s' : RamServer} {b : CborObject} {cid : Cid}
    (h : (store sha256).put s b = .ok (cid, s')) : s'.applied = s.applied := by
  obtain ⟨⟨c, blocks⟩, -, h⟩ := bind_eq_ok.1 h
  cases h
  rfl

theorem foldlM_applied {α β : Type} {step : β × RamServer → α → Result (β × RamServer)}
    (hstep : ∀ acc a acc', step acc a = .ok acc' → acc'.2.applied = acc.2.applied) {l : List α}
    {acc acc' : β × RamServer} (h : l.foldlM step acc = .ok acc') :
    acc'.2.applied = acc.2.applied := by
  induction l generalizing acc with
  | nil =>
      cases h
      rfl
  | cons a l ih =>
      rw [List.foldlM_cons] at h
      obtain ⟨next, hnext, h⟩ := bind_eq_ok.1 h
      exact (ih h).trans (hstep _ _ _ hnext)

theorem putAll_applied {s : RamServer} {blocks : List Bytes} {r : List Cid × RamServer}
    (h : putAll sha256 s blocks = .ok r) : r.2.applied = s.applied := by
  refine foldlM_applied ?_ h
  intro acc data acc' hput
  split at hput
  · obtain ⟨⟨cid, s₁⟩, hwrite, hacc⟩ := bind_eq_ok.1 hput
    cases hacc
    have happlied := put_applied sha256 hwrite
    exact happlied
  · cases hput

theorem bulkCommit_grows {s : RamServer} {commit : BulkCommit} {r : List Cid × RamServer}
    (h : s.bulkCommit sha256 commit = .ok r) :
    history.Grows s r.2 ∧
      ∀ p ∈ commit.pointers, p.signed.updated ∈ history.since s r.2 p.writer := by
  obtain ⟨⟨cids, s₁⟩, hblocks, h⟩ := bind_eq_ok.1 h
  have happlied : s₁.applied = s.applied := by
    have happlied : (cids, s₁).2.applied = s.applied := foldlM_applied ?_ hblocks
    · exact happlied
    intro acc w acc' hw
    obtain ⟨⟨cbor, s₂⟩, hcbor, hw⟩ := bind_eq_ok.1 hw
    obtain ⟨raw, -, hw⟩ := bind_eq_ok.1 hw
    cases hw
    have happlied := putAll_applied sha256 hcbor
    exact happlied
  have hsame : history.Grows s s₁ := grows_of_eq happlied
  simp only at h
  split at h
  · rename_i hswaps
    cases h
    obtain ⟨hgrows, hall⟩ := foldlM_swap_grows hswaps
    exact ⟨hsame.trans hgrows, fun p hp => PointerHistory.since_earlier (hall p hp) hsame⟩
  · cases h

theorem target_follows (bulk : Bool) : (target sha256 bulk).Follows history.Grows where
  set := by
    intro owner signer u s
    simp only [target]
    split
    · rename_i hswap
      exact (swap_grows hswap).1
    · exact .refl s
  read _ _ s := .refl s
  start _ s := .refl s
  close _ _ s := .refl s
  putBlocks := by
    intro owner batch tid s
    refine ofExcept_follows PointerHistory.Grows.refl fun r hput => ?_
    split at hput
    · obtain ⟨cids, -, hput⟩ := bind_eq_ok.1 hput
      cases hput
      exact .refl s
    · exact grows_of_eq (putAll_applied sha256 hput)
  putRawBatch _ _ _ _ s := .refl s
  bulk := by
    intro owner commit s
    cases bulk with
    | false => exact .refl s
    | true => exact ofExcept_follows PointerHistory.Grows.refl fun r hcommit =>
        (bulkCommit_grows sha256 hcommit).1
  puts := ⟨.refl, .trans, fun hput => grows_of_eq (put_applied sha256 hput)⟩

/-- The server in memory keeps the history of the updates it has applied. -/
theorem keepsHistory (bulk : Bool) : (target sha256 bulk).KeepsHistory history where
  follows := target_follows sha256 bulk
  set_true := by
    intro s owner signer u s' h
    simp only [target] at h
    split at h
    · rename_i hswap
      cases h
      exact (swap_grows hswap).2
    · cases h
  read := by
    intro s owner writer u s' h
    cases h
    exact mem_since_pointer s writer
  bulk := by
    intro s owner commit cids s' h
    cases bulk with
    | false => cases h
    | true =>
        have hcommit : s.bulkCommit sha256 commit = .ok (cids, s') :=
          ofExcept_eq_ok (f := fun s : RamServer => s.bulkCommit sha256 commit) h
        exact (bulkCommit_grows sha256 hcommit).2

end RamServer

end Peergos
