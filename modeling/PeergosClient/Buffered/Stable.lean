import PeergosClient.Buffered.Flush
import PeergosClient.Champ.MergeWrites

/-!
# What a flush leaves alone

The parts of a flush that talk to the server do not touch the list of pointer updates: while they
wait, only the other task does.  So a property of the client that survives a step of the server, a
change of the block buffer and of the script, and an update accepted from the other task, survives
all of them.  `Stable` is such a property; the steps of the server are a relation of its states
that every call follows.
-/

namespace Peergos

variable {σ : Type}

theorem ofExcept_eq_ok {α : Type} {f : σ → Result (α × σ)} {s s' : σ} {a : α}
    (h : Exec.ofExcept f s = (.ok a, s')) : f s = .ok (a, s') := by
  unfold Exec.ofExcept at h
  split at h
  · rename_i hf
    cases h
    exact hf
  · cases h

/-- A step that leaves the state alone if it fails. -/
theorem ofExcept_follows {α : Type} {R : σ → σ → Prop} (hR : ∀ s, R s s) {f : σ → Result (α × σ)}
    {s : σ} (h : ∀ r, f s = .ok r → R s r.2) : R s (Exec.ofExcept f s).2 := by
  unfold Exec.ofExcept
  split
  · rename_i hf
    exact h _ hf
  · exact hR s

/-- Every call of the server follows a relation of its states. -/
structure Target.Follows (T : Target σ) (step : σ → σ → Prop) : Prop where
  set : ∀ owner signer u s, step s (T.setPointerUpdate owner signer u s).2
  read : ∀ owner writer s, step s (T.getPointerTarget owner writer s).2
  start : ∀ owner s, step s (T.startTransaction owner s).2
  close : ∀ owner tid s, step s (T.closeTransaction owner tid s).2
  putBlocks : ∀ owner batch tid s, step s (T.putBlocks owner batch tid s).2
  putRawBatch : ∀ owner signer blocks tid s, step s (T.putRawBatch owner signer blocks tid s).2
  bulk : ∀ owner commit s, step s (T.bulkCommit owner commit s).2
  puts : T.store.FollowedByPuts step

/-- Calls may lead to any state. -/
theorem Target.follows_any (T : Target σ) : T.Follows fun _ _ => True where
  set _ _ _ _ := trivial
  read _ _ _ := trivial
  start _ _ := trivial
  close _ _ _ := trivial
  putBlocks _ _ _ _ := trivial
  putRawBatch _ _ _ _ _ := trivial
  bulk _ _ _ := trivial
  puts := ⟨fun _ => trivial, fun _ _ => trivial, fun _ => trivial⟩

/-- A property of the server's steps, the list of pointer updates and the trace, that survives an
update accepted at an await point. -/
structure Stable (step : σ → σ → Prop) (P : World σ → Prop) : Prop where
  server : ∀ {w}, P w → ∀ {s}, step w.server s → P { w with server := s }
  blocks : ∀ {w}, P w → ∀ b, P { w with blocks := b }
  others : ∀ {w}, P w → ∀ o, P { w with others := o }
  accept : ∀ {w}, P w → ∀ call, P (w.accept call)

/-- Two stable properties together are stable. -/
theorem Stable.and {step : σ → σ → Prop} {P Q : World σ → Prop} (hP : Stable step P)
    (hQ : Stable step Q) : Stable step fun w => P w ∧ Q w where
  server h _ hs := ⟨hP.server h.1 hs, hQ.server h.2 hs⟩
  blocks h b := ⟨hP.blocks h.1 b, hQ.blocks h.2 b⟩
  others h o := ⟨hP.others h.1 o, hQ.others h.2 o⟩
  accept h call := ⟨hP.accept h.1 call, hQ.accept h.2 call⟩

namespace Client

open Exec

variable {c : Client σ} {step : σ → σ → Prop} {P : World σ → Prop}

theorem act_stable (hP : Stable step P) {w : World σ} (h : P w) (a : Action) : P (c.act w a) := by
  cases a with
  | setPointerUpdate call => exact hP.accept h call
  | bufferPut owner writer isRaw signed blocks =>
      unfold Client.act
      dsimp only
      split
      · exact hP.blocks h _
      · exact h

theorem foldl_act_stable (hP : Stable step P) (batch : List Action) {w : World σ} (h : P w) :
    P (batch.foldl c.act w) := by
  induction batch generalizing w with
  | nil => exact h
  | cons a batch ih => exact ih (act_stable hP h a)

theorem interfere_stable (hP : Stable step P) {w : World σ} (h : P w) : P (c.interfere w) := by
  unfold interfere
  split
  · exact h
  · exact foldl_act_stable hP _ (hP.others h _)

/-- The other task leaves the server alone. -/
theorem interfere_server (w : World σ) : (c.interfere w).server = w.server := by
  have hsame : Stable (fun s s' => s' = s) fun v : World σ => v.server = w.server :=
    ⟨fun h _ hs => hs.trans h, fun h _ => h, fun h _ => h, fun h _ => h⟩
  exact interfere_stable hsame rfl

theorem keeps_await (hP : Stable step P) {α : Type} {call : Exec σ Fault α}
    (hcall : ∀ s, step s (call s).2) : Keeps P (c.await call) := by
  intro w h
  have hw : P { c.interfere w with server := (call (c.interfere w).server).2 } :=
    hP.server (interfere_stable hP h) (hcall _)
  unfold await
  dsimp only
  cases (call (c.interfere w).server).1 with
  | ok a => exact hw
  | error e => exact hw

theorem keeps_joinAll (hP : Stable step P) {α : Type} {calls : List (Exec σ Fault α)}
    (hcalls : ∀ call ∈ calls, ∀ s, step s (call s).2) : Keeps P (c.joinAll calls) := by
  refine Keeps.bind ?_ fun results =>
    Keeps.foldlM (fun _ r => (Keeps.lift r).bind fun _ => Keeps.pure _) results []
  refine (Triple.collect (R := fun _ _ => True) ?_).mono (fun _ h => h) (fun _ _ h => h.1)
    fun _ _ h => h
  intro call hcall
  exact (keeps_await hP (hcalls call hcall)).attempt.mono (fun _ h => h)
    (fun _ _ h => ⟨h, trivial⟩) fun _ _ h => h

/-- The merge of a refused update. -/
theorem follows_merge (hT : c.target.Follows step) (base ours theirs : Cid) (s : σ) :
    step s (Exec.ofExcept (fun s => ChampMerge.mergeWriterData c.target.store c.fuel c.ourOrder
      c.remoteOrder s base ours theirs) s).2 :=
  ofExcept_follows hT.puts.refl fun _ hmerge => ChampMerge.mergeWriterData_follows hT.puts hmerge

theorem follows_put (hT : c.target.Follows step) (b : CborObject) (s : σ) :
    step s (Exec.ofExcept (fun s => c.target.store.put s b) s).2 :=
  ofExcept_follows hT.puts.refl fun _ hput => hT.puts.put hput

variable (hT : c.target.Follows step) (hP : Stable step P)

include hT hP

theorem keeps_commitBlocks (owner : PublicKeyHash) (roots : List Cid) (tid : TransactionId) :
    Keeps P (c.commitBlocks owner roots tid) := by
  refine (Keeps.reads _).bind fun _ => (Keeps.reads _).bind fun batches => ?_
  refine Keeps.bind (keeps_joinAll hP ?_) fun _ => Keeps.update fun _ h => hP.blocks h _
  intro call hcall
  obtain ⟨batch, -, rfl⟩ := List.mem_map.1 hcall
  exact hT.putBlocks owner batch tid

theorem keeps_preWrite (owner : PublicKeyHash) (signer : SigningPrivateKeyAndPublicHash)
    (large : List Bytes) (tid : TransactionId) : Keeps P (c.preWrite owner signer large tid) := by
  refine Keeps.bind (keeps_joinAll hP ?_) fun _ => Keeps.pure _
  intro call hcall
  obtain ⟨batch, -, rfl⟩ := List.mem_map.1 hcall
  exact hT.putRawBatch owner signer batch tid

theorem keeps_mergeOne (owner : PublicKeyHash) (u : WriterUpdate) (remote : PointerUpdate) :
    Keeps P (c.mergeOne owner u remote) := by
  unfold mergeOne
  split
  · refine (keeps_await hP (follows_merge hT _ _ _)).bind fun mergedWd => ?_
    refine (keeps_await hP (follows_put hT mergedWd)).bind fun mergedRoot => ?_
    refine (keeps_await hP (hT.set owner _ _)).bind fun applied => ?_
    split
    · exact Keeps.pure _
    · exact Keeps.fail _
  · exact Keeps.fail _

theorem keeps_commitOneWithMerge (owner : PublicKeyHash) (u : WriterUpdate) :
    Keeps P (c.commitOneWithMerge owner u) := by
  refine (keeps_await hP (hT.set owner _ _)).attempt.bind fun applied => ?_
  split
  · exact Keeps.pure _
  · exact Keeps.fail _
  · exact Keeps.fail _
  · refine (keeps_await hP (hT.read owner _)).bind fun remote => ?_
    split
    · exact Keeps.pure _
    · exact keeps_mergeOne hT hP owner u remote

theorem keeps_splitTid (owner : PublicKeyHash) (tid : Option TransactionId) :
    Keeps P (c.splitTid owner tid) := by
  cases tid with
  | some t => exact Keeps.pure _
  | none => exact keeps_await hP (hT.start owner)

theorem keeps_sendBulkCommit (owner : PublicKeyHash) (commit : BulkCommit)
    (writes : List WriterUpdate) (roots : List (Option Cid)) :
    Keeps P (c.sendBulkCommit owner commit writes roots) := by
  have hcall : ∀ call, Keeps P (c.await (c.target.bulkCommit owner call) >>= fun _ =>
      (pure () : Exec (World σ) Fault Unit)) := fun call =>
    (keeps_await hP (hT.bulk owner call)).bind fun _ => Keeps.pure _
  unfold sendBulkCommit
  split
  · exact hcall commit
  · refine (keeps_splitTid hT hP owner _).bind fun tid => (Keeps.lift _).bind fun calls =>
      (Keeps.forEach hcall _).bind fun _ => (keeps_await hP (hT.bulk owner _)).bind fun _ => ?_
    split
    · exact (keeps_await hP (hT.close owner tid)).bind fun _ => Keeps.pure _
    · exact Keeps.pure _

theorem keeps_writerCommit (owner : PublicKeyHash) (tid : Option TransactionId)
    (u : WriterUpdate) (part : List (Cid × BufferedBlock)) :
    Keeps P (c.writerCommit owner tid u part) := by
  refine Keeps.bind ?_ fun _ => Keeps.pure _
  cases tid with
  | some t => exact keeps_preWrite hT hP _ _ _ _
  | none => exact Keeps.pure _

theorem keeps_bulkTid (owner : PublicKeyHash) (needsTid : Bool) :
    Keeps P (c.bulkTid owner needsTid) := by
  cases needsTid with
  | true => exact (keeps_await hP (hT.start owner)).bind fun _ => Keeps.pure _
  | false => exact Keeps.pure _

theorem keeps_bulkResult (owner : PublicKeyHash) (tid : Option TransactionId)
    (result : Except Fault Unit) : Keeps P (c.bulkResult owner tid result) := by
  unfold bulkResult
  split
  · exact Keeps.pure _
  · split
    · exact (keeps_await hP (hT.close owner _)).attempt.bind fun _ => Keeps.fail _
    · exact Keeps.fail _
  · exact Keeps.fail _

theorem keeps_bulkSend (owner : PublicKeyHash) (writes : List WriterUpdate) :
    Keeps P (c.bulkSend owner writes) := by
  unfold bulkSend
  refine (Keeps.reads _).bind fun parts => ?_
  refine (keeps_bulkTid hT hP owner _).bind fun tid => ?_
  refine Keeps.bind ?_ (keeps_bulkResult hT hP owner tid)
  refine Keeps.attempt (Keeps.bind ?_ fun writers => keeps_sendBulkCommit hT hP owner _ _ _)
  exact Keeps.collect (fun e : WriterUpdate × List (Cid × BufferedBlock) =>
    keeps_writerCommit hT hP owner tid e.1 e.2) _

theorem keeps_bulkSendAny (owner : PublicKeyHash) (writes : List WriterUpdate) :
    Keeps P (c.bulkSendAny owner writes) := by
  unfold bulkSendAny
  split
  · exact Keeps.pure _
  · exact keeps_bulkSend hT hP owner writes

end Client

end Peergos
