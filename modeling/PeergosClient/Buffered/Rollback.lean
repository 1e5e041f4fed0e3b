import PeergosClient.Buffered.Stable
import PeergosClient.Buffered.Server
import PeergosClient.Lib.Sha256

/-!
# Rolling back to a checkpoint

`rollback` trusts the generation: as long as it is the one of the checkpoint, the checkpointed list
must still be the front of the list, at most with the target of its last entry moved on.  Writes
keep that.  `drop_owner` and `clear` bump the generation.  `commit_pointers` also takes entries off
the list, and does not; a flush that succeeds ends in `clear`, but one that commits an owner pointer
by pointer and then fails leaves a shorter list under the old generation.

So what `rollback` returns is right when the generation has changed since the checkpoint, or
`commit_pointers` has taken nothing off the list.
-/

namespace Peergos

open Exec

variable {σ : Type}

/-! ## The list since a checkpoint -/

/-- The list is the checkpointed one with entries added behind it, the target of the checkpointed
last entry possibly moved on. -/
def GrownFrom (start l : List WriterUpdate) : Prop :=
  ∃ extra, l = start ++ extra ∨
    ∃ init last target, start = init ++ [last] ∧ l = init ++ last.retarget target :: extra

theorem GrownFrom.refl (l : List WriterUpdate) : GrownFrom l l :=
  ⟨[], Or.inl (List.append_nil l).symm⟩

/-- A list that is empty or ends in an entry, split after a prefix. -/
theorem append_eq_concat_cases {α : Type} {a b l : List α} {x : α} (h : a ++ b = l ++ [x]) :
    (b = [] ∧ a = l ++ [x]) ∨ ∃ b', b = b' ++ [x] ∧ l = a ++ b' := by
  rcases List.eq_nil_or_concat b with rfl | ⟨b', y, rfl⟩
  · exact Or.inl ⟨rfl, by simpa using h⟩
  · rw [List.concat_eq_append, ← List.append_assoc] at h
    obtain ⟨hl, hx⟩ := List.append_inj' h rfl
    cases hx
    exact Or.inr ⟨b', List.concat_eq_append .., hl.symm⟩

/-- A write keeps the checkpointed list in front. -/
theorem GrownFrom.addWrite {start l : List WriterUpdate} (h : GrownFrom start l) (c : SetCall) :
    GrownFrom start (addWrite l c) := by
  rcases addWrite_cases l c with ⟨l', w, rfl, -, -, hadd⟩ | hadd
  · rw [hadd]
    obtain ⟨extra, h | ⟨init, last, target, rfl, h⟩⟩ := h
    · rcases append_eq_concat_cases h.symm with ⟨rfl, rfl⟩ | ⟨extra', rfl, rfl⟩
      · exact ⟨[], Or.inr ⟨l', w, _, rfl, rfl⟩⟩
      · exact ⟨extra' ++ [w.retarget c.update.updated], Or.inl (List.append_assoc ..)⟩
    · have hsplit : (init ++ [last.retarget target]) ++ extra = l' ++ [w] := by
        rw [h, List.append_assoc, List.singleton_append]
      rcases append_eq_concat_cases hsplit with ⟨rfl, h⟩ | ⟨extra', rfl, rfl⟩
      · obtain ⟨hinit, hlast⟩ := List.append_inj' h rfl
        cases hlast
        exact ⟨[], Or.inr ⟨init, last, _, rfl, by rw [hinit]; rfl⟩⟩
      · refine ⟨extra' ++ [w.retarget c.update.updated], Or.inr ⟨init, last, target, rfl, ?_⟩⟩
        simp
  · rw [hadd]
    obtain ⟨extra, rfl | ⟨init, last, target, rfl, rfl⟩⟩ := h
    · exact ⟨extra ++ [c.entry], Or.inl (List.append_assoc ..)⟩
    · refine ⟨extra ++ [c.entry], Or.inr ⟨init, last, target, rfl, ?_⟩⟩
      simp

theorem WriterUpdate.retarget_retarget (w : WriterUpdate) (target : Option Cid) :
    (w.retarget target).retarget w.update.updated = w := rfl

/-- A rollback within one generation, to a list with a last entry. -/
theorem rollback_concat {p₀ p : BufferedPointers} {init : List WriterUpdate} {last : WriterUpdate}
    (hgen : p.generation = p₀.generation) (hstart : p₀.updates = init ++ [last]) :
    (p.rollback p₀.checkpoint).updates =
      modifyLast (WriterUpdate.retarget last.update.updated) (p.updates.take p₀.updates.length) := by
  have hsame : ¬ p.generation ≠ p₀.checkpoint.generation := not_not.2 hgen
  have hlast : p₀.checkpoint.lastTarget = some last.update.updated := by
    rw [BufferedPointers.checkpoint, hstart, List.getLast?_append_cons, List.getLast?_singleton]
    rfl
  unfold BufferedPointers.rollback
  rw [if_neg hsame, hlast]
  rfl

theorem rollback_nil {p₀ p : BufferedPointers} (hstart : p₀.updates = []) :
    (p.rollback p₀.checkpoint).updates = [] := by
  unfold BufferedPointers.rollback
  split
  · rfl
  · simp [BufferedPointers.checkpoint, hstart]

/-- Within one generation a rollback restores the list. -/
theorem GrownFrom.rollback {p₀ p : BufferedPointers} (h : GrownFrom p₀.updates p.updates)
    (hgen : p.generation = p₀.generation) :
    (p.rollback p₀.checkpoint).updates = p₀.updates := by
  obtain ⟨extra, h | ⟨init, last, target, hstart, h⟩⟩ := h
  · rcases List.eq_nil_or_concat p₀.updates with hnil | ⟨init, last, hconcat⟩
    · rw [rollback_nil hnil, hnil]
    · rw [List.concat_eq_append] at hconcat
      rw [rollback_concat hgen hconcat, h, List.take_left, hconcat, modifyLast_append]
      rfl
  · have htake : p.updates.take p₀.updates.length = init ++ [last.retarget target] := by
      have hlen : p₀.updates.length = (init ++ [last.retarget target]).length := by
        rw [hstart, List.length_append, List.length_append]
        rfl
      rw [h, hlen, List.append_cons init (last.retarget target) extra, List.take_left]
    rw [rollback_concat hgen hstart, htake, modifyLast_append, WriterUpdate.retarget_retarget,
      hstart]

/-! ## Runs of the buffer -/

/-- What is done to the buffer: a write, after which it flushes itself if it is full, or a flush. -/
inductive BufferStep where
  | set (auto : Option Client.AutoCommit) (call : SetCall)
  | flush (owner : PublicKeyHash)

variable (c : Client σ)

/-- One step. -/
def Client.bufferStep : BufferStep → Exec (World σ) Fault Unit
  | .set auto call => do
      let _ ← (c.buffered auto).setPointerUpdate call.owner call.signer call.update
      pure ()
  | .flush owner => c.flush owner

/-- The client after some steps, each of which may have failed. -/
def Client.runSteps (steps : List BufferStep) (w : World σ) : World σ :=
  steps.foldl (fun w st => (c.bufferStep st w).2) w

/-- What has happened since an earlier moment. -/
def since (w₀ w : World σ) : List (Event σ) := w.trace.drop w₀.trace.length

def Event.isCommitted : Event σ → Bool
  | .committed _ _ => true
  | _ => false

def Event.isRetained : Event σ → Bool
  | .retained _ => true
  | _ => false

/-- Something was committed since. -/
def CommittedSince (w₀ w : World σ) : Prop := ∃ e ∈ since w₀ w, e.isCommitted = true

/-- `commit_pointers` has taken something off the list since. -/
def RetainedSince (w₀ w : World σ) : Prop := ∃ e ∈ since w₀ w, e.isRetained = true

instance (w₀ w : World σ) : Decidable (RetainedSince w₀ w) :=
  inferInstanceAs (Decidable (∃ e ∈ since w₀ w, _))

/-- What holds of the buffer at any time after the checkpoint. -/
structure AfterCheckpoint (w₀ w : World σ) : Prop where
  trace : w₀.trace.length ≤ w.trace.length
  generation : w₀.pointers.generation ≤ w.pointers.generation
  list : w.pointers.generation = w₀.pointers.generation → ¬ RetainedSince w₀ w →
    GrownFrom w₀.pointers.updates w.pointers.updates
  quiet : ¬ CommittedSince w₀ w →
    w.pointers.generation = w₀.pointers.generation ∧ ¬ RetainedSince w₀ w

variable {c} {w₀ w : World σ}

theorem since_record (h : w₀.trace.length ≤ w.trace.length) (e : Event σ) :
    since w₀ (w.record e) = since w₀ w ++ [e] := List.drop_append_of_le_length h

theorem AfterCheckpoint.refl (w : World σ) : AfterCheckpoint w w where
  trace := le_refl _
  generation := le_refl _
  list _ _ := GrownFrom.refl _
  quiet _ := by simp [RetainedSince, since]

theorem mem_since_record (h : w₀.trace.length ≤ w.trace.length) {e e' : Event σ} :
    e' ∈ since w₀ (w.record e) ↔ e' ∈ since w₀ w ∨ e' = e := by
  rw [since_record h, List.mem_append, List.mem_singleton]

theorem CommittedSince.record (h : CommittedSince w₀ w) (ht : w₀.trace.length ≤ w.trace.length)
    (e : Event σ) : CommittedSince w₀ (w.record e) := by
  obtain ⟨e', hmem, he'⟩ := h
  exact ⟨e', (mem_since_record ht).2 (Or.inl hmem), he'⟩

theorem committedSince_record (ht : w₀.trace.length ≤ w.trace.length) (owner : PublicKeyHash)
    (writes : List WriterUpdate) : CommittedSince w₀ (w.record (.committed owner writes)) :=
  ⟨_, (mem_since_record ht).2 (Or.inr rfl), rfl⟩

/-- An event that is not a removal changes nothing. -/
theorem AfterCheckpoint.record (h : AfterCheckpoint w₀ w) {e : Event σ} (he : e.isRetained = false) :
    AfterCheckpoint w₀ (w.record e) := by
  have hretained : RetainedSince w₀ (w.record e) ↔ RetainedSince w₀ w := by
    constructor
    · rintro ⟨e', hmem, he'⟩
      rcases (mem_since_record h.trace).1 hmem with hmem | rfl
      · exact ⟨e', hmem, he'⟩
      · rw [he] at he'
        cases he'
    · rintro ⟨e', hmem, he'⟩
      exact ⟨e', (mem_since_record h.trace).2 (Or.inl hmem), he'⟩
  refine ⟨h.trace.trans (by simp [World.record]), h.generation, fun hgen hr => ?_, fun hc => ?_⟩
  · exact h.list hgen fun hr' => hr (hretained.2 hr')
  · obtain ⟨hgen, hr⟩ := h.quiet fun hc' => hc (hc'.record h.trace e)
    exact ⟨hgen, fun hr' => hr (hretained.1 hr')⟩

/-- Writes and what does not touch the list keep the invariant. -/
theorem afterCheckpoint_stable (w₀ : World σ) :
    Stable (fun _ _ => True) (AfterCheckpoint w₀) where
  server h _ _ := ⟨h.trace, h.generation, h.list, h.quiet⟩
  blocks h _ := ⟨h.trace, h.generation, h.list, h.quiet⟩
  others h _ := ⟨h.trace, h.generation, h.list, h.quiet⟩
  accept {w} h call := by
    have hadd : AfterCheckpoint w₀ { w with pointers := w.pointers.add call } :=
      ⟨h.trace, h.generation, fun hgen hr => (h.list hgen hr).addWrite call, h.quiet⟩
    exact hadd.record rfl

theorem committedSince_stable (w₀ : World σ) :
    Stable (fun _ _ => True) fun w => AfterCheckpoint w₀ w ∧ CommittedSince w₀ w where
  server h _ hs := ⟨(afterCheckpoint_stable w₀).server h.1 hs, h.2⟩
  blocks h b := ⟨(afterCheckpoint_stable w₀).blocks h.1 b, h.2⟩
  others h o := ⟨(afterCheckpoint_stable w₀).others h.1 o, h.2⟩
  accept h call := ⟨(afterCheckpoint_stable w₀).accept h.1 call, h.2.record h.1.trace _⟩

/-- Once something is committed, entries may be taken off the list, in the same generation if that
is recorded and with a new one otherwise. -/
theorem AfterCheckpoint.retain (h : AfterCheckpoint w₀ w) (hc : CommittedSince w₀ w)
    (owner : PublicKeyHash) : AfterCheckpoint w₀
      ({ w with pointers := w.pointers.retainOthers owner }.record (.retained owner)) where
  trace := h.trace.trans (by simp [World.record])
  generation := h.generation
  list _ hr := by
    exact absurd ⟨.retained owner, (mem_since_record h.trace).2 (Or.inr rfl), rfl⟩ hr
  quiet hq := absurd (hc.record (w := { w with pointers := _ }) h.trace _) hq

theorem AfterCheckpoint.bump (h : AfterCheckpoint w₀ w) (hc : CommittedSince w₀ w)
    (updates : List WriterUpdate) (b : BufferedStorage) : AfterCheckpoint w₀
      { w with pointers := ⟨updates, w.pointers.generation + 1⟩, blocks := b } where
  trace := h.trace
  generation := h.generation.trans (Nat.le_succ _)
  list hgen := by
    have hlt : w₀.pointers.generation < w.pointers.generation + 1 :=
      Nat.lt_succ_of_le h.generation
    exact absurd hgen hlt.ne'
  quiet hq := absurd hc hq

/-! ## A flush -/

/-- A commit pointer by pointer: something is committed, or the list is as it was. -/
theorem Client.commitOwner_afterCheckpoint (owner : PublicKeyHash) :
    Triple (AfterCheckpoint w₀) (c.commitOwner owner)
      (fun _ w => AfterCheckpoint w₀ w ∧ CommittedSince w₀ w) fun _ => AfterCheckpoint w₀ := by
  have hany := c.target.follows_any
  have hstable := afterCheckpoint_stable w₀
  refine Triple.bind (Keeps.update fun w h => h.record rfl) fun _ => ?_
  refine Triple.bind (Keeps.reads _) fun roots => ?_
  refine Triple.bind (Client.keeps_await hstable fun _ => trivial) fun tid => ?_
  refine Triple.bind (Client.keeps_commitBlocks hany hstable owner roots tid) fun _ => ?_
  have hcommit : Triple (AfterCheckpoint w₀) (c.commitPointers owner)
      (fun _ w => AfterCheckpoint w₀ w ∧ CommittedSince w₀ w) fun _ => AfterCheckpoint w₀ := by
    refine Triple.bind (Keeps.reads _) fun writes => ?_
    refine Triple.bind (Keeps.forEach (Client.keeps_commitOneWithMerge hany hstable owner) writes)
      fun _ => ?_
    refine Triple.bind (m := fun _ w => AfterCheckpoint w₀ w ∧ CommittedSince w₀ w)
      (Triple.update fun w h => ⟨h.record rfl, committedSince_record h.trace owner writes⟩)
      fun _ => ?_
    refine Triple.update fun w h => ⟨h.1.retain h.2 owner, ?_⟩
    exact h.2.record (w := { w with pointers := w.pointers.retainOthers owner }) h.1.trace _
  refine Triple.bind hcommit fun _ => ?_
  have hclose := committedSince_stable w₀
  refine Triple.bind ((Client.keeps_await hclose fun _ => trivial).mono (fun _ h => h)
    (fun _ _ h => h) fun _ _ h => h.1) fun _ => ?_
  exact Triple.pure fun _ h => h

/-- The bulk path: if it took care of the owner, something is committed. -/
theorem Client.tryBulk_afterCheckpoint (owner : PublicKeyHash) :
    Triple (AfterCheckpoint w₀) (c.tryBulk owner)
      (fun done w => AfterCheckpoint w₀ w ∧ (done = true → CommittedSince w₀ w))
      fun _ => AfterCheckpoint w₀ := by
  have hany := c.target.follows_any
  have hstable := afterCheckpoint_stable w₀
  have hbulk : Triple (AfterCheckpoint w₀) (c.bulkCommitOwner owner)
      (fun _ w => AfterCheckpoint w₀ w ∧ CommittedSince w₀ w) fun _ => AfterCheckpoint w₀ := by
    refine Triple.bind (Keeps.update fun w h => h.record rfl) fun _ => ?_
    refine Triple.bind (Keeps.reads _) fun writes => ?_
    refine Triple.bind (Client.keeps_bulkSendAny hany hstable owner writes) fun _ => ?_
    exact Triple.update fun w h => ⟨h.record rfl, committedSince_record h.trace owner writes⟩
  refine Triple.bind (Keeps.reads _) fun unsupported => ?_
  split
  · exact Triple.pure fun w h => ⟨h, by rintro ⟨⟩⟩
  · refine Triple.bind (m := fun result w => AfterCheckpoint w₀ w ∧
      (result = .ok () → CommittedSince w₀ w)) (Triple.attempt (hbulk.mono (fun _ h => h)
        (fun _ _ h => ⟨h.1, fun _ => h.2⟩) fun _ _ h => ⟨h, by rintro ⟨⟩⟩)) fun result => ?_
    unfold Client.afterBulk
    split
    · refine Triple.bind (m := fun _ w => AfterCheckpoint w₀ w ∧ CommittedSince w₀ w)
        (Triple.update fun w h => ?_) fun _ => Triple.pure fun w h => ⟨h.1, fun _ => h.2⟩
      have hbump := h.1.bump (h.2 rfl) (w.pointers.retainOthers owner).updates w.blocks
      exact ⟨hbump.record rfl,
        CommittedSince.record (w := { w with pointers := _ }) (h.2 rfl) h.1.trace _⟩
    · split
      · exact Triple.bind (m := fun _ => AfterCheckpoint w₀)
          (Triple.update fun w h => hstable.blocks h.1 _) fun _ =>
            Triple.pure fun w h => ⟨h, by rintro ⟨⟩⟩
      · split
        · exact Triple.pure fun w h => ⟨h.1, by rintro ⟨⟩⟩
        · exact Triple.fail fun w h => h.1
    · exact Triple.fail fun w h => h.1

theorem Client.flushOwner_afterCheckpoint (owner : PublicKeyHash) :
    Triple (AfterCheckpoint w₀) (c.flushOwner owner)
      (fun _ w => AfterCheckpoint w₀ w ∧ CommittedSince w₀ w) fun _ => AfterCheckpoint w₀ := by
  refine Triple.bind (c.tryBulk_afterCheckpoint owner) fun done => ?_
  split
  · rename_i hdone
    exact Triple.pure fun w h => ⟨h.1, h.2 hdone⟩
  · exact (c.commitOwner_afterCheckpoint owner).mono (fun w h => h.1) (fun _ _ h => h)
      fun _ _ h => h

/-- A flush keeps the invariant; it ends in a new generation, and only after a commit. -/
theorem Client.flush_afterCheckpoint (owner : PublicKeyHash) :
    Keeps (AfterCheckpoint w₀) (c.flush owner) := by
  refine Triple.bind (Keeps.reads _) fun found => ?_
  have howners : ∃ o os, (if found = [] then [owner] else found) = o :: os := by
    cases found with
    | nil => exact ⟨owner, [], rfl⟩
    | cons o os => exact ⟨o, os, rfl⟩
  obtain ⟨o, os, howners⟩ := howners
  have hloop : Triple (AfterCheckpoint w₀)
      (Exec.forEach (if found = [] then [owner] else found) c.flushOwner)
      (fun _ w => AfterCheckpoint w₀ w ∧ CommittedSince w₀ w) fun _ => AfterCheckpoint w₀ := by
    rw [howners]
    refine Triple.bind (c.flushOwner_afterCheckpoint o) fun _ => ?_
    refine Triple.forEach (fun _ w => AfterCheckpoint w₀ w ∧ CommittedSince w₀ w) ?_ os
    intro o' _
    exact (c.flushOwner_afterCheckpoint o').mono (fun w h => h.1) (fun _ _ h => h) fun _ _ h => h
  exact Triple.bind hloop fun _ => Triple.update fun w h => h.1.bump h.2 [] _

/-! ## The rollback -/

theorem Client.bufferStep_afterCheckpoint (st : BufferStep) :
    Keeps (AfterCheckpoint w₀) (c.bufferStep st) := by
  cases st with
  | flush owner => exact c.flush_afterCheckpoint owner
  | set auto call =>
      refine Keeps.bind (Keeps.bind (Keeps.update fun w h =>
        (afterCheckpoint_stable w₀).accept h call) fun _ => Keeps.bind ?_ fun _ => Keeps.pure _)
        fun _ => Keeps.pure _
      unfold Client.maybeAutoCommit
      split
      · exact Keeps.pure _
      · refine (Keeps.reads _).bind fun size => (Keeps.reads _).bind fun roots => ?_
        split
        · exact Keeps.pure _
        · split
          · exact Keeps.pure _
          · exact c.flush_afterCheckpoint _

theorem Client.runSteps_afterCheckpoint (steps : List BufferStep) (h : AfterCheckpoint w₀ w) :
    AfterCheckpoint w₀ (c.runSteps steps w) := by
  induction steps generalizing w with
  | nil => exact h
  | cons st steps ih => exact ih ((c.bufferStep_afterCheckpoint st).snd h)

/-- A rollback leaves entries of the checkpoint only: each has the owner, the writer and both ends
of one that was there. -/
def OnlyCheckpointed (start restored : List WriterUpdate) : Prop :=
  ∀ u ∈ restored, ∃ v ∈ start, u.owner = v.owner ∧ u.writer = v.writer ∧
    u.update.original = v.update.original ∧ u.update.updated = v.update.updated

instance (start restored : List WriterUpdate) : Decidable (OnlyCheckpointed start restored) :=
  inferInstanceAs (Decidable (∀ u ∈ restored, ∃ v ∈ start, _))

/-- After any writes and flushes, a rollback leaves entries of the checkpoint only, and the list as
it was if nothing was committed; provided the generation has changed since the checkpoint, or
`commit_pointers` has taken nothing off the list. -/
theorem rollback_restores (c : Client σ) (w : World σ) (steps : List BufferStep)
    (h : (c.runSteps steps w).pointers.generation ≠ w.pointers.generation ∨
      ¬ RetainedSince w (c.runSteps steps w)) :
    OnlyCheckpointed w.pointers.updates
        ((c.runSteps steps w).pointers.rollback w.pointers.checkpoint).updates ∧
      (¬ CommittedSince w (c.runSteps steps w) →
        ((c.runSteps steps w).pointers.rollback w.pointers.checkpoint).updates =
          w.pointers.updates) := by
  have hafter := c.runSteps_afterCheckpoint steps (AfterCheckpoint.refl w)
  constructor
  · by_cases hgen : (c.runSteps steps w).pointers.generation = w.pointers.generation
    · rw [(hafter.list hgen (h.resolve_left (not_not.2 hgen))).rollback hgen]
      exact fun u hu => ⟨u, hu, rfl, rfl, rfl, rfl⟩
    · have hne : (c.runSteps steps w).pointers.generation ≠ w.pointers.checkpoint.generation :=
        hgen
      rw [BufferedPointers.rollback, if_pos hne]
      exact fun u hu => absurd hu List.not_mem_nil
  · intro hquiet
    obtain ⟨hgen, hretained⟩ := hafter.quiet hquiet
    exact (hafter.list hgen hretained).rollback hgen

/-- A client of the server in memory that cannot open a transaction for one owner. -/
def clientWithout (down : PublicKeyHash) : Client RamServer :=
  let c := RamServer.client Sha256.sha256 false
  { c with target := { c.target with
    startTransaction := fun owner =>
      if owner = down then Exec.fail (.err (.http "status 503")) else pure "0" } }

/-- One owner's entry buffered, and a checkpoint taken there. -/
def checkpointed : World RamServer :=
  (World.fresh .empty).accept
    ⟨byteKey 1, byteSigner 3, ⟨none, some (byteCid 10), some 1⟩⟩

/-- Then a write for another owner, and a flush. -/
def writeAndFlush : List BufferStep :=
  [.set none ⟨byteKey 2, byteSigner 4, ⟨none, some (byteCid 20), some 1⟩⟩, .flush (byteKey 1)]

/-- The flush fails before it has committed anything. -/
theorem rollback_restores_failed_flush :
    (¬ RetainedSince checkpointed ((clientWithout (byteKey 1)).runSteps writeAndFlush
        checkpointed)) ∧
      OnlyCheckpointed checkpointed.pointers.updates
        (((clientWithout (byteKey 1)).runSteps writeAndFlush checkpointed).pointers.rollback
          checkpointed.pointers.checkpoint).updates :=
  ⟨by decide +kernel, (rollback_restores (clientWithout (byteKey 1)) checkpointed writeAndFlush
    (Or.inr (by decide +kernel))).1⟩

/-- The flush commits the first owner and fails at the second.  The rollback keeps the second
owner's entry, and points its writer at the first one's root. -/
theorem rollback_after_partial_flush :
    ¬ OnlyCheckpointed checkpointed.pointers.updates
      (((clientWithout (byteKey 2)).runSteps writeAndFlush checkpointed).pointers.rollback
        checkpointed.pointers.checkpoint).updates := by
  decide +kernel

end Peergos
