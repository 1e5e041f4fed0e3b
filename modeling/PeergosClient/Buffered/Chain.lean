import PeergosClient.Lib.KeyedLog
import PeergosClient.Buffered.Flush

/-!
# Buffered writes refine direct ones

The entries of the buffer, taken over the pointers the server has, form a chain: each entry starts
from the root its writer has at its turn and carries the next sequence.  Every write keeps this,
whether it is condensed into the last entry or added behind it, because `get_pointer_target`
answers with the latest buffered entry of the writer.

From the chain follows that a server that compare-and-swaps accepts the entries as they come, owner
by owner, and ends at the roots that the same writes made directly would have ended at.  What is
needed is that a writer belongs to one owner, for the owners are committed one after the other.
-/

namespace Peergos

open KeyedLog

/-- The entry is signed with its writer's key and continues the writer's pointer. -/
def WriterUpdate.Fits (current : PointerUpdate) (w : WriterUpdate) : Prop :=
  w.signer.publicKeyHash = w.writer ∧ current.Continues w.update

instance (current : PointerUpdate) (w : WriterUpdate) : Decidable (w.Fits current) :=
  inferInstanceAs (Decidable (_ ∧ _))

/-- The pointers after a list of entries has been applied. -/
abbrev pointersAfter (pointer : PublicKeyHash → PointerUpdate) (updates : List WriterUpdate) :
    PublicKeyHash → PointerUpdate :=
  replay WriterUpdate.writer WriterUpdate.update pointer updates

/-- The entries can be applied one after the other, starting from these pointers. -/
abbrev Applicable (pointer : PublicKeyHash → PointerUpdate) (updates : List WriterUpdate) : Prop :=
  Chained WriterUpdate.writer WriterUpdate.update
    (fun current w => WriterUpdate.Fits current w) pointer updates

theorem pointersAfter_append {pointer : PublicKeyHash → PointerUpdate} {l l' : List WriterUpdate} :
    pointersAfter pointer (l ++ l') = pointersAfter (pointersAfter pointer l) l' := replay_append

theorem applicable_append {pointer : PublicKeyHash → PointerUpdate} {l l' : List WriterUpdate} :
    Applicable pointer (l ++ l') ↔ Applicable pointer l ∧ Applicable (pointersAfter pointer l) l' :=
  chained_append

/-! ## One buffered write -/

section Write

variable {pointer : PublicKeyHash → PointerUpdate} {updates : List WriterUpdate}

/-- What a writer's pointer will be once the buffer is committed. -/
theorem pointersAfter_eq_latest (p : BufferedPointers) (writer : PublicKeyHash) :
    pointersAfter pointer p.updates writer = (p.latest writer).getD (pointer writer) :=
  replay_eq_getLast pointer p.updates writer

/-- A write that continues the writer's latest pointer keeps the chain. -/
theorem Applicable.addWrite (h : Applicable pointer updates) {c : SetCall}
    (hc : (pointersAfter pointer updates c.writer).Continues c.update) :
    Applicable pointer (addWrite updates c) := by
  rcases addWrite_cases updates c with ⟨l, w, rfl, hw, -, hadd⟩ | hadd
  · -- condensed: the entry keeps where it starts from, and nothing of its writer comes after it
    rw [hadd]
    rw [applicable_append] at h ⊢
    exact ⟨h.1, h.2.1, trivial⟩
  · rw [hadd, applicable_append]
    exact ⟨h, ⟨rfl, hc⟩, trivial⟩

/-- After a write its writer's pointer has the new root. -/
theorem pointersAfter_addWrite_self (c : SetCall) :
    (pointersAfter pointer (addWrite updates c) c.writer).updated = c.update.updated := by
  rcases addWrite_cases updates c with ⟨l, w, rfl, hw, -, hadd⟩ | hadd
  · have hk : (w.retarget c.update.updated).writer = c.writer := hw
    rw [hadd, pointersAfter, replay_concat, hk, Function.update_self]
    rfl
  · rw [hadd, pointersAfter, replay_concat]
    exact congrArg _ (Function.update_self c.writer _ _)

/-- A write leaves the other writers' pointers alone. -/
theorem pointersAfter_addWrite_of_ne (c : SetCall) {writer : PublicKeyHash}
    (h : writer ≠ c.writer) :
    pointersAfter pointer (addWrite updates c) writer = pointersAfter pointer updates writer := by
  rcases addWrite_cases updates c with ⟨l, w, rfl, hw, -, hadd⟩ | hadd
  · have hk : (w.retarget c.update.updated).writer = c.writer := hw
    rw [hadd, pointersAfter, replay_concat, hk, Function.update_of_ne h, pointersAfter,
      replay_concat, hw, Function.update_of_ne h]
  · rw [hadd, pointersAfter, replay_concat]
    exact Function.update_of_ne h _ _

/-- What holds of the owner and writer of every entry and of a call holds after the call. -/
theorem forall_addWrite {Q : PublicKeyHash → PublicKeyHash → Prop} {c : SetCall}
    (h : ∀ w ∈ updates, Q w.owner w.writer) (hc : Q c.owner c.writer) :
    ∀ w ∈ addWrite updates c, Q w.owner w.writer := by
  rcases addWrite_cases updates c with ⟨l, w, rfl, -, -, hadd⟩ | hadd
  · rw [hadd]
    intro v hv
    rcases List.mem_append.1 hv with hv | hv
    · exact h v (List.mem_append_left _ hv)
    · rw [List.mem_singleton.1 hv]
      exact h w (List.mem_append_right _ (List.mem_singleton.2 rfl))
  · rw [hadd]
    intro v hv
    rcases List.mem_append.1 hv with hv | hv
    · exact h v hv
    · rw [List.mem_singleton.1 hv]
      exact hc

end Write

/-! ## Committing to a server that compare-and-swaps -/

section Commit

variable {σ : Type}

/-- The server accepts each of the entries, in this order and with nothing between them. -/
def AllAccepted (P : MutablePointers σ) : List WriterUpdate → σ → σ → Prop
  | [], s, s' => s = s'
  | w :: ws, s, s' => ∃ s₁, P.setPointerUpdate w.owner w.signer w.update s = (.ok true, s₁) ∧
      AllAccepted P ws s₁ s'

theorem AllAccepted.append {P : MutablePointers σ} {ws ws' : List WriterUpdate} {s s' s'' : σ}
    (h : AllAccepted P ws s s') (h' : AllAccepted P ws' s' s'') :
    AllAccepted P (ws ++ ws') s s'' := by
  induction ws generalizing s with
  | nil =>
      cases h
      exact h'
  | cons w ws ih =>
      obtain ⟨s₁, hset, hrest⟩ := h
      exact ⟨s₁, hset, ih hrest⟩

/-- A chain is accepted, and leaves the pointers where it leads. -/
theorem Applicable.accepted {P : MutablePointers σ} {pointer : σ → PublicKeyHash → PointerUpdate}
    (cas : P.CompareAndSwap pointer) {ws : List WriterUpdate} {s : σ}
    (h : Applicable (pointer s) ws) :
    ∃ s', AllAccepted P ws s s' ∧ pointer s' = pointersAfter (pointer s) ws := by
  induction ws generalizing s with
  | nil => exact ⟨s, rfl, rfl⟩
  | cons w ws ih =>
      obtain ⟨⟨hsigner, hcontinues⟩, hrest⟩ := h
      rw [← hsigner] at hcontinues
      obtain ⟨s₁, hset, hs₁⟩ := cas.set_fits (o := w.owner) hcontinues
      rw [hsigner] at hs₁
      rw [← hs₁] at hrest
      obtain ⟨s', hacc, hs'⟩ := ih hrest
      refine ⟨s', ⟨s₁, hset, hacc⟩, ?_⟩
      rw [hs', hs₁]
      rfl

variable (c : Client σ)

theorem Client.interfere_alone {w : World σ} (h : w.others = []) : c.interfere w = w := by
  rw [Client.interfere, h]

theorem Client.await_alone {α : Type} {call : Exec σ Fault α} {w : World σ} {r : Except Fault α}
    {s : σ} (h : w.others = []) (hcall : call w.server = (r, s)) :
    c.await call w = (r, { w with server := s }) := by
  unfold Client.await
  rw [c.interfere_alone h]
  exact congrArg (fun x : Except Fault α × σ => (x.1, { w with server := x.2 })) hcall

/-- An accepted entry needs no merge. -/
theorem Client.commitOneWithMerge_accepted {owner : PublicKeyHash} {u : WriterUpdate} {w : World σ}
    {s : σ} (h : w.others = [])
    (hset : c.target.setPointerUpdate owner u.signer u.update w.server = (.ok true, s)) :
    c.commitOneWithMerge owner u w = (.ok (), { w with server := s }) := by
  have hattempt : Exec.attempt (c.await (c.target.setPointerUpdate owner u.signer u.update)) w =
      (.ok (.ok true), { w with server := s }) := by
    rw [Exec.attempt_run, c.await_alone h hset]
  exact Exec.bind_of_ok hattempt

theorem Client.forEach_commitOne_accepted {o : PublicKeyHash} {ws : List WriterUpdate}
    {w : World σ} {s : σ} (h : w.others = []) (hown : ∀ u ∈ ws, u.owner = o)
    (hacc : AllAccepted c.target.toMutablePointers ws w.server s) :
    Exec.forEach ws (c.commitOneWithMerge o) w = (.ok (), { w with server := s }) := by
  induction ws generalizing w with
  | nil =>
      cases hacc
      rfl
  | cons u ws ih =>
      obtain ⟨s₁, hset, hrest⟩ := hacc
      rw [hown u List.mem_cons_self] at hset
      rw [Exec.forEach, Exec.bind_of_ok (c.commitOneWithMerge_accepted h hset)]
      exact ih h (fun v hv => hown v (List.mem_cons_of_mem _ hv)) hrest

/-- A commit whose entries all went through takes them off the list. -/
theorem Client.commitPointers_of_loop {owner : PublicKeyHash} {w w' : World σ}
    (h : Exec.forEach (w.pointers.writesFor owner) (c.commitOneWithMerge owner) w = (.ok (), w')) :
    c.commitPointers owner w =
      (.ok (), { w'.record (.committed owner (w.pointers.writesFor owner)) with
        pointers := w'.pointers.retainOthers owner }.record (.retained owner)) :=
  (Exec.bind_of_ok (Exec.reads_run _ w)).trans (Exec.bind_of_ok h)

/-- The entries `commit_pointers` sends when it is called for these owners in turn. -/
def sends : List PublicKeyHash → List WriterUpdate → List WriterUpdate
  | [], _ => []
  | owner :: owners, updates =>
      (updates.filter fun w => w.owner = owner) ++
        sends owners (updates.filter fun w => w.owner ≠ owner)

/-- Committing owner by owner applies every entry of these owners without a merge. -/
theorem Client.commitPointers_forEach {pointer : σ → PublicKeyHash → PointerUpdate}
    (cas : c.target.CompareAndSwap pointer) {ownerOf : PublicKeyHash → PublicKeyHash}
    {owners : List PublicKeyHash} {w : World σ} (halone : w.others = [])
    (hchain : Applicable (pointer w.server) w.pointers.updates)
    (howned : ∀ u ∈ w.pointers.updates, u.owner = ownerOf u.writer)
    (hall : ∀ u ∈ w.pointers.updates, u.owner ∈ owners) :
    ∃ w', Exec.forEach owners c.commitPointers w = (.ok (), w') ∧ w'.pointers.updates = [] ∧
      AllAccepted c.target.toMutablePointers (sends owners w.pointers.updates) w.server w'.server ∧
      pointer w'.server = pointersAfter (pointer w.server) w.pointers.updates := by
  induction owners generalizing w with
  | nil =>
      have hnil : w.pointers.updates = [] := List.eq_nil_iff_forall_not_mem.2 fun u hu =>
        List.not_mem_nil (hall u hu)
      exact ⟨w, rfl, hnil, rfl, by rw [hnil]; rfl⟩
  | cons owner owners ih =>
      have hmine : w.pointers.writesFor owner =
          w.pointers.updates.filter fun u => ownerOf u.writer = owner :=
        List.filter_congr fun u hu => by rw [howned u hu]
      have hothers : (w.pointers.retainOthers owner).updates =
          w.pointers.updates.filter fun u => ¬ ownerOf u.writer = owner :=
        List.filter_congr fun u hu => by rw [howned u hu]
      obtain ⟨s, hacc, hs⟩ := Applicable.accepted cas
        (hmine ▸ hchain.filter fun writer => ownerOf writer = owner)
      have hloop := c.forEach_commitOne_accepted (o := owner) halone
        (fun u hu => of_decide_eq_true (List.mem_filter.1 hu).2) hacc
      -- the state after this owner's turn
      let w₁ : World σ := { { w with server := s }.record
        (.committed owner (w.pointers.writesFor owner)) with
        pointers := w.pointers.retainOthers owner }.record (.retained owner)
      have hturn : c.commitPointers owner w = (.ok (), w₁) := c.commitPointers_of_loop hloop
      rw [hmine] at hs
      have hchain₁ : Applicable (pointer w₁.server) w₁.pointers.updates := by
        show Applicable (pointer s) (w.pointers.retainOthers owner).updates
        rw [hs, hothers]
        exact hchain.filter_not fun writer => ownerOf writer = owner
      obtain ⟨w', hrun, hnil, hacc', hs'⟩ := ih (w := w₁) halone hchain₁
        (fun u hu => howned u (List.mem_filter.1 hu).1) (by
          intro u hu
          have hmem := List.mem_filter.1 hu
          have hne : u.owner ≠ owner := of_decide_eq_true hmem.2
          exact (List.mem_cons.1 (hall u hmem.1)).resolve_left hne)
      refine ⟨w', ?_, hnil, hacc.append hacc', ?_⟩
      · rw [Exec.forEach, Exec.bind_of_ok hturn]
        exact hrun
      · rw [hs']
        show pointersAfter (pointer s) (w.pointers.retainOthers owner).updates = _
        rw [hs, hothers]
        exact replay_filter_filter_not fun writer => ownerOf writer = owner

end Commit

/-! ## The refinement -/

section Refinement

variable {σ : Type}

/-- A write of a client: the new root of a writer. -/
structure Write where
  owner : PublicKeyHash
  signer : SigningPrivateKeyAndPublicHash
  root : Option Cid
  deriving DecidableEq, Repr

/-- Make the writes one after the other, each from the pointer read just before it. -/
def writeAll (P : MutablePointers σ) (writes : List Write) : Exec σ Fault Unit :=
  Exec.forEach writes fun w => do
    let _ ← P.advance w.owner w.signer w.root
    pure ()

/-- A client that has buffered nothing yet, alone with its server. -/
def World.fresh (s : σ) : World σ := ⟨.new, ⟨[], []⟩, s, [], []⟩

variable {pointer : σ → PublicKeyHash → PointerUpdate}

/-- A direct write moves its writer's pointer to the new root. -/
theorem MutablePointers.CompareAndSwap.advance {P : MutablePointers σ}
    (cas : P.CompareAndSwap pointer) (owner : PublicKeyHash)
    (signer : SigningPrivateKeyAndPublicHash) (root : Option Cid) (s : σ) :
    ∃ u s', P.advance owner signer root s = (.ok true, s') ∧ u.updated = root ∧
      pointer s' = Function.update (pointer s) signer.publicKeyHash u := by
  obtain ⟨s₁, hget, hs₁⟩ := cas.get_pointer s owner signer.publicKeyHash
  let u : PointerUpdate := ⟨(pointer s signer.publicKeyHash).updated, root,
    PointerUpdate.increment (pointer s signer.publicKeyHash).sequence⟩
  have hcontinues : (pointer s₁ signer.publicKeyHash).Continues u := by
    rw [hs₁]
    exact ⟨rfl, rfl⟩
  obtain ⟨s', hset, hs'⟩ := cas.set_fits (o := owner) hcontinues
  refine ⟨u, s', (Exec.bind_of_ok hget).trans hset, rfl, ?_⟩
  rw [hs', hs₁]

/-- The buffer `w` stands for the pointers of the server `d` that had every write directly. -/
structure Stands (pointer : σ → PublicKeyHash → PointerUpdate)
    (ownerOf : PublicKeyHash → PublicKeyHash) (owners : List PublicKeyHash) (w : World σ) (d : σ) :
    Prop where
  alone : w.others = []
  chain : Applicable (pointer w.server) w.pointers.updates
  owned : ∀ u ∈ w.pointers.updates, u.owner = ownerOf u.writer
  listed : ∀ u ∈ w.pointers.updates, u.owner ∈ owners
  targets : ∀ writer, (pointersAfter (pointer w.server) w.pointers.updates writer).updated =
    (pointer d writer).updated

variable {c : Client σ} {ownerOf : PublicKeyHash → PublicKeyHash} {owners : List PublicKeyHash}
  {w : World σ} {d : σ}

theorem stands_fresh (s : σ) : Stands pointer ownerOf owners (World.fresh s) s where
  alone := rfl
  chain := trivial
  owned := fun _ hu => absurd hu List.not_mem_nil
  listed := fun _ hu => absurd hu List.not_mem_nil
  targets := fun _ => rfl

/-- Through the buffer a client reads what its writer's pointer will be. -/
theorem Client.buffered_getPointerTarget (cas : c.target.CompareAndSwap pointer)
    (halone : w.others = []) (owner writer : PublicKeyHash) :
    ∃ s, (c.buffered none).getPointerTarget owner writer w =
        (.ok (pointersAfter (pointer w.server) w.pointers.updates writer), { w with server := s }) ∧
      pointer s = pointer w.server := by
  rw [pointersAfter_eq_latest]
  cases hl : w.pointers.latest writer with
  | some u =>
      refine ⟨w.server, ?_, rfl⟩
      refine (Exec.bind_of_ok (Exec.reads_run _ w)).trans ?_
      rw [hl]
      rfl
  | none =>
      obtain ⟨s, hget, hs⟩ := cas.get_pointer w.server owner writer
      refine ⟨s, ?_, hs⟩
      refine (Exec.bind_of_ok (Exec.reads_run _ w)).trans ?_
      rw [hl]
      exact c.await_alone halone hget

/-- One write, made to the buffer and made directly. -/
theorem Stands.advance (cas : c.target.CompareAndSwap pointer)
    (h : Stands pointer ownerOf owners w d) {owner : PublicKeyHash}
    {signer : SigningPrivateKeyAndPublicHash} (howner : owner = ownerOf signer.publicKeyHash)
    (hlisted : owner ∈ owners) (root : Option Cid) :
    ∃ w' d', (c.buffered none).advance owner signer root w = (.ok true, w') ∧
      c.target.advance owner signer root d = (.ok true, d') ∧
      Stands pointer ownerOf owners w' d' := by
  obtain ⟨u, d', hdirect, hu, hd'⟩ := cas.advance owner signer root d
  obtain ⟨s, hget, hs⟩ := c.buffered_getPointerTarget cas h.alone owner signer.publicKeyHash
  let current := pointersAfter (pointer w.server) w.pointers.updates signer.publicKeyHash
  let call : SetCall :=
    ⟨owner, signer, ⟨current.updated, root, PointerUpdate.increment current.sequence⟩⟩
  refine ⟨World.accept call { w with server := s }, d', (Exec.bind_of_ok hget).trans rfl, hdirect,
    h.alone, ?_, forall_addWrite (Q := fun o k => o = ownerOf k) h.owned howner,
    forall_addWrite (Q := fun o _ => o ∈ owners) h.listed hlisted, ?_⟩
  · show Applicable (pointer s) (addWrite w.pointers.updates call)
    rw [hs]
    exact h.chain.addWrite ⟨rfl, rfl⟩
  · intro writer
    show (pointersAfter (pointer s) (addWrite w.pointers.updates call) writer).updated = _
    rw [hs, hd']
    by_cases hw : writer = signer.publicKeyHash
    · subst hw
      rw [Function.update_self, hu]
      exact pointersAfter_addWrite_self call
    · rw [Function.update_of_ne hw, ← h.targets writer, pointersAfter_addWrite_of_ne call hw]

/-- Any number of writes, made to the buffer and made directly. -/
theorem Stands.writeAll (cas : c.target.CompareAndSwap pointer) {writes : List Write}
    (h : Stands pointer ownerOf owners w d)
    (howner : ∀ x ∈ writes, x.owner = ownerOf x.signer.publicKeyHash)
    (hlisted : ∀ x ∈ writes, x.owner ∈ owners) :
    ∃ w' d', Peergos.writeAll (c.buffered none) writes w = (.ok (), w') ∧
      Peergos.writeAll c.target.toMutablePointers writes d = (.ok (), d') ∧
      Stands pointer ownerOf owners w' d' := by
  induction writes generalizing w d with
  | nil => exact ⟨w, d, rfl, rfl, h⟩
  | cons x writes ih =>
      obtain ⟨w₁, d₁, hw, hd, h₁⟩ := h.advance cas (howner x List.mem_cons_self)
        (hlisted x List.mem_cons_self) x.root
      obtain ⟨w', d', hw', hd', h'⟩ := ih h₁ (fun y hy => howner y (List.mem_cons_of_mem _ hy))
        fun y hy => hlisted y (List.mem_cons_of_mem _ hy)
      have hstep : ((c.buffered none).advance x.owner x.signer x.root >>= fun _ => pure ()) w =
          (.ok (), w₁) := Exec.bind_of_ok hw
      have hdirect : (c.target.advance x.owner x.signer x.root >>= fun _ => pure ()) d =
          (.ok (), d₁) := Exec.bind_of_ok hd
      exact ⟨w', d', (Exec.bind_of_ok hstep).trans hw', (Exec.bind_of_ok hdirect).trans hd', h'⟩

end Refinement

end Peergos
