import PeergosClient.Buffered.Settling
import PeergosClient.Champ.WriterDataMerge

/-!
# Retrying a failed pointer commit

`commit_pointers` takes an owner's entries off the list only once all of them are committed.  When
a call of the server fails on the way, the entries before it are sent again by the next attempt.
The server has moved past them and refuses; `commit_one_with_merge` then reads the pointer back and
is content if it is at the entry's own target.

That recognises the last entry of each writer among those the server has applied, not an earlier
one.  An earlier one is merged with the client's own later root, as if another client had made it,
and the two share the changed files.  So an attempt that ends at the failed entry can be tried again
when the entries applied before it have one target for each writer.

A failed compare-and-swap counts as refused, so the attempt need not end there.  If the update had
landed, the read finds it.  If it was lost, the root it starts from is merged with its own, and with
no other client writing that gives the same root again, or nothing.
-/

namespace Peergos

open KeyedLog

/-! ## A server that fails once -/

/-- A server behind a connection that fails once: how many compare-and-swaps get through before the
one that fails, if it has not failed yet, and whether the next read fails as well. -/
structure Flaky (σ : Type) where
  server : σ
  before : Option ℕ
  down : Bool

section Flaky

variable {σ : Type}

/-- The error of a failed call. -/
def connectionLost : Fault := .err (.http "connection lost")

/-- A call that the connection lets through. -/
def Flaky.through {α : Type} (x : Exec σ Fault α) : Exec (Flaky σ) Fault α :=
  Exec.zoom Flaky.server (fun s f => { f with server := s }) x

/-- The target behind the connection.  The failing compare-and-swap has reached the server or not
(`landed`), and the read after it works or not (`readBack`). -/
def Target.flaky (T : Target σ) (landed readBack : Bool) : Target (Flaky σ) where
  setPointerUpdate owner signer u := fun f =>
    match f.before with
    | some 0 =>
        (.error connectionLost,
          ⟨if landed then (T.setPointerUpdate owner signer u f.server).2 else f.server, none,
            !readBack⟩)
    | before =>
        ((T.setPointerUpdate owner signer u f.server).1,
          ⟨(T.setPointerUpdate owner signer u f.server).2, before.map (· - 1), f.down⟩)
  getPointerTarget owner writer := fun f =>
    if f.down then (.error connectionLost, { f with down := false })
    else Flaky.through (T.getPointerTarget owner writer) f
  startTransaction owner := Flaky.through (T.startTransaction owner)
  closeTransaction owner tid := Flaky.through (T.closeTransaction owner tid)
  putBlocks owner batch tid := Flaky.through (T.putBlocks owner batch tid)
  putRawBatch owner signer blocks tid := Flaky.through (T.putRawBatch owner signer blocks tid)
  bulkCommit owner commit := Flaky.through (T.bulkCommit owner commit)
  store :=
    { get := fun f cid => T.store.get f.server cid
      put := fun f b => do
        let (cid, s) ← T.store.put f.server b
        .ok (cid, { f with server := s }) }

/-- The client behind the connection. -/
def Client.flaky (c : Client σ) (landed readBack : Bool) : Client (Flaky σ) :=
  ⟨c.target.flaky landed readBack, c.sha256, c.fuel, c.ourOrder, c.remoteOrder⟩

/-- The same client with its server in another state, at the start of a run. -/
def World.withServer {τ : Type} (w : World σ) (s : τ) : World τ :=
  ⟨w.pointers, w.blocks, s, w.others, []⟩

end Flaky

/-! ## When a retry is safe -/

section Retry

variable {σ : Type}

/-- An attempt whose call `k` fails, with a read-back that works, comes to its end, and every pointer
is where the entries leave it. -/
def Client.GetsThrough (c : Client σ) (pointer : σ → PublicKeyHash → PointerUpdate)
    (owner : PublicKeyHash) (w : World σ) (k : ℕ) (landed : Bool) : Prop :=
  ∃ s, Exec.forEach (w.pointers.writesFor owner) ((c.flaky landed true).commitOneWithMerge owner)
      (w.withServer ⟨w.server, some k, false⟩) = (.ok (), w.withServer ⟨s, none, false⟩) ∧
    ∀ writer, (pointer s writer).updated =
      (pointersAfter (pointer w.server) (w.pointers.writesFor owner) writer).updated

/-- Two entries of one writer have one target. -/
def SameTarget (a b : WriterUpdate) : Prop := a.writer = b.writer → a.update.updated = b.update.updated

instance (a b : WriterUpdate) : Decidable (SameTarget a b) := inferInstanceAs (Decidable (_ → _))

/-- The attempt gets through in spite of the failure at an entry.  Either its update is found on the
server.  Or the update was lost, and the entry is settled where it starts from; if that was taken
for applied, so are the writer's later entries. -/
def Client.GoesOn (c : Client σ) (s : σ) (sequence : Option Int64) (u : WriterUpdate)
    (later : List WriterUpdate) (landed readBack : Bool) : Prop :=
  readBack = true ∧ (landed = true ∨ c.Settles s sequence u ∧
    (u.update.original = u.update.updated →
      ∀ x ∈ later, x.writer = u.writer → c.Settles s sequence x))

/-- The attempt ends at the failed entry: the read after it fails as well, or the update was lost
and nothing comes of the merge with the root it starts from. -/
def Client.EndsAt (c : Client σ) (s : σ) (sequence : Option Int64) (u : WriterUpdate)
    (landed readBack : Bool) : Prop :=
  readBack = false ∨ landed = false ∧ c.Stops s sequence u

/-- The sequence of an entry's writer before the entry. -/
def sequenceBefore (pointer : PublicKeyHash → PointerUpdate) (entries : List WriterUpdate) (k : ℕ)
    (u : WriterUpdate) : Option Int64 :=
  (pointersAfter pointer (entries.take k) u.writer).sequence

/-- The entries that the server has applied when the attempt ends at entry `k`. -/
def appliedAt (entries : List WriterUpdate) (k : ℕ) (landed : Bool) : List WriterUpdate :=
  entries.take (if landed then k + 1 else k)

/-- The commit of these entries can fail at entry `k` and be tried again: it gets through in spite
of the failure, or it ends there and the entries that the server has applied have one target for
each writer. -/
def RetrySafe (c : Client σ) (pointer : σ → PublicKeyHash → PointerUpdate) (s : σ)
    (entries : List WriterUpdate) (k : ℕ) (landed readBack : Bool) : Prop :=
  ∀ u, entries[k]? = some u →
    c.GoesOn s (sequenceBefore (pointer s) entries k u) u (entries.drop (k + 1)) landed readBack ∨
    c.EndsAt s (sequenceBefore (pointer s) entries k u) u landed readBack ∧
      (appliedAt entries k landed).Pairwise SameTarget

/-- Every applied entry that is not at its writer's last target conflicts with it. -/
def OwnConflicts (c : Client σ) (pointer : σ → PublicKeyHash → PointerUpdate) (s : σ)
    (applied : List WriterUpdate) : Prop :=
  ∀ u ∈ applied, (pointersAfter (pointer s) applied u.writer).updated ≠ u.update.updated →
    c.Conflicts s u (pointersAfter (pointer s) applied u.writer).updated

/-- The commit fails at entry `k`, is tried again, and the second attempt succeeds and leaves every
writer at its last buffered target. -/
def RetrySucceeds (c : Client σ) (pointer : σ → PublicKeyHash → PointerUpdate)
    (owner : PublicKeyHash) (w : World σ) (k : ℕ) (landed readBack : Bool) : Prop :=
  ∃ r w₁ w₂,
    (c.flaky landed readBack).commitPointers owner (w.withServer ⟨w.server, some k, false⟩) =
      (r, w₁) ∧
    c.commitPointers owner (w₁.withServer w₁.server.server) = (.ok (), w₂) ∧
    ∀ writer, (pointer w₂.server writer).updated =
      (pointersAfter (pointer w.server) (w.pointers.writesFor owner) writer).updated

/-! ## Entries the server has passed -/

section Passed

variable {pointer : PublicKeyHash → PointerUpdate} {updates : List WriterUpdate}

theorem split_at {k : ℕ} {u : WriterUpdate} (hk : updates[k]? = some u) :
    updates = updates.take k ++ u :: updates.drop (k + 1) := by
  obtain ⟨hlt, rfl⟩ := List.getElem?_eq_some_iff.1 hk
  rw [← List.drop_eq_getElem_cons hlt, List.take_append_drop]

/-- Along a chain a writer's sequence goes up by one with each of its entries. -/
theorem Applicable.sequence (h : Applicable pointer updates) {writer : PublicKeyHash} {a : Int64}
    (ha : (pointer writer).sequence = some a) : ∃ n ≤ updates.length,
      (pointersAfter pointer updates writer).sequence = some (a + Int64.ofNat n) := by
  induction updates generalizing pointer a with
  | nil => exact ⟨0, le_rfl, by simpa using ha⟩
  | cons w updates ih =>
      obtain ⟨⟨-, -, hseq⟩, hrest⟩ := h
      by_cases hw : w.writer = writer
      · subst hw
        have ha' : (Function.update pointer w.writer w.update w.writer).sequence =
            some (a + 1) := by
          rw [Function.update_self, hseq, ha]
          rfl
        obtain ⟨n, hn, hs⟩ := ih hrest ha'
        refine ⟨n + 1, Nat.succ_le_succ hn, hs.trans (congrArg some ?_)⟩
        rw [Int64.ofNat_add, Int64.add_assoc, Int64.add_comm (Int64.ofNat n)]
        rfl
      · have ha' : (Function.update pointer w.writer w.update writer).sequence = some a := by
          rw [Function.update_of_ne (Ne.symm hw), ha]
        obtain ⟨n, hn, hs⟩ := ih hrest ha'
        exact ⟨n, Nat.le_succ_of_le hn, hs⟩

theorem add_ofNat_succ_ne {a : Int64} {n : ℕ} (hn : n + 1 < 2 ^ 64) :
    a + Int64.ofNat n + 1 ≠ a := by
  intro h
  rw [Int64.add_assoc, Int64.add_eq_left] at h
  have hzero : (Int64.ofNat n + 1).toBitVec.toNat = 0 := by rw [h]; rfl
  simp at hzero
  omega

/-- The server refuses an entry it has already applied. -/
theorem Applicable.not_continues (h : Applicable pointer updates) (hlen : updates.length < 2 ^ 64)
    {w : WriterUpdate} (hw : w ∈ updates) :
    ¬ (pointersAfter pointer updates w.writer).Continues w.update := by
  obtain ⟨l, r, rfl⟩ := List.append_of_mem hw
  rw [applicable_append] at h
  obtain ⟨-, ⟨-, -, hseq⟩, hrest⟩ := h
  obtain ⟨a, ha⟩ : ∃ a, w.update.sequence = some a := ⟨_, hseq⟩
  have ha' : (Function.update (pointersAfter pointer l) w.writer w.update w.writer).sequence =
      some a := by rw [Function.update_self, ha]
  obtain ⟨n, hn, hs⟩ := Applicable.sequence hrest ha'
  rintro ⟨-, hcontinues⟩
  rw [pointersAfter, replay_append, replay_cons] at hcontinues
  rw [show (replay _ _ (Function.update (replay _ _ pointer l) w.writer w.update) r
    w.writer).sequence = _ from hs, ha] at hcontinues
  have hn' : n + 1 < 2 ^ 64 := by
    rw [List.length_append, List.length_cons] at hlen
    omega
  exact add_ofNat_succ_ne hn' (Option.some.inj hcontinues).symm

/-- If the entries of each writer have one target, it is the target the writer ends at. -/
theorem pointersAfter_sameTarget (h : updates.Pairwise SameTarget) {w : WriterUpdate}
    (hw : w ∈ updates) : (pointersAfter pointer updates w.writer).updated = w.update.updated := by
  obtain ⟨l, r, rfl⟩ := List.append_of_mem hw
  rw [pointersAfter, replay_append, replay_cons]
  have hr : ∀ x ∈ r, SameTarget w x := (List.pairwise_cons.1 (List.pairwise_append.1 h).2.1).1
  refine replay_of_forall (Q := fun u : PointerUpdate => u.updated = w.update.updated) ?_ ?_
  · rw [Function.update_self]
  · intro x hx hwriter
    exact (hr x hx hwriter.symm).symm

/-- If each entry has the target its writer ends at, the entries of each writer have one target. -/
theorem sameTarget_of_pointersAfter
    (h : ∀ w ∈ updates, (pointersAfter pointer updates w.writer).updated = w.update.updated) :
    updates.Pairwise SameTarget := by
  refine List.pairwise_of_forall_mem_list ?_
  intro a ha b hb hwriter
  rw [← h a ha, ← h b hb, hwriter]

theorem Applicable.signer (h : Applicable pointer updates) {w : WriterUpdate} (hw : w ∈ updates) :
    w.signer.publicKeyHash = w.writer := by
  obtain ⟨l, r, rfl⟩ := List.append_of_mem hw
  exact (applicable_append.1 h).2.1.1

end Passed

/-! ## The second attempt -/

section Again

variable {c : Client σ} {pointer : σ → PublicKeyHash → PointerUpdate} (owner : PublicKeyHash)

/-- The server refuses every entry it has applied. -/
theorem Applicable.passed {start : PublicKeyHash → PointerUpdate} {applied : List WriterUpdate}
    (h : Applicable start applied) (hlen : applied.length < 2 ^ 64) :
    ∀ u ∈ applied, u.signer.publicKeyHash = u.writer ∧
      ¬ (pointersAfter start applied u.writer).Continues u.update := by
  intro u hu
  exact ⟨h.signer hu, h.not_continues hlen hu⟩

section

variable (cas : c.target.CompareAndSwap pointer) (keeps : c.target.KeepsBlocks c.sha256 pointer)
  {w : World σ} (halone : w.others = []) {start : PublicKeyHash → PointerUpdate} {j : ℕ}
  (hchain : Applicable start (w.pointers.writesFor owner))
  (hlen : (w.pointers.writesFor owner).length < 2 ^ 64)
  (hserver : pointer w.server = pointersAfter start ((w.pointers.writesFor owner).take j))

include cas keeps halone hchain hlen hserver

/-- Committing again from a server that has applied the first `j` entries. -/
theorem Client.commit_again (hsame : ((w.pointers.writesFor owner).take j).Pairwise SameTarget) :
    ∃ w', c.commitPointers owner w = (.ok (), w') ∧
      pointer w'.server = pointersAfter start (w.pointers.writesFor owner) := by
  have hworks := cas.worksOn keeps
  have hsplit := List.take_append_drop j (w.pointers.writesFor owner)
  have hparts := hchain
  rw [← hsplit, applicable_append] at hparts
  have hpassed : ∀ u ∈ (w.pointers.writesFor owner).take j, u.signer.publicKeyHash = u.writer ∧
      ¬ (pointer w.server u.writer).Continues u.update ∧
      (pointer w.server u.writer).updated = u.update.updated := by
    intro u hu
    obtain ⟨hsigner, hrefused⟩ :=
      hparts.1.passed (lt_of_le_of_lt (List.length_take_le' _ _) hlen) u hu
    rw [hserver]
    exact ⟨hsigner, hrefused, pointersAfter_sameTarget hsame hu⟩
  obtain ⟨s₁, hfirst, hs₁⟩ := c.forEach_passed owner hworks halone trivial hpassed
  have hrest : Applicable (pointer s₁) ((w.pointers.writesFor owner).drop j) := by
    rw [hs₁.pointer, hserver]
    exact hparts.2
  obtain ⟨s, hloop, hs⟩ := c.forEach_fits owner (w := { w with server := s₁ }) hworks halone
    trivial hrest
  have hall := (Exec.forEach_append_of_ok hfirst).trans hloop
  rw [hsplit] at hall
  refine ⟨_, c.commitPointers_of_loop hall, ?_⟩
  show pointer s = _
  rw [hs.pointer, hs₁.pointer, hserver, ← pointersAfter_append, hsplit]

/-- Committing again where an applied entry conflicts with what came after it. -/
theorem Client.commit_again_conflicts
    (hconflicts : ∀ u ∈ (w.pointers.writesFor owner).take j,
      (pointer w.server u.writer).updated ≠ u.update.updated →
        c.Conflicts w.server u (pointer w.server u.writer).updated)
    (hne : ¬ ((w.pointers.writesFor owner).take j).Pairwise SameTarget) :
    ∃ e w', c.commitPointers owner w = (.error e, w') := by
  have hsplit := List.take_append_drop j (w.pointers.writesFor owner)
  rw [← hsplit, applicable_append] at hchain
  have hpassed := hchain.1.passed (lt_of_le_of_lt (List.length_take_le' _ _) hlen)
  rw [← hserver] at hpassed
  obtain ⟨e, s, hloop⟩ := c.forEach_conflicts owner (cas.worksOn keeps) halone trivial
    (fun u (hu : u ∈ (w.pointers.writesFor owner).take j) =>
      ⟨(hpassed u hu).1, (hpassed u hu).2, hconflicts u hu⟩) (by
      by_contra hall
      push Not at hall
      rw [hserver] at hall
      exact hne (sameTarget_of_pointersAfter hall))
  refine ⟨e, { w with server := s }, (Exec.bind_of_ok (Exec.reads_run _ _)).trans
    (Exec.bind_of_error ?_)⟩
  rw [← hsplit]
  exact Exec.forEach_append_of_error hloop

end

end Again

/-! ## The first attempt -/

section First

variable {c : Client σ} {pointer : σ → PublicKeyHash → PointerUpdate} (owner : PublicKeyHash)
  (landed readBack : Bool)

/-- The connection has failed already. -/
def Flaky.Over (f : Flaky σ) : Prop := f.before = none ∧ f.down = false

/-- Behind the connection every call works once it has failed. -/
theorem Target.WorksOn.flaky {T : Target σ} {sha256 : Bytes → Bytes}
    (h : T.WorksOn sha256 pointer fun _ => True) :
    (T.flaky landed readBack).WorksOn sha256 (fun f => pointer f.server) Flaky.Over where
  set_fits := by
    rintro ⟨s, b, d⟩ o signer u ⟨rfl, rfl⟩ hfits
    obtain ⟨s', hset, hs'⟩ := h.set_fits (s := s) (o := o) trivial hfits
    refine ⟨⟨s', none, false⟩, ?_, ⟨rfl, rfl⟩, hs'.get, hs'.pointer⟩
    simp [Target.flaky, hset]
  set_refused := by
    rintro ⟨s, b, d⟩ o signer u ⟨rfl, rfl⟩ hrefused
    obtain ⟨r, s', hset, hr, hs'⟩ := h.set_refused (s := s) (o := o) trivial hrefused
    refine ⟨r, ⟨s', none, false⟩, ?_, hr, ⟨rfl, rfl⟩, hs'.get, hs'.pointer⟩
    simp [Target.flaky, hset]
  get_pointer := by
    rintro ⟨s, b, d⟩ o writer ⟨rfl, rfl⟩
    obtain ⟨s', hget, hs'⟩ := h.get_pointer (s := s) o writer trivial
    refine ⟨⟨s', none, false⟩, ?_, ⟨rfl, rfl⟩, hs'.get, hs'.pointer⟩
    simp [Target.flaky, Flaky.through, Exec.zoom, hget]
  put_again := by
    rintro ⟨s, b, d⟩ block cid ⟨rfl, rfl⟩ hstored
    obtain ⟨s', hput, hs'⟩ := h.put_again (s := s) trivial hstored
    refine ⟨⟨s', none, false⟩, ?_, ⟨rfl, rfl⟩, hs'.get, hs'.pointer⟩
    simp [Target.flaky, hput]
  put_new := by
    rintro ⟨s, b, d⟩ block cid f' ⟨rfl, rfl⟩ hput
    obtain ⟨⟨c, s'⟩, hput', hf'⟩ := bind_eq_ok.1 hput
    cases hf'
    obtain ⟨-, hext, hs'⟩ := h.put_new trivial hput'
    exact ⟨⟨rfl, rfl⟩, hext, hs'⟩

variable (cas : c.target.CompareAndSwap pointer) (keeps : c.target.KeepsBlocks c.sha256 pointer)

include cas keeps

/-- The entries before the failure are accepted as without it. -/
theorem Client.flaky_forEach_front {front : List WriterUpdate} {w : World σ} {m : ℕ}
    (halone : w.others = []) (hchain : Applicable (pointer w.server) front) :
    ∃ s, Exec.forEach front ((c.flaky landed readBack).commitOneWithMerge owner)
        (w.withServer ⟨w.server, some (front.length + m), false⟩) =
        (.ok (), w.withServer ⟨s, some m, false⟩) ∧
      c.target.Moved pointer (fun _ => True) w.server s
        (pointersAfter (pointer w.server) front) := by
  induction front generalizing w with
  | nil =>
      rw [List.length_nil, Nat.zero_add]
      exact ⟨w.server, rfl, .refl trivial⟩
  | cons u front ih =>
      obtain ⟨⟨hsigner, hcontinues⟩, hrest⟩ := hchain
      rw [← hsigner] at hcontinues
      obtain ⟨s₁, hset, hs₁⟩ := (cas.worksOn keeps).set_fits (o := owner) trivial hcontinues
      rw [hsigner] at hs₁
      have hcall : (c.flaky landed readBack).target.setPointerUpdate owner u.signer u.update
          ⟨w.server, some (front.length + 1 + m), false⟩ =
          (.ok true, ⟨s₁, some (front.length + m), false⟩) := by
        rw [Nat.add_right_comm]
        simp [Client.flaky, Target.flaky, hset]
      have hone : (c.flaky landed readBack).commitOneWithMerge owner u
          (w.withServer ⟨w.server, some (front.length + 1 + m), false⟩) =
          (.ok (), w.withServer ⟨s₁, some (front.length + m), false⟩) :=
        (c.flaky landed readBack).commitOneWithMerge_accepted halone hcall
      rw [← hs₁.pointer] at hrest
      obtain ⟨s, hrun, hs⟩ := ih (w := { w with server := s₁ }) halone hrest
      rw [hs₁.pointer] at hs
      exact ⟨s, (Exec.forEach_cons_of_ok hone).trans hrun, hs₁.trans hs⟩

/-- The failing compare-and-swap of an entry that continues its pointer. -/
theorem Client.flaky_commitOne {w : World σ} {u : WriterUpdate} (halone : w.others = [])
    (hfits : u.Fits (pointer w.server u.writer)) :
    ∃ s, (c.flaky landed readBack).commitOneWithMerge owner u
        (w.withServer ⟨w.server, some 0, false⟩) =
        (c.flaky landed readBack).settle owner u (w.withServer ⟨s, none, !readBack⟩) ∧
      c.target.Moved pointer (fun _ => True) w.server s
        (if landed then Function.update (pointer w.server) u.writer u.update
          else pointer w.server) := by
  obtain ⟨hsigner, hcontinues⟩ := hfits
  rw [← hsigner] at hcontinues
  obtain ⟨s', hset, hs'⟩ := (cas.worksOn keeps).set_fits (o := owner) trivial hcontinues
  rw [hsigner] at hs'
  have hcall : (c.flaky landed readBack).target.setPointerUpdate owner u.signer u.update
      ⟨w.server, some 0, false⟩ =
      (.error connectionLost, ⟨if landed then s' else w.server, none, !readBack⟩) := by
    simp only [Client.flaky, Target.flaky, hset]
  refine ⟨if landed then s' else w.server, (c.flaky landed readBack).commitOneWithMerge_of_refused
    owner halone hcall (Or.inr ⟨_, rfl⟩), ?_⟩
  cases landed with
  | true => exact hs'
  | false => exact .refl trivial

variable {owner landed readBack} {w : World σ} {k : ℕ} (halone : w.others = [])
  (hchain : Applicable (pointer w.server) (w.pointers.writesFor owner))

include halone hchain

section

variable {u : WriterUpdate} (hk : (w.pointers.writesFor owner)[k]? = some u)

include hk

variable (landed readBack) in
/-- The first attempt comes to the failed entry, and then depends on how that is settled. -/
theorem Client.flaky_reaches :
    ∃ s, Exec.forEach (w.pointers.writesFor owner)
        ((c.flaky landed readBack).commitOneWithMerge owner)
        (w.withServer ⟨w.server, some k, false⟩) =
        ((c.flaky landed readBack).settle owner u >>= fun _ =>
          Exec.forEach ((w.pointers.writesFor owner).drop (k + 1))
            ((c.flaky landed readBack).commitOneWithMerge owner))
          (w.withServer ⟨s, none, !readBack⟩) ∧
      c.target.Moved pointer (fun _ => True) w.server s (pointersAfter (pointer w.server)
        (appliedAt (w.pointers.writesFor owner) k landed)) := by
  have hsplit := split_at hk
  have hklt := (List.getElem?_eq_some_iff.1 hk).1
  rw [hsplit, applicable_append] at hchain
  obtain ⟨s₁, hfront, hs₁⟩ := c.flaky_forEach_front owner landed readBack cas keeps (m := 0)
    halone hchain.1
  rw [Nat.add_zero, List.length_take_of_le hklt.le] at hfront
  have hfits : u.Fits (pointer s₁ u.writer) := by
    rw [hs₁.pointer]
    exact hchain.2.1
  obtain ⟨s, hone, hs⟩ := c.flaky_commitOne owner landed readBack cas keeps
    (w := { w with server := s₁ }) halone hfits
  refine ⟨s, ?_, ?_⟩
  · conv_lhs => rw [hsplit, Exec.forEach_append_of_ok hfront]
    exact Exec.bind_of_eq hone
  · have hmoved := hs₁.trans hs
    rw [hs₁.pointer] at hmoved
    cases landed with
    | true =>
        rw [appliedAt, if_pos rfl, List.take_add_one, hk, pointersAfter_append]
        exact hmoved
    | false => exact hmoved

/-- The first attempt ends at the failed entry. -/
theorem Client.flaky_endsAt
    (hends : c.EndsAt w.server
      (sequenceBefore (pointer w.server) (w.pointers.writesFor owner) k u) u landed readBack) :
    ∃ e s, Exec.forEach (w.pointers.writesFor owner)
        ((c.flaky landed readBack).commitOneWithMerge owner)
        (w.withServer ⟨w.server, some k, false⟩) = (.error e, w.withServer ⟨s, none, false⟩) ∧
      c.target.store.Extends w.server s ∧ pointer s = pointersAfter (pointer w.server)
        (appliedAt (w.pointers.writesFor owner) k landed) := by
  obtain ⟨s, hrun, hs⟩ := c.flaky_reaches landed readBack cas keeps
    halone hchain hk
  cases readBack with
  | false =>
      refine ⟨_, s, hrun.trans (Exec.bind_of_error (Exec.bind_of_error
        ((c.flaky landed false).await_alone (w := w.withServer ⟨s, none, true⟩) halone rfl))),
        hs.extends, hs.pointer⟩
  | true =>
      obtain ⟨rfl, hstops⟩ := hends.resolve_left (by rintro ⟨⟩)
      have hchain' := hchain
      rw [split_at hk, applicable_append] at hchain'
      obtain ⟨-, hfits, -⟩ := hchain'
      have hpointer : pointer s =
          pointersAfter (pointer w.server) ((w.pointers.writesFor owner).take k) := hs.pointer
      obtain ⟨e, f, hsettle, ⟨hbefore, hdown⟩, hext, hf⟩ := (c.flaky false true).settle_stops owner
        (w := w.withServer ⟨s, none, false⟩) (u := u) ((cas.worksOn keeps).flaky false true)
        halone ⟨rfl, rfl⟩ (by
          show (pointer s u.writer).updated = _
          rw [hpointer, hfits.2.1]) (by
          show Client.Stops _ _ (pointer s u.writer).sequence u
          rw [hpointer]
          exact hstops.congr hs.get rfl rfl)
      obtain ⟨s', b, d⟩ := f
      cases hbefore
      cases hdown
      exact ⟨e, s', hrun.trans (Exec.bind_of_error hsettle), hs.extends.trans hext,
        hf.trans hs.pointer⟩

omit cas keeps halone hchain in
theorem pointersAfter_split :
    pointersAfter (pointer w.server) (w.pointers.writesFor owner) =
      pointersAfter (Function.update (pointersAfter (pointer w.server)
        ((w.pointers.writesFor owner).take k)) u.writer u.update)
        ((w.pointers.writesFor owner).drop (k + 1)) := by
  conv_lhs => rw [split_at hk, pointersAfter_append]
  rfl

/-- The failed entry has been settled and the pointer is where its update leaves it. -/
theorem Client.getsThrough_of_settled {s : σ} {f : Flaky σ}
    (hrun : Exec.forEach (w.pointers.writesFor owner)
        ((c.flaky landed true).commitOneWithMerge owner)
        (w.withServer ⟨w.server, some k, false⟩) =
      ((c.flaky landed true).settle owner u >>= fun _ =>
        Exec.forEach ((w.pointers.writesFor owner).drop (k + 1))
          ((c.flaky landed true).commitOneWithMerge owner)) (w.withServer ⟨s, none, false⟩))
    (hsettle : (c.flaky landed true).settle owner u (w.withServer ⟨s, none, false⟩) =
      (.ok (), w.withServer f)) (hover : f.Over)
    (hf : pointer f.server = Function.update (pointersAfter (pointer w.server)
      ((w.pointers.writesFor owner).take k)) u.writer u.update) :
    c.GetsThrough pointer owner w k landed := by
  have hworks := (cas.worksOn keeps).flaky landed true
  rw [split_at hk, applicable_append] at hchain
  obtain ⟨-, -, hrest⟩ := hchain
  rw [← hf] at hrest
  obtain ⟨⟨s', b, d⟩, hloop, ⟨hbefore, hdown⟩, -, hf'⟩ := (c.flaky landed true).forEach_fits owner
    (w := w.withServer f) hworks halone hover hrest
  cases hbefore
  cases hdown
  refine ⟨s', hrun.trans ((Exec.bind_of_ok hsettle).trans hloop), fun writer => ?_⟩
  rw [pointersAfter_split hk, ← hf]
  exact congrArg PointerUpdate.updated (congrFun hf' writer)

/-- The update was lost, but the entry ends where it starts: it is taken for applied, and the
writer's pointer is one behind from here on. -/
theorem Client.getsThrough_behind {s : σ} (hlen : (w.pointers.writesFor owner).length < 2 ^ 64)
    (hrun : Exec.forEach (w.pointers.writesFor owner)
        ((c.flaky false true).commitOneWithMerge owner)
        (w.withServer ⟨w.server, some k, false⟩) =
      ((c.flaky false true).settle owner u >>= fun _ =>
        Exec.forEach ((w.pointers.writesFor owner).drop (k + 1))
          ((c.flaky false true).commitOneWithMerge owner)) (w.withServer ⟨s, none, false⟩))
    (hs : c.target.Moved pointer (fun _ => True) w.server s
      (pointersAfter (pointer w.server) ((w.pointers.writesFor owner).take k)))
    (hsame : u.update.original = u.update.updated)
    (hlater : ∀ x ∈ (w.pointers.writesFor owner).drop (k + 1), x.writer = u.writer →
      c.Settles w.server (sequenceBefore (pointer w.server) (w.pointers.writesFor owner) k u) x) :
    c.GetsThrough pointer owner w k false := by
  have hworks := (cas.worksOn keeps).flaky false true
  rw [split_at hk, applicable_append] at hchain
  obtain ⟨-, hfits, hrest⟩ := hchain
  have hpointer : pointer s =
      pointersAfter (pointer w.server) ((w.pointers.writesFor owner).take k) := hs.pointer
  obtain ⟨f, hsettle, ⟨hover, hget, hf⟩⟩ := (c.flaky false true).settle_found owner
    (w := w.withServer ⟨s, none, false⟩) (u := u) hworks halone ⟨rfl, rfl⟩ (by
      show (pointer s u.writer).updated = _
      rw [hpointer, ← hsame, hfits.2.1])
  have hf' : pointer f.server =
      pointersAfter (pointer w.server) ((w.pointers.writesFor owner).take k) := hf.trans hpointer
  obtain ⟨⟨s', b, d⟩, hloop, ⟨hbefore, hdown⟩, hupdated⟩ :=
    (c.flaky false true).forEach_behind owner (w := w.withServer f) hworks halone hover
      (v := u.writer) (n := 1) (by
        show Behind _ _ _ (pointer f.server)
        rw [hf']
        exact Behind.of_same hfits hsame)
      Nat.one_pos (by rw [List.length_drop]; omega) hrest (by
        intro x hx hxu
        show Client.Settles _ _ (pointer f.server u.writer).sequence x
        rw [hf']
        exact (hlater x hx hxu).congr (hget.trans hs.get) rfl rfl rfl)
  cases hbefore
  cases hdown
  refine ⟨s', hrun.trans ((Exec.bind_of_ok hsettle).trans hloop), fun writer => ?_⟩
  rw [pointersAfter_split hk]
  exact hupdated writer

/-- The first attempt gets through in spite of the failure. -/
theorem Client.flaky_goesOn (hlen : (w.pointers.writesFor owner).length < 2 ^ 64)
    (hgoes : c.GoesOn w.server
      (sequenceBefore (pointer w.server) (w.pointers.writesFor owner) k u) u
      ((w.pointers.writesFor owner).drop (k + 1)) landed true) :
    c.GetsThrough pointer owner w k landed := by
  obtain ⟨s, hrun, hs⟩ := c.flaky_reaches landed true cas keeps halone hchain hk
  have hworks := (cas.worksOn keeps).flaky landed true
  obtain ⟨-, hgoes⟩ := hgoes
  cases landed with
  | true =>
      have hpointer : pointer s = Function.update (pointersAfter (pointer w.server)
          ((w.pointers.writesFor owner).take k)) u.writer u.update := by
        rw [hs.pointer, appliedAt, if_pos rfl, List.take_add_one, hk, pointersAfter_append]
        rfl
      obtain ⟨f, hsettle, hf⟩ := (c.flaky true true).settle_found owner
        (w := w.withServer ⟨s, none, false⟩) (u := u) hworks halone ⟨rfl, rfl⟩ (by
          show (pointer s u.writer).updated = _
          rw [hpointer, Function.update_self])
      exact Client.getsThrough_of_settled cas keeps halone hchain hk hrun hsettle hf.good
        (hf.pointer.trans hpointer)
  | false =>
      obtain ⟨hsettles, hlater⟩ := hgoes.resolve_left (by rintro ⟨⟩)
      by_cases hsame : u.update.original = u.update.updated
      · exact Client.getsThrough_behind cas keeps halone hchain hk hlen hrun hs hsame
          (hlater hsame)
      · have hchain' := hchain
        rw [split_at hk, applicable_append] at hchain'
        obtain ⟨-, hfits, -⟩ := hchain'
        have hpointer : pointer s =
            pointersAfter (pointer w.server) ((w.pointers.writesFor owner).take k) := hs.pointer
        have htarget : (pointer s u.writer).updated = u.update.original := by
          rw [hpointer, hfits.2.1]
        obtain ⟨hsome, base, ours, hbase, hours, hremakes⟩ := hsettles.resolve_left hsame
        obtain ⟨a, ha⟩ := Option.ne_none_iff_exists'.1 hsome
        have hseq : (pointer s u.writer).sequence = some a := by rw [hpointer]; exact ha
        obtain ⟨f, hsettle, hf⟩ := (c.flaky false true).settle_remade owner
          (w := w.withServer ⟨s, none, false⟩) hworks halone ⟨rfl, rfl⟩ hfits.1 hbase hours hsame
          htarget hseq (hremakes.congr hs.get rfl rfl rfl)
        have hupdate : u.update = ⟨some base, some ours, some (a + 1)⟩ := by
          rw [← hbase, ← hours, ← show u.update.sequence = some (a + 1) by
            rw [hfits.2.2, ← hpointer, hseq]
            rfl]
        refine Client.getsThrough_of_settled cas keeps halone hchain hk hrun hsettle hf.good
          (hf.pointer.trans ?_)
        show Function.update (pointer s) u.writer _ = _
        rw [hupdate, ← hpointer]

end

end First

/-! ## Trying again -/

section Both

variable {c : Client σ} {pointer : σ → PublicKeyHash → PointerUpdate} {owner : PublicKeyHash}
  {landed readBack : Bool} {w : World σ} {k : ℕ}

/-- A commit that got through in spite of the failure has nothing left to do. -/
theorem retry_of_finished {s : σ} {b : Option ℕ}
    (hloop : Exec.forEach (w.pointers.writesFor owner)
      ((c.flaky landed readBack).commitOneWithMerge owner)
      (w.withServer ⟨w.server, some k, false⟩) = (.ok (), w.withServer ⟨s, b, false⟩))
    (hserver : ∀ writer, (pointer s writer).updated =
      (pointersAfter (pointer w.server) (w.pointers.writesFor owner) writer).updated) :
    RetrySucceeds c pointer owner w k landed readBack := by
  have hempty : (w.pointers.retainOthers owner).writesFor owner = [] := by
    refine List.filter_eq_nil_iff.2 ?_
    intro u hu
    simpa using (List.mem_filter.1 hu).2
  -- what the client is left with after the first attempt
  let done : World σ := { w.withServer s with pointers := w.pointers.retainOthers owner }
  have hsecond : Exec.forEach (done.pointers.writesFor owner) (c.commitOneWithMerge owner) done =
      (.ok (), done) := by
    show Exec.forEach ((w.pointers.retainOthers owner).writesFor owner) _ _ = _
    rw [hempty]
    rfl
  exact ⟨_, _, _, (c.flaky landed readBack).commitPointers_of_loop hloop,
    c.commitPointers_of_loop hsecond, hserver⟩

/-- A commit that failed at entry `k` leaves the list as it was. -/
theorem Client.commitPointers_of_failed {e : Fault} {f : Flaky σ}
    (hloop : Exec.forEach (w.pointers.writesFor owner)
      ((c.flaky landed readBack).commitOneWithMerge owner)
      (w.withServer ⟨w.server, some k, false⟩) = (.error e, w.withServer f)) :
    (c.flaky landed readBack).commitPointers owner (w.withServer ⟨w.server, some k, false⟩) =
      (.error e, w.withServer f) :=
  (Exec.bind_of_ok (Exec.reads_run _ _)).trans (Exec.bind_of_error hloop)

/-- A commit that fails once, at whichever entry, succeeds when it is tried again if the entries are
safe to retry there.  Where the attempt ends at the entry and the applied entries conflict with what
came after them, it succeeds only then. -/
theorem retry_succeeds (cas : c.target.CompareAndSwap pointer)
    (keeps : c.target.KeepsBlocks c.sha256 pointer) (halone : w.others = [])
    (hchain : Applicable (pointer w.server) (w.pointers.writesFor owner))
    (hlen : (w.pointers.writesFor owner).length < 2 ^ 64) :
    (RetrySafe c pointer w.server (w.pointers.writesFor owner) k landed readBack →
      RetrySucceeds c pointer owner w k landed readBack) ∧
    ((∀ u, (w.pointers.writesFor owner)[k]? = some u → c.EndsAt w.server
        (sequenceBefore (pointer w.server) (w.pointers.writesFor owner) k u) u landed readBack) →
      OwnConflicts c pointer w.server (appliedAt (w.pointers.writesFor owner) k landed) →
      RetrySucceeds c pointer owner w k landed readBack →
      RetrySafe c pointer w.server (w.pointers.writesFor owner) k landed readBack) := by
  constructor
  · intro hsafe
    cases hk : (w.pointers.writesFor owner)[k]? with
    | none =>
        -- the list is shorter than that: nothing fails
        obtain ⟨m, rfl⟩ := Nat.exists_eq_add_of_le (List.getElem?_eq_none_iff.1 hk)
        obtain ⟨s, hloop, hs⟩ := c.flaky_forEach_front owner landed readBack cas keeps (m := m)
          halone hchain
        exact retry_of_finished hloop fun writer => by rw [hs.pointer]
    | some u =>
        rcases hsafe u hk with hgoes | ⟨hends, hsame⟩
        · obtain rfl := hgoes.1
          obtain ⟨s, hloop, hs⟩ := c.flaky_goesOn cas keeps halone hchain hk hlen hgoes
          exact retry_of_finished hloop hs
        · obtain ⟨e, s, hloop, -, hs⟩ := c.flaky_endsAt cas keeps halone hchain hk hends
          obtain ⟨w₂, hsecond, hw₂⟩ := c.commit_again owner (w := w.withServer s) cas keeps halone
            hchain hlen hs hsame
          exact ⟨_, _, w₂, Client.commitPointers_of_failed hloop, hsecond,
            fun writer => congrArg PointerUpdate.updated (congrFun hw₂ writer)⟩
  · rintro hends hconflicts ⟨r, w₁, w₂, hfirst, hsecond, -⟩ u hk
    refine Or.inr ⟨hends u hk, ?_⟩
    by_contra hsame
    obtain ⟨e, s, hloop, hext, hs⟩ := c.flaky_endsAt cas keeps halone hchain hk (hends u hk)
    cases hfirst.symm.trans (Client.commitPointers_of_failed hloop)
    obtain ⟨e', w', hfails⟩ := c.commit_again_conflicts owner (w := w.withServer s) cas keeps
      halone hchain hlen hs (by
        intro v hv hne
        have hpointer : pointer (w.withServer s).server = _ := hs
        rw [hpointer] at hne ⊢
        exact fun base ours root hbase hours hroot s' hs' =>
          hconflicts v hv hne base ours root hbase hours hroot s' (hext.trans hs')) hsame
    cases hsecond.symm.trans hfails

end Both

/-! ## Concrete retries -/

/-- The client of the server in memory. -/
abbrev ramClient : Client RamServer := RamServer.client Sha256.sha256 false

/-- Make writes through the buffer of a client that starts at this server. -/
def bufferedWorld (s : RamServer) (writes : List Write) : World RamServer :=
  (writeAll (ramClient.buffered none) writes (World.fresh s)).2

/-- A server with the WriterData of a writer that has no file yet, and the WriterData of two later
states, with one file and with two. -/
def ownHistory : Result (RamServer × Cid × Cid) := do
  let (b, o, t, s) ← ChampMerge.buildThree none none identityKeyHasher [] ChampMerge.insertOne
    (ChampMerge.insertOne ++ ChampMerge.insertTwo)
  let (h₀, s) ← (ContentAddressedStorage.memory Sha256.sha256).put s (ChampMerge.writerData [] b)
  let (h₁, s) ← (ContentAddressedStorage.memory Sha256.sha256).put s (ChampMerge.writerData [] o)
  let (h₂, s) ← (ContentAddressedStorage.memory Sha256.sha256).put s (ChampMerge.writerData [] t)
  .ok (⟨[(byteKey 3, ⟨none, some h₀, some 1⟩)], s⟩, h₁, h₂)

/-- Write one file, write to another writer, write the second file, write to a third writer. -/
def ownWrites (h₁ h₂ : Cid) : List Write :=
  [⟨byteKey 1, byteSigner 3, some h₁⟩, ⟨byteKey 1, byteSigner 4, some (byteCid 20)⟩,
    ⟨byteKey 1, byteSigner 3, some h₂⟩, ⟨byteKey 1, byteSigner 5, some (byteCid 21)⟩]

/-- The third of four writes is lost on the way, and the merge with the root it starts from remakes
it; or the second one's answer is lost and the read after it fails. -/
theorem retry_succeeds_third_write :
    ∃ s h₁ h₂, ownHistory = .ok (s, h₁, h₂) ∧
      RetrySucceeds ramClient RamServer.pointer (byteKey 1) (bufferedWorld s (ownWrites h₁ h₂)) 2
        false true ∧
      RetrySucceeds ramClient RamServer.pointer (byteKey 1) (bufferedWorld s (ownWrites h₁ h₂)) 1
        true false := by
  have hrun : (do
      let (s, h₁, h₂) ← ownHistory
      let w := bufferedWorld s (ownWrites h₁ h₂)
      let wd ← ChampMerge.ownMerge ramClient.target.store 32 (fun _ l => l) w.server h₁ h₂
      let stored ← ramClient.target.store.get w.server h₂
      let entries := w.pointers.writesFor (byteKey 1)
      Except.ok (decide (w.others.isEmpty ∧ Applicable w.server.pointer entries ∧
        entries.length = 4 ∧ stored = some wd ∧
        (buildCid (Sha256.sha256 wd.toBytes) false).toOption = some h₂ ∧
        entries[2]?.map (fun u => (u.writer, u.update)) =
          some (byteKey 3, ⟨some h₁, some h₂, some 3⟩) ∧
        h₁ ≠ h₂ ∧ (pointersAfter w.server.pointer (entries.take 2) (byteKey 3)).sequence ≠ none ∧
        (entries.take 2).Pairwise SameTarget)) : Result Bool) = .ok true :=
    eq_ok_of_toOption (by decide +kernel)
  obtain ⟨⟨s, h₁, h₂⟩, hstart, hrun⟩ := bind_eq_ok.1 hrun
  obtain ⟨wd, hmerge, hrun⟩ := bind_eq_ok.1 hrun
  obtain ⟨stored, hstored, hrun⟩ := bind_eq_ok.1 hrun
  simp only [Except.ok.injEq, decide_eq_true_eq, List.isEmpty_iff] at hrun
  obtain ⟨halone, hchain, hlen, rfl, hcid, hthird, hne, hseq, hsame⟩ := hrun
  have hretry : ∀ k landed readBack, RetrySafe ramClient RamServer.pointer
      (bufferedWorld s (ownWrites h₁ h₂)).server
      ((bufferedWorld s (ownWrites h₁ h₂)).pointers.writesFor (byteKey 1)) k landed readBack →
      RetrySucceeds ramClient RamServer.pointer (byteKey 1) (bufferedWorld s (ownWrites h₁ h₂)) k
        landed readBack := fun k landed readBack =>
    (retry_succeeds (RamServer.compareAndSwap Sha256.sha256 false)
      (RamServer.keepsBlocks Sha256.sha256 false) halone hchain (by rw [hlen]; decide)).1
  refine ⟨s, h₁, h₂, hstart, hretry 2 false true ?_, hretry 1 true false ?_⟩
  · intro u hu
    rw [hu, Option.map_some, Option.some.injEq, Prod.mk.injEq] at hthird
    obtain ⟨hwriter, hupdate⟩ := hthird
    refine Or.inl ⟨rfl, Or.inr ⟨Or.inr ⟨?_, h₁, h₂, ?_, ?_, wd,
      ⟨hstored, eq_ok_of_toOption hcid⟩, hmerge⟩, fun hroots => ?_⟩⟩
    · rw [sequenceBefore, hwriter]
      exact hseq
    · rw [hupdate]
    · rw [hupdate]
    · rw [hupdate] at hroots
      exact absurd (Option.some.inj hroots) hne
  · intro u _
    exact Or.inr ⟨Or.inl rfl, hsame⟩

/-- The request for the last of four entries is lost, once.  It goes from no root, so the attempt
ends there.  The retry merges the first writer's first write with its own second one and finds a
conflict. -/
theorem retry_conflicts_with_own_history :
    ∃ s h₁ h₂, ownHistory = .ok (s, h₁, h₂) ∧
      Applicable s.pointer
        ((bufferedWorld s (ownWrites h₁ h₂)).pointers.writesFor (byteKey 1)) ∧
      ((bufferedWorld s (ownWrites h₁ h₂)).pointers.writesFor (byteKey 1)).length = 4 ∧
      ¬ RetrySucceeds ramClient RamServer.pointer (byteKey 1)
        (bufferedWorld s (ownWrites h₁ h₂)) 3 false true := by
  have hrun : (do
      let (s, h₁, h₂) ← ownHistory
      let w := bufferedWorld s (ownWrites h₁ h₂)
      let w₁ := ((ramClient.flaky false true).commitPointers (byteKey 1)
        (w.withServer ⟨w.server, some 3, false⟩)).2
      let again := (ramClient.commitPointers (byteKey 1) (w₁.withServer w₁.server.server)).1
      Except.ok (decide (Applicable s.pointer (w.pointers.writesFor (byteKey 1))),
        (w.pointers.writesFor (byteKey 1)).length, again.toOption.isSome) :
      Result (Bool × ℕ × Bool)) = .ok (true, 4, false) :=
    eq_ok_of_toOption (by decide +kernel)
  obtain ⟨⟨s, h₁, h₂⟩, hstart, hrun⟩ := bind_eq_ok.1 hrun
  simp only [Except.ok.injEq, Prod.mk.injEq] at hrun
  obtain ⟨hchain, hlen, hfails⟩ := hrun
  refine ⟨s, h₁, h₂, hstart, of_decide_eq_true hchain, hlen, ?_⟩
  rintro ⟨r, w₁, w₂, hfirst, hsecond, -⟩
  rw [hfirst, hsecond] at hfails
  cases hfails

end Retry

end Peergos
