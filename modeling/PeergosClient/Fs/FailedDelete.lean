import PeergosClient.Fs.DirectoryUpload
import PeergosClient.Lib.Interrupted

/-!
# Deletes that fail halfway

A delete moves several pointers: those of the writing spaces below the child to nothing, then that
of the directory to a champ without the child, then that of the owner of the writing spaces.  Here
it is taken apart into its operations, each of which the server may refuse.  Reads and block writes
in a row are one operation, as no other client sees them.  The move of a pointer may also be
declined: for a writing space that is ignored, for the others it is an error.

A refusal before the first pointer has moved changes nothing.  After it either a writing space below
the child is gone while the child is still listed, or the child is no longer listed.
-/

namespace Peergos

open Exec KeyedMap

/-! ## The operations -/

section Defs

variable (fails declines : ℕ → Bool) (refusal : Fault)

/-- The signer of `parent_writer_signer`: a failure to look up the directory's own one is not
reported if there is another. -/
def signerOr (own : Result SigningPrivateKeyAndPublicHash)
    (entrySigner : Option SigningPrivateKeyAndPublicHash) : Result SigningPrivateKeyAndPublicHash :=
  match own, entrySigner with
  | .ok signer, _ => .ok signer
  | .error _, some signer => .ok signer
  | .error _, none => protocolErr "no writer available; supply the entry-point signer"

/-- `deauthorize_writer`. -/
def deauthorizeSteps (parentCap : AbsoluteCapability) (writerToRemove : PublicKeyHash)
    (entrySigner : Option SigningPrivateKeyAndPublicHash) : Exec (Spaces × ℕ) Fault Unit := do
  let own ← Exec.attempt (op fails refusal (query fun s : Spaces =>
    recoverSigner s.network parentCap))
  let parentWriter ← Exec.lift (signerOr own entrySigner)
  match ← op fails refusal (reads fun s : Spaces => s parentWriter.publicKeyHash) with
  | none => Exec.fail (.err (.protocol "parent writer has no data"))
  | some space =>
      match space.owned with
      | none => Exec.fail (.err (.protocol "parent writer has no owned champ"))
      | some owned =>
          if owned writerToRemove then do
            answered fails declines refusal
              (update fun s => Function.update s parentWriter.publicKeyHash
                (some { space with owned := some (Function.update owned writerToRemove false) }))
              (Exec.fail (.err (.protocol "deauthorise pointer rejected")))
            -- the end of the transaction
            op fails refusal (pure ())
          else pure ()

/-- The commit of `delete_child`, and the end of its transaction. -/
def unlinkSteps (H : ContentHasher) (fuel : ℕ) (dirCap : AbsoluteCapability) (name : String)
    (entrySigner : Option SigningPrivateKeyAndPublicHash) (mirrorBat : Option BatId) :
    Exec (Spaces × ℕ) Fault Unit := do
  let ctx ← op fails refusal (query fun s : Spaces =>
    beginDirWrite s.network dirCap entrySigner mirrorBat)
  let chunks ← op fails refusal (query fun _ =>
    walkDirChunks "legacy directory format not supported for deletes" ctx.champ dirCap.rBaseKey fuel
      dirCap.mapKey ctx.dirNode)
  match replaceFirst name (fun _ => []) chunks with
  | none => Exec.fail (.err (.protocol s!"no such child: {name}"))
  | some (link, chunks) => do
      let champ ← op fails refusal (query fun _ =>
        chunks.foldlM (commitChunk dirCap.rBaseKey) ctx.champ)
      let champ ← op fails refusal (query fun _ => removeAllChunks H dirCap fuel champ link.cap.loc)
      answered fails declines refusal
        (onTrees (commitTree dirCap.writer ctx.signer champ
          "setPointer rejected (concurrent modification?)"))
        (Exec.fail (.err (.protocol "setPointer rejected (concurrent modification?)")))
      op fails refusal (pure ())

/-- The signer of a writing space is looked up and its pointer set to nothing; whether the server
has done so is not asked. -/
def nullSteps (target : AbsoluteCapability) : Exec (Spaces × ℕ) Fault Unit := do
  let signer ← op fails refusal (query fun s : Spaces => recoverSigner s.network target)
  answered fails declines refusal (deleteWriterSubspace signer) (pure ())

/-- The writing spaces below the child, if it is listed. -/
def collectSteps (fuel : ℕ) (name : String) (entries : List DirEntry) :
    Exec (Spaces × ℕ) Fault (List AbsoluteCapability × List PublicKeyHash) :=
  match entries.find? (·.name = name) with
  | some e => op fails refusal (query fun s : Spaces =>
      collectOwnWriterTargets s.network fuel e.cap true)
  | none => pure ([], [])

/-- `delete_child`. -/
def deleteChildSteps (H : ContentHasher) (fuel : ℕ) (dirCap : AbsoluteCapability) (name : String)
    (entrySigner : Option SigningPrivateKeyAndPublicHash) (mirrorBat : Option BatId) :
    Exec (Spaces × ℕ) Fault Unit := do
  let entries ← op fails refusal (query fun s : Spaces => listDirectory fuel s.network dirCap)
  let targets ← collectSteps fails refusal fuel name entries
  forEach targets.1.reverse (nullSteps fails declines refusal)
  unlinkSteps fails declines refusal H fuel dirCap name entrySigner mirrorBat
  forEach targets.2 fun writer => deauthorizeSteps fails declines refusal dirCap writer entrySigner

end Defs

/-- The writing spaces below a child. -/
def ownWritersBelow (fuel : ℕ) (net : Network) (dirCap : AbsoluteCapability) (name : String) :
    List AbsoluteCapability :=
  match listDirectory fuel net dirCap with
  | .error _ => []
  | .ok entries =>
      match entries.find? (·.name = name) with
      | none => []
      | some e =>
          match collectOwnWriterTargets net fuel e.cap true with
          | .error _ => []
          | .ok targets => targets.1

/-- The first operation, from the operation `n` on, that moves a pointer: that of a writing space,
of which there are some to be taken away, or that of the directory. -/
def firstMove (declines : ℕ → Bool) : ℕ → ℕ → Option ℕ
  | 0, n => if declines (n + 4) then none else some (n + 4)
  | spaces + 1, n => if declines (n + 1) then firstMove declines spaces (n + 2) else some (n + 1)

/-- The first operation of a delete that moves a pointer. -/
def firstUpdate (declines : ℕ → Bool) (fuel : ℕ) (net : Network) (dirCap : AbsoluteCapability)
    (name : String) : Option ℕ :=
  firstMove declines (ownWritersBelow fuel net dirCap name).length 2

/-! ## What must not change -/

/-- A directory lists a child. -/
def Lists (net : Network) (a b : AbsoluteCapability) : Prop :=
  ∃ fuel entries, listDirectory fuel net a = .ok entries ∧ ∃ e ∈ entries, e.cap = b

/-- The directory lists the same, and everything below it reads the same. -/
structure Unchanged (H : ContentHasher) (dirCap : AbsoluteCapability) (net net' : Network) :
    Prop where
  listing : ∀ fuel, listDirectory fuel net' dirCap = listDirectory fuel net dirCap
  metadata : ∀ b, Relation.TransGen (Lists net) dirCap b →
    retrieveFileMetadata net' b = retrieveFileMetadata net b
  content : ∀ b, Relation.TransGen (Lists net) dirCap b →
    ∀ fuel, readFile H fuel net' b = readFile H fuel net b ∧
      listDirectory fuel net' b = listDirectory fuel net b

theorem Unchanged.refl (H : ContentHasher) (dirCap : AbsoluteCapability) (net : Network) :
    Unchanged H dirCap net net :=
  ⟨fun _ => rfl, fun _ _ => rfl, fun _ _ _ => ⟨rfl, rfl⟩⟩

/-! ## When nothing is refused or declined -/

section Tracks

variable {fails declines : ℕ → Bool} {refusal : Fault}

/-- A change that begins with a look at the trees. -/
theorem onTrees_query_bind {α β : Type} (q : Network → Result α) (f : α → Exec Network Fault β) :
    onTrees (query q >>= f) =
      (query (fun s : Spaces => q s.network) >>= fun a => onTrees (f a)) := by
  funext s
  cases hq : q s.network with
  | ok a =>
      rw [bind_of_ok (show query (fun s : Spaces => q s.network) s = (.ok a, s) from
        Prod.ext hq rfl)]
      unfold onTrees zoom
      rw [bind_of_ok (show query q s.network = (.ok a, s.network) from Prod.ext hq rfl)]
  | error e =>
      rw [bind_of_error (show query (fun s : Spaces => q s.network) s = (.error e, s) from
        Prod.ext hq rfl)]
      exact onTrees_of_error (bind_of_error (Prod.ext hq rfl))

theorem onTrees_fail {α : Type} (e : Fault) :
    onTrees (Exec.fail e : Exec Network Fault α) = Exec.fail e :=
  funext fun _ => onTrees_of_error rfl

theorem unlinkSteps_tracks (hfails : ∀ n, fails n = false)
    (hdeclines : ∀ n, declines n = false) (H : ContentHasher) (fuel : ℕ)
    (dirCap : AbsoluteCapability) (name : String)
    (entrySigner : Option SigningPrivateKeyAndPublicHash) (mirrorBat : Option BatId) :
    Tracks (unlinkSteps fails declines refusal H fuel dirCap name entrySigner mirrorBat)
      (onTrees (unlinkAndRemove H fuel dirCap name entrySigner mirrorBat)) := by
  have hlift : ∀ {α β : Type} (r : Result α) (f : α → Exec Network Fault β),
      onTrees (Exec.lift r >>= f) = (query (fun _ : Spaces => r) >>= fun a => onTrees (f a)) :=
    fun r f => onTrees_query_bind (fun _ => r) f
  unfold unlinkAndRemove
  rw [onTrees_query_bind]
  refine Tracks.bind (Tracks.op hfails _) fun ctx => ?_
  rw [hlift]
  refine Tracks.bind (Tracks.op hfails _) fun chunks => ?_
  cases replaceFirst name (fun _ => []) chunks with
  | none =>
      rw [onTrees_fail]
      exact Tracks.fail _
  | some r =>
      dsimp only
      rw [hlift]
      refine Tracks.bind (Tracks.op hfails _) fun champ => ?_
      rw [hlift]
      refine Tracks.bind (Tracks.op hfails _) fun champ => ?_
      exact (Tracks.answered hfails hdeclines _ _).bind_op_pure hfails

theorem deauthorizeSteps_tracks (hfails : ∀ n, fails n = false)
    (hdeclines : ∀ n, declines n = false) (dirCap : AbsoluteCapability)
    (writer : PublicKeyHash) (entrySigner : Option SigningPrivateKeyAndPublicHash) :
    Tracks (deauthorizeSteps fails declines refusal dirCap writer entrySigner)
      (deauthorizeWriter dirCap writer entrySigner) := by
  have hrest : ∀ signer : SigningPrivateKeyAndPublicHash, Tracks
      (op fails refusal (reads fun s : Spaces => s signer.publicKeyHash) >>= fun found =>
        match found with
        | none => Exec.fail (.err (.protocol "parent writer has no data"))
        | some space =>
            match space.owned with
            | none => Exec.fail (.err (.protocol "parent writer has no owned champ"))
            | some owned =>
                if owned writer then do
                  answered fails declines refusal
                    (update fun s => Function.update s signer.publicKeyHash
                      (some { space with owned := some (Function.update owned writer false) }))
                    (Exec.fail (.err (.protocol "deauthorise pointer rejected")))
                  op fails refusal (pure ())
                else pure ())
      (reads (fun s : Spaces => s signer.publicKeyHash) >>= fun found =>
        match found with
        | none => Exec.fail (.err (.protocol "parent writer has no data"))
        | some space =>
            match space.owned with
            | none => Exec.fail (.err (.protocol "parent writer has no owned champ"))
            | some owned =>
                if owned writer then
                  update fun s => Function.update s signer.publicKeyHash
                    (some { space with owned := some (Function.update owned writer false) })
                else pure ()) := by
    intro signer
    refine Tracks.bind (Tracks.op hfails _) fun found => ?_
    rcases found with _ | ⟨tree, _ | owned⟩
    · exact Tracks.fail _
    · exact Tracks.fail _
    · dsimp only
      split
      · exact (Tracks.answered hfails hdeclines _ _).bind_op_pure hfails
      · exact Tracks.pure ()
  intro s n
  have hsigner : deauthorizeWriter dirCap writer entrySigner =
      (query (fun s : Spaces => parentWriterSigner s.network dirCap entrySigner) >>= _) := rfl
  unfold deauthorizeSteps
  rw [hsigner, bind_of_ok (attempt_of_run (op_of_passes (hfails n)))]
  have hsame : signerOr (query (fun s : Spaces => recoverSigner s.network dirCap) s).1 entrySigner =
      parentWriterSigner s.network dirCap entrySigner := rfl
  rw [hsame]
  cases hq : parentWriterSigner s.network dirCap entrySigner with
  | error e =>
      rw [bind_of_error (show query (fun s : Spaces => parentWriterSigner s.network dirCap
        entrySigner) s = (.error e, s) from Prod.ext hq rfl)]
      exact ⟨rfl, rfl⟩
  | ok signer =>
      rw [bind_of_ok (show query (fun s : Spaces => parentWriterSigner s.network dirCap
        entrySigner) s = (.ok signer, s) from Prod.ext hq rfl), lift_ok_bind]
      exact hrest signer s (n + 1)

/-- When no operation is refused or declined the steps are `delete_child`. -/
theorem deleteChildSteps_tracks (hfails : ∀ n, fails n = false)
    (hdeclines : ∀ n, declines n = false) (H : ContentHasher) (fuel : ℕ)
    (dirCap : AbsoluteCapability) (name : String)
    (entrySigner : Option SigningPrivateKeyAndPublicHash) (mirrorBat : Option BatId) :
    Tracks (deleteChildSteps fails declines refusal H fuel dirCap name entrySigner mirrorBat)
      (deleteChild H fuel dirCap name entrySigner mirrorBat) := by
  refine Tracks.bind (Tracks.op hfails _) fun entries => ?_
  have htargets : Tracks (collectSteps fails refusal fuel name entries)
      (query fun s : Spaces =>
        match entries.find? (·.name = name) with
        | some e => collectOwnWriterTargets s.network fuel e.cap true
        | none => pure ([], [])) := by
    unfold collectSteps
    cases entries.find? (·.name = name) with
    | some e => exact Tracks.op hfails _
    | none => exact Tracks.pure _
  refine htargets.bind fun targets => ?_
  refine Tracks.bind (Tracks.forEach (fun target => ?_) _) fun _ => ?_
  · exact Tracks.bind (Tracks.op hfails _) fun _ => Tracks.answered hfails hdeclines _ _
  · exact (unlinkSteps_tracks hfails hdeclines H fuel dirCap name entrySigner mirrorBat).bind fun _ =>
      Tracks.forEach (fun w => deauthorizeSteps_tracks hfails hdeclines dirCap w entrySigner) _

end Tracks

/-! ## The writing spaces below a child -/

section Collect

variable {net : Network} {fuel : ℕ} {cap : AbsoluteCapability}

/-- What the loop over the entries of a directory has collected. -/
theorem foldlM_collect_ok {β γ : Type} {f : DirEntry → Result (List β × List γ)}
    {entries : List DirEntry} {acc r : List β × List γ}
    (h : entries.foldlM (fun acc e => do
      let below ← f e
      pure (acc.1 ++ below.1, acc.2 ++ below.2)) acc = .ok r) :
    ∀ b ∈ r.1, b ∈ acc.1 ∨ ∃ e ∈ entries, ∃ below, f e = .ok below ∧ b ∈ below.1 := by
  induction entries generalizing acc with
  | nil =>
      cases h
      exact fun b hb => Or.inl hb
  | cons e entries ih =>
      rw [List.foldlM_cons] at h
      obtain ⟨acc', hacc', h⟩ := bind_eq_ok.1 h
      obtain ⟨below, hbelow, hacc'⟩ := bind_eq_ok.1 hacc'
      cases hacc'
      intro b hb
      rcases ih h b hb with hb | ⟨e', he', hrest⟩
      · rcases List.mem_append.1 hb with hb | hb
        · exact Or.inl hb
        · exact Or.inr ⟨e, List.mem_cons_self, below, hbelow, hb⟩
      · exact Or.inr ⟨e', List.mem_cons_of_mem _ he', hrest⟩

/-- The collected spaces are below the capability and their first node is there. -/
theorem collectOwnWriterTargets_reached {own : Bool}
    {targets : List AbsoluteCapability × List PublicKeyHash}
    (h : collectOwnWriterTargets net fuel cap own = .ok targets) :
    ∀ target ∈ targets.1, Relation.TransGen (Lists net) cap target ∧
      ∃ found, retrieveFileMetadata net target = .ok found := by
  induction fuel generalizing cap own targets with
  | zero => cases h
  | succ fuel ih =>
      unfold collectOwnWriterTargets at h
      obtain ⟨⟨node, props⟩, -, h⟩ := bind_eq_ok.1 h
      dsimp only at h
      split at h
      · obtain ⟨entries, hentries, h⟩ := bind_eq_ok.1 h
        cases entries with
        | nil => cases h
        | cons e entries =>
            obtain ⟨below, hbelow, h⟩ := bind_eq_ok.1 h
            cases h
            have hlists : Lists net cap e.cap :=
              ⟨fuel, e :: entries, hentries, e, List.mem_cons_self, rfl⟩
            intro target htarget
            rcases List.mem_cons.1 htarget with rfl | htarget
            · refine ⟨.single hlists, ?_⟩
              cases fuel with
              | zero => cases hbelow
              | succ fuel =>
                  unfold collectOwnWriterTargets at hbelow
                  obtain ⟨found, hfound, -⟩ := bind_eq_ok.1 hbelow
                  exact ⟨found, hfound⟩
            · obtain ⟨hreach, hfound⟩ := ih hbelow target htarget
              exact ⟨.head hlists hreach, hfound⟩
      · split at h
        · obtain ⟨entries, hentries, h⟩ := bind_eq_ok.1 h
          intro target htarget
          rcases foldlM_collect_ok h target htarget with hmem | ⟨e, he, below, hbelow, htarget⟩
          · cases hmem
          · obtain ⟨hreach, hfound⟩ := ih hbelow target htarget
            exact ⟨.head ⟨fuel, entries, hentries, e, he, rfl⟩ hreach, hfound⟩
        · cases h
          exact fun target htarget => absurd htarget List.not_mem_nil

end Collect

/-! ## A pointer that is gone -/

section Gone

variable {fails declines : ℕ → Bool} {refusal : Fault} {w : PublicKeyHash} {H : ContentHasher}
  {fuel : ℕ} {dirCap : AbsoluteCapability} {name : String}
  {entrySigner : Option SigningPrivateKeyAndPublicHash} {mirrorBat : Option BatId}

theorem deleteWriterSubspace_keeps (signer : SigningPrivateKeyAndPublicHash) :
    Keeps (fun s : Spaces => s w = none) (deleteWriterSubspace signer) := by
  refine Keeps.update fun s hs => ?_
  by_cases hw : w = signer.publicKeyHash
  · rw [hw, Function.update_self]
  · rw [Function.update_of_ne hw, hs]

theorem nullSteps_keeps (target : AbsoluteCapability) :
    Keeps (fun s : Spaces × ℕ => s.1 w = none) (nullSteps fails declines refusal target) := by
  have hlook : Keeps (fun s : Spaces => s w = none)
      (query fun s : Spaces => recoverSigner s.network target) := Keeps.query _
  exact hlook.op.bind fun signer => (deleteWriterSubspace_keeps signer).answered (Keeps.pure ())

theorem unlinkSteps_keeps : Keeps (fun s : Spaces × ℕ => s.1 w = none)
    (unlinkSteps fails declines refusal H fuel dirCap name entrySigner mirrorBat) := by
  -- the directory is in a space that is there
  have hbegin : Triple (fun s : Spaces => s w = none)
      (query fun s : Spaces => beginDirWrite s.network dirCap entrySigner mirrorBat)
      (fun _ s => s w = none ∧ dirCap.writer ≠ w) fun _ s => s w = none := by
    refine Triple.query_fact fun s ctx hs hctx heq => ?_
    have hnet := (beginDirWrite_ok hctx).1
    rw [heq, Spaces.network, hs] at hnet
    cases hnet
  refine Triple.bind (hbegin.op fun _ hs => hs) fun ctx => Triple.of_fact fun hne => ?_
  have hlook : ∀ {α : Type} (r : Result α), Keeps (fun s : Spaces × ℕ => s.1 w = none)
      (op fails refusal (query fun _ : Spaces => r)) := fun r =>
    Keeps.op (show Keeps (fun s : Spaces => s w = none) _ from Keeps.query _)
  refine Triple.bind (hlook _) fun chunks => ?_
  cases replaceFirst name (fun _ => []) chunks with
  | none => exact Keeps.fail _
  | some r =>
      refine Triple.bind (hlook _) fun champ => Triple.bind (hlook _) fun champ => ?_
      have hcommit : Keeps (fun s : Spaces => s w = none) (onTrees (commitTree dirCap.writer
          ctx.signer champ "setPointer rejected (concurrent modification?)")) := by
        intro s hs
        by_cases hsigner : ctx.signer.publicKeyHash = dirCap.writer
        · rw [onTrees_of_ok (by rw [commitTree, if_pos hsigner])]
          show Spaces.withNetwork (Function.update s.network dirCap.writer (some champ)) s w = none
          rw [Spaces.withNetwork, Function.update_of_ne hne.symm, Spaces.network, hs]
          rfl
        · rw [onTrees_of_error (by rw [commitTree, if_neg hsigner]; rfl)]
          exact hs
      exact (hcommit.answered (Keeps.fail _)).bind fun _ =>
        Keeps.op (show Keeps (fun s : Spaces => s w = none) _ from Keeps.pure ())

theorem deauthorizeSteps_keeps (writer : PublicKeyHash) :
    Keeps (fun s : Spaces × ℕ => s.1 w = none)
      (deauthorizeSteps fails declines refusal dirCap writer entrySigner) := by
  have hown : Keeps (fun s : Spaces => s w = none)
      (query fun s : Spaces => recoverSigner s.network dirCap) := Keeps.query _
  refine hown.op.attempt.bind fun own => (Keeps.lift _).bind fun parentWriter => ?_
  have hread : Triple (fun s : Spaces => s w = none)
      (reads fun s : Spaces => s parentWriter.publicKeyHash : Exec Spaces Fault _)
      (fun found s => s w = none ∧ (found ≠ none → parentWriter.publicKeyHash ≠ w))
      fun _ s => s w = none :=
    Triple.reads fun s hs => ⟨hs, fun hfound heq => hfound (heq ▸ hs)⟩
  refine Triple.bind (hread.op fun _ hs => hs) fun found => Triple.of_fact fun hne => ?_
  cases found with
  | none => exact Keeps.fail _
  | some space =>
      dsimp only
      cases space.owned with
      | none => exact Keeps.fail _
      | some owned =>
          dsimp only
          split
          · have hupdate : Keeps (fun s : Spaces => s w = none) (update (fun s : Spaces =>
                Function.update s parentWriter.publicKeyHash
                  (some { space with owned := some (Function.update owned writer false) })) :
                Exec Spaces Fault Unit) := by
              refine Keeps.update fun s hs => ?_
              rw [Function.update_of_ne (hne (by simp)).symm, hs]
            exact (hupdate.answered (Keeps.fail _)).bind fun _ =>
              Keeps.op (show Keeps (fun s : Spaces => s w = none) _ from Keeps.pure ())
          · exact Keeps.pure ()

/-- What is taken from an owned champ is no node. -/
theorem deauthorizeSteps_keeps_network (net : Network) (writer : PublicKeyHash) :
    Keeps (fun s : Spaces × ℕ => s.1.network = net)
      (deauthorizeSteps fails declines refusal dirCap writer entrySigner) := by
  have hown : Keeps (fun s : Spaces => s.network = net)
      (query fun s : Spaces => recoverSigner s.network dirCap) := Keeps.query _
  refine hown.op.attempt.bind fun own => (Keeps.lift _).bind fun parentWriter => ?_
  have hread : Triple (fun s : Spaces => s.network = net)
      (reads fun s : Spaces => s parentWriter.publicKeyHash : Exec Spaces Fault _)
      (fun found s => s.network = net ∧ found.map (·.tree) = net parentWriter.publicKeyHash)
      fun _ s => s.network = net :=
    Triple.reads fun s hs => ⟨hs, congrFun hs _⟩
  refine Triple.bind (hread.op fun _ hs => hs) fun found => Triple.of_fact fun htree => ?_
  cases found with
  | none => exact Keeps.fail _
  | some space =>
      dsimp only
      cases space.owned with
      | none => exact Keeps.fail _
      | some owned =>
          dsimp only
          split
          · have hupdate : Keeps (fun s : Spaces => s.network = net) (update (fun s : Spaces =>
                Function.update s parentWriter.publicKeyHash
                  (some { space with owned := some (Function.update owned writer false) })) :
                Exec Spaces Fault Unit) := by
              refine Keeps.update fun s hs => funext fun v => ?_
              by_cases hv : v = parentWriter.publicKeyHash
              · rw [hv, ← htree, Spaces.network, Function.update_self]
                rfl
              · rw [Spaces.network, Function.update_of_ne hv, ← hs, Spaces.network]
            exact (hupdate.answered (Keeps.fail _)).bind fun _ =>
              Keeps.op (show Keeps (fun s : Spaces => s.network = net) _ from Keeps.pure ())
          · exact Keeps.pure ()

end Gone

/-! ## Pointers set to nothing -/

section Nulled

variable {s s₁ s₂ : Spaces} {cap : AbsoluteCapability} {signer : SigningPrivateKeyAndPublicHash}

/-- Some pointers have been set to nothing. -/
def Nulled (s s₁ : Spaces) : Prop := ∀ w, s₁ w = none ∨ s₁ w = s w

theorem Nulled.network_eq {w : PublicKeyHash} {t : Tree} (h : Nulled s s₁)
    (hw : s₁.network w = some t) : s.network w = some t := by
  rcases h w with hnone | hsame
  · rw [Spaces.network, hnone] at hw
    cases hw
  · rw [← hw, Spaces.network, Spaces.network, hsame]

theorem openWriterRoot_eq_ok {net : Network} {w : PublicKeyHash} {t : Tree} :
    openWriterRoot net w = .ok t ↔ net w = some t := by
  unfold openWriterRoot
  cases net w <;> simp

/-- A signer that can still be looked up could be before. -/
theorem recoverSigner_of_nulled (h : Nulled s s₁)
    (hsigner : recoverSigner s₁.network cap = .ok signer) :
    recoverSigner s.network cap = .ok signer := by
  unfold recoverSigner at hsigner ⊢
  cases hkey : cap.wBaseKey with
  | none =>
      rw [hkey] at hsigner
      cases hsigner
  | some wBaseKey =>
      rw [hkey] at hsigner
      obtain ⟨found, hfound, hsigner⟩ := bind_eq_ok.1 hsigner
      unfold retrieveFileMetadata at hfound
      obtain ⟨root, hroot, hfound⟩ := bind_eq_ok.1 hfound
      have hroot' := openWriterRoot_eq_ok.2 (h.network_eq (openWriterRoot_eq_ok.1 hroot))
      dsimp only
      rw [retrieveFileMetadata, hroot', ok_bind, hfound, ok_bind]
      exact hsigner

/-- What the nulling of some spaces, one after the other, has looked up. -/
theorem forEach_nulled {l : List AbsoluteCapability} (h : Nulled s s₁)
    (hrun : forEach l (fun target => do
      let signer ← query fun s : Spaces => recoverSigner s.network target
      deleteWriterSubspace signer) s₁ = (.ok (), s₂)) :
    Nulled s s₂ ∧ ∀ target ∈ l, ∃ signer, recoverSigner s.network target = .ok signer := by
  induction l generalizing s₁ with
  | nil =>
      cases hrun
      exact ⟨h, fun target htarget => absurd htarget List.not_mem_nil⟩
  | cons target l ih =>
      obtain ⟨_, s', hone, hrun⟩ := Exec.bind_eq_ok hrun
      obtain ⟨signer, hsigner, hone⟩ := Exec.query_bind_eq_ok hone
      cases hone
      have h' : Nulled s (Function.update s₁ signer.publicKeyHash none) := by
        intro w
        by_cases hw : w = signer.publicKeyHash
        · exact Or.inl (by rw [hw, Function.update_self])
        · rw [Function.update_of_ne hw]
          exact h w
      obtain ⟨hnulled, hall⟩ := ih h' hrun
      refine ⟨hnulled, fun b hb => ?_⟩
      rcases List.mem_cons.1 hb with rfl | hb
      · exact ⟨signer, recoverSigner_of_nulled h hsigner⟩
      · exact hall b hb

/-- The commit needs no space but that of the directory. -/
theorem unlinkAndRemove_of_nulled {H : ContentHasher} {fuel : ℕ} {dirCap : AbsoluteCapability}
    {name : String} {entrySigner : Option SigningPrivateKeyAndPublicHash}
    {mirrorBat : Option BatId} {net₁ : Network} (h : Nulled s s₁)
    (hrun : unlinkAndRemove H fuel dirCap name entrySigner mirrorBat s₁.network = (.ok (), net₁)) :
    ∃ net', unlinkAndRemove H fuel dirCap name entrySigner mirrorBat s.network =
      (.ok (), net') := by
  unfold unlinkAndRemove at hrun ⊢
  obtain ⟨ctx, hctx, hrun⟩ := Exec.query_bind_eq_ok hrun
  have hctx' := beginDirWrite_congr hctx (h.network_eq (beginDirWrite_ok hctx).1) rfl
  obtain ⟨ds, hds, hrun⟩ := Exec.lift_bind_eq_ok hrun
  rw [bind_of_ok (show query (fun net => beginDirWrite net dirCap entrySigner mirrorBat) s.network =
    (.ok ctx, s.network) from Prod.ext hctx' rfl), hds, lift_ok_bind]
  cases hreplace : replaceFirst name (fun _ => []) ds with
  | none =>
      rw [hreplace] at hrun
      cases hrun
  | some r =>
      rw [hreplace] at hrun
      obtain ⟨t₁, ht₁, hrun⟩ := Exec.lift_bind_eq_ok hrun
      obtain ⟨t₂, ht₂, hrun⟩ := Exec.lift_bind_eq_ok hrun
      dsimp only
      rw [ht₁, lift_ok_bind, ht₂, lift_ok_bind]
      rw [commitTree] at hrun
      by_cases hsigner : ctx.signer.publicKeyHash = dirCap.writer
      · exact ⟨_, by rw [commitTree, if_pos hsigner]⟩
      · rw [if_neg hsigner] at hrun
        cases hrun

end Nulled

/-! ## A delete that would succeed -/

section Failed

variable {fails declines : ℕ → Bool} {refusal : Fault} {H : ContentHasher} {fuel maxLinks : ℕ}
  {dirCap : AbsoluteCapability} {name : String} {t : Tree}
  {entrySigner : Option SigningPrivateKeyAndPublicHash} {mirrorBat : Option BatId}
  {m : String → Option NamedRelativeCapability} {s : Spaces} {net' : Network}

/-- The commit: a refusal up to the move of the pointer, or the server declining it, changes
nothing, otherwise it is made. -/
theorem unlinkSteps_of_ok (fails declines : ℕ → Bool) (refusal : Fault)
    (h : unlinkAndRemove H fuel dirCap name entrySigner mirrorBat s.network = (.ok (), net'))
    (n : ℕ) :
    ((declines (n + 4) = true ∨ ∃ i, n ≤ i ∧ i ≤ n + 4 ∧ fails i = true) ∧
        ∃ e k, unlinkSteps fails declines refusal H fuel dirCap name entrySigner mirrorBat (s, n) =
          (.error e, (s, k))) ∨
      declines (n + 4) = false ∧ (∀ i, n ≤ i → i ≤ n + 4 → fails i = false) ∧
        (unlinkSteps fails declines refusal H fuel dirCap name entrySigner mirrorBat (s, n)).2.1 =
          Spaces.withNetwork net' s := by
  unfold unlinkAndRemove at h
  obtain ⟨ctx, hctx, h⟩ := Exec.query_bind_eq_ok h
  obtain ⟨ds, hds, h⟩ := Exec.lift_bind_eq_ok h
  cases hreplace : replaceFirst name (fun _ => []) ds with
  | none =>
      rw [hreplace] at h
      cases h
  | some r =>
      obtain ⟨link, ds'⟩ := r
      rw [hreplace] at h
      obtain ⟨t₁, ht₁, h⟩ := Exec.lift_bind_eq_ok h
      obtain ⟨t₂, ht₂, h⟩ := Exec.lift_bind_eq_ok h
      unfold unlinkSteps
      by_cases h0 : fails n = true
      · exact Or.inl ⟨Or.inr ⟨n, le_rfl, by omega, h0⟩, _, _, op_bind_of_fails h0⟩
      rw [Bool.not_eq_true] at h0
      rw [op_query_bind_of_ok (s := s) h0 hctx]
      by_cases h1 : fails (n + 1) = true
      · exact Or.inl ⟨Or.inr ⟨n + 1, by omega, by omega, h1⟩, _, _, op_bind_of_fails h1⟩
      rw [Bool.not_eq_true] at h1
      rw [op_query_bind_of_ok (s := s) h1 hds, hreplace]
      dsimp only
      by_cases h2 : fails (n + 1 + 1) = true
      · exact Or.inl ⟨Or.inr ⟨n + 2, by omega, by omega, h2⟩, _, _, op_bind_of_fails h2⟩
      rw [Bool.not_eq_true] at h2
      rw [op_query_bind_of_ok (s := s) h2 ht₁]
      by_cases h3 : fails (n + 1 + 1 + 1) = true
      · exact Or.inl ⟨Or.inr ⟨n + 3, by omega, by omega, h3⟩, _, _, op_bind_of_fails h3⟩
      rw [Bool.not_eq_true] at h3
      rw [op_query_bind_of_ok (s := s) h3 ht₂]
      by_cases h4 : fails (n + 1 + 1 + 1 + 1) = true
      · exact Or.inl ⟨Or.inr ⟨n + 4, by omega, by omega, h4⟩, _, _,
          bind_of_error (answered_of_fails h4)⟩
      rw [Bool.not_eq_true] at h4
      by_cases hdeclines : declines (n + 4) = true
      · have hstop : ∀ (x : Exec Spaces Fault Unit) (e : Fault),
            answered fails declines refusal x (Exec.fail e) (s, n + 4) =
              (.error e, (s, n + 5)) := by
          intro x e
          rw [answered_of_declines hdeclines, op_of_passes h4]
          rfl
        exact Or.inl ⟨Or.inl hdeclines, _, _, bind_of_error (hstop _ _)⟩
      rw [Bool.not_eq_true] at hdeclines
      rw [bind_of_ok (by rw [answered_of_takes hdeclines, op_of_passes h4, onTrees_of_ok h])]
      refine Or.inr ⟨hdeclines, fun i hle hge => ?_, ?_⟩
      · obtain ⟨j, rfl⟩ := Nat.exists_eq_add_of_le hle
        have hj : j ≤ 4 := by omega
        interval_cases j
        · exact h0
        · exact h1
        · exact h2
        · exact h3
        · exact h4
      · -- the end of the transaction changes nothing either way
        by_cases h5 : fails (n + 1 + 1 + 1 + 1 + 1) = true
        · rw [op_of_fails h5]
        · rw [op_of_passes (by simpa using h5)]
          rfl

/-- The child is no longer listed. -/
theorem not_unchanged_of_unlinked {t' : Tree} {net : Network} {link : NamedRelativeCapability}
    {entries : List DirEntry} (hnet : net dirCap.writer = some t)
    (h : HoldsDirectory maxLinks dirCap m t) (hlink : m name = some link)
    (hentries : listDirectory fuel net dirCap = .ok entries)
    (hnet' : net' dirCap.writer = some t')
    (h' : HoldsDirectory maxLinks dirCap (Function.update m name none) t') :
    ¬Unchanged H dirCap net net' := by
  intro hsame
  obtain ⟨chunks, tail, hlists, hne, -, hrep⟩ := h
  obtain ⟨chunks', tail', hlists', hne', -, hrep'⟩ := h'
  set n := max fuel (max chunks.length chunks'.length) with hn
  have hbefore := listDirectory_mono (show fuel ≤ n by omega) hentries
  have hafter := (hsame.listing n).trans hbefore
  rw [hlists.listDirectory_eq hne hnet (by omega)] at hbefore
  rw [hlists'.listDirectory_eq hne' hnet' (by omega)] at hafter
  -- the names of the listing are those of the links, before and after
  have hnames := (names_of_mapM_toEntry hafter).symm.trans (names_of_mapM_toEntry hbefore)
  obtain ⟨hmem, hname⟩ := (hrep.some_iff name link).1 hlink
  have hmem' : name ∈ (chunks'.flatMap Prod.snd).map (·.name) := by
    rw [hnames]
    exact hname ▸ List.mem_map_of_mem hmem
  obtain ⟨link', hlink', hname'⟩ := List.mem_map.1 hmem'
  have := (hrep'.some_iff name link').2 ⟨hlink', hname'⟩
  rw [Function.update_self] at this
  cases this

/-- One writing space: its signer is looked up and its pointer moved, if the server does so. -/
theorem nullSteps_run (fails declines : ℕ → Bool) (refusal : Fault) {target : AbsoluteCapability}
    {signer : SigningPrivateKeyAndPublicHash}
    (hrecover : recoverSigner s.network target = .ok signer) (n : ℕ) :
    nullSteps fails declines refusal target (s, n) =
      if fails n then (.error refusal, (s, n + 1))
      else if fails (n + 1) then (.error refusal, (s, n + 1 + 1))
      else if declines (n + 1) then (.ok (), (s, n + 1 + 1))
      else (.ok (), (Function.update s signer.publicKeyHash none, n + 1 + 1)) := by
  unfold nullSteps
  by_cases h : fails n = true
  · rw [op_bind_of_fails h, if_pos h]
  · rw [op_query_bind_of_ok (s := s) (Bool.not_eq_true _ ▸ h) hrecover, if_neg h]
    by_cases h' : fails (n + 1) = true
    · rw [answered_of_fails h', if_pos h']
    · rw [if_neg h']
      cases hdeclines : declines (n + 1) with
      | true =>
          rw [answered_of_declines hdeclines, op_of_passes (Bool.not_eq_true _ ▸ h')]
          rfl
      | false =>
          rw [answered_of_takes hdeclines, op_of_passes (Bool.not_eq_true _ ▸ h')]
          rfl

/-- Something below the directory is in a writing space that is gone. -/
theorem not_unchanged_of_gone {net : Network} {target : AbsoluteCapability}
    (hreach : Relation.TransGen (Lists net) dirCap target)
    (hfound : ∃ found, retrieveFileMetadata net target = .ok found)
    (hgone : net' target.writer = none) : ¬Unchanged H dirCap net net' := by
  intro hsame
  obtain ⟨found, hfound⟩ := hfound
  have hmeta := hsame.metadata target hreach
  rw [hfound, retrieveFileMetadata, openWriterRoot, hgone] at hmeta
  cases hmeta

/-- A link that a change finds is one of the directory. -/
theorem HoldsDirectory.eq_some_of_replaceFirst {ds ds' : List DirChunk}
    {link : NamedRelativeCapability} {node : CryptreeNode} {u : String}
    (h : HoldsDirectory maxLinks dirCap m t)
    (hnode : (fetchChunkNode t dirCap.rBaseKey dirCap.mapKey).filter (·.isDirectory) = some node)
    (hwalk : walkDirChunks u t dirCap.rBaseKey fuel dirCap.mapKey node = .ok ds)
    (hreplace : replaceFirst name (fun _ => []) ds = some (link, ds')) : m name = some link := by
  obtain ⟨tail, -, -, -, -, hall, hrep, -⟩ := h.walk hnode hwalk
  obtain ⟨hname, -, -, ⟨others, hperm, -⟩, -⟩ :=
    replaceFirst_ok hreplace (fun _ => Nat.zero_le 1) hall
  exact (hrep.some_iff name link).2 ⟨hperm.mem_iff.2 List.mem_cons_self, hname⟩

/-- A child that was unlinked had a link. -/
theorem unlinkAndRemove_listed {net : Network} (hnet : net dirCap.writer = some t)
    (h : HoldsDirectory maxLinks dirCap m t)
    (hrun : unlinkAndRemove H fuel dirCap name entrySigner mirrorBat net = (.ok (), net')) :
    ∃ link, m name = some link := by
  unfold unlinkAndRemove at hrun
  obtain ⟨ctx, hctx, hrun⟩ := Exec.query_bind_eq_ok hrun
  obtain ⟨ds, hds, hrun⟩ := Exec.lift_bind_eq_ok hrun
  obtain rfl : t = ctx.champ := Option.some.inj (hnet.symm.trans (beginDirWrite_ok hctx).1)
  cases hreplace : replaceFirst name (fun _ => []) ds with
  | none =>
      rw [hreplace] at hrun
      cases hrun
  | some r => exact ⟨r.1, h.eq_some_of_replaceFirst (beginDirWrite_dirNode hctx) hds hreplace⟩

/-- Nothing is unlinked if there is no link. -/
theorem unlinkSteps_of_absent (hnet : s.network dirCap.writer = some t)
    (h : HoldsDirectory maxLinks dirCap m t) (habsent : m name = none) (n : ℕ) :
    ∃ e k, unlinkSteps fails declines refusal H fuel dirCap name entrySigner mirrorBat (s, n) =
      (.error e, (s, k)) := by
  unfold unlinkSteps
  by_cases h0 : fails n = true
  · exact ⟨_, _, op_bind_of_fails h0⟩
  rw [Bool.not_eq_true] at h0
  cases hctx : beginDirWrite s.network dirCap entrySigner mirrorBat with
  | error e => exact ⟨e, _, bind_of_error (by rw [op_of_passes h0, query_run, hctx])⟩
  | ok ctx =>
      rw [op_query_bind_of_ok (s := s) h0 hctx]
      obtain rfl : t = ctx.champ := Option.some.inj (hnet.symm.trans (beginDirWrite_ok hctx).1)
      by_cases h1 : fails (n + 1) = true
      · exact ⟨_, _, op_bind_of_fails h1⟩
      rw [Bool.not_eq_true] at h1
      cases hds : walkDirChunks "legacy directory format not supported for deletes" ctx.champ
          dirCap.rBaseKey fuel dirCap.mapKey ctx.dirNode with
      | error e => exact ⟨e, _, bind_of_error (by rw [op_of_passes h1, query_run])⟩
      | ok ds =>
          rw [op_query_bind_of_ok (s := s) (q := fun _ => .ok ds) h1 rfl]
          cases hreplace : replaceFirst name (fun _ => []) ds with
          | none => exact ⟨_, _, rfl⟩
          | some r =>
              have hsome := h.eq_some_of_replaceFirst (beginDirWrite_dirNode hctx) hds hreplace
              cases habsent.symm.trans hsome

/-- The names a directory lists. -/
theorem HoldsDirectory.mem_names_iff {net : Network} {entries : List DirEntry}
    (h : HoldsDirectory maxLinks dirCap m t) (hnet : net dirCap.writer = some t)
    (hentries : listDirectory fuel net dirCap = .ok entries) :
    name ∈ entries.map (·.name) ↔ ∃ link, m name = some link := by
  obtain ⟨chunks, tail, hlists, hne, -, hrep⟩ := h
  have hmax := listDirectory_mono (le_max_left fuel chunks.length) hentries
  rw [hlists.listDirectory_eq hne hnet (le_max_right _ _)] at hmax
  rw [names_of_mapM_toEntry hmax, List.mem_map]
  exact exists_congr fun link => (hrep.some_iff name link).symm

/-- What a delete that would succeed goes through: the listing, the child and the spaces below it,
whose pointers are set to nothing, and the commit. -/
theorem deleteChild_eq_ok (hnet : s.network dirCap.writer = some t)
    (hholds : HoldsDirectory maxLinks dirCap m t)
    (hwould : (deleteChild H fuel dirCap name entrySigner mirrorBat s).1 = .ok ()) :
    ∃ entries e targets link, listDirectory fuel s.network dirCap = .ok entries ∧
      entries.find? (·.name = name) = some e ∧ m name = some link ∧
      collectOwnWriterTargets s.network fuel e.cap true = .ok targets ∧
      ∃ s₁, forEach targets.1.reverse (fun target => do
          let signer ← Exec.query fun s : Spaces => recoverSigner s.network target
          deleteWriterSubspace signer) s = (.ok (), s₁) ∧
        ∃ net', unlinkAndRemove H fuel dirCap name entrySigner mirrorBat s₁.network =
          (.ok (), net') := by
  obtain ⟨s', hrun⟩ : ∃ s', deleteChild H fuel dirCap name entrySigner mirrorBat s = (.ok (), s') :=
    ⟨_, Prod.ext hwould rfl⟩
  unfold deleteChild at hrun
  obtain ⟨entries, hentries, hrun⟩ := Exec.query_bind_eq_ok hrun
  obtain ⟨targets, htargets, hrun⟩ := Exec.query_bind_eq_ok hrun
  obtain ⟨_, s₁, hnull, hrun⟩ := Exec.bind_eq_ok hrun
  obtain ⟨_, s₂, htrees, hrun⟩ := Exec.bind_eq_ok hrun
  have hunlink := onTrees_eq_ok htrees
  have hnames : name ∈ entries.map (·.name) ↔ ∃ link, m name = some link :=
    hholds.mem_names_iff hnet hentries
  cases hfind : entries.find? (·.name = name) with
  | some e =>
      rw [hfind] at htargets
      have hname : e.name = name := by simpa using List.find?_some hfind
      obtain ⟨link, hlink⟩ :=
        hnames.1 (hname ▸ List.mem_map_of_mem (List.mem_of_find?_eq_some hfind))
      exact ⟨entries, e, targets, link, hentries, hfind, hlink, htargets, s₁, hnull, _, hunlink⟩
  | none =>
      -- a child that is not listed is not there to be unlinked
      rw [hfind] at htargets
      cases htargets
      cases hnull
      obtain ⟨e, he, hname⟩ :=
        List.mem_map.1 (hnames.2 (unlinkAndRemove_listed hnet hholds hunlink))
      have hnone := List.find?_eq_none.1 hfind e he
      simp [hname] at hnone

/-- No pointer is going to move, or an operation is refused before one has. -/
def StopsInTime (fails declines : ℕ → Bool) (spaces n : ℕ) : Prop :=
  ∀ k, firstMove declines spaces n = some k → ∃ i, n ≤ i ∧ i ≤ k ∧ fails i = true

theorem firstMove_le {spaces n k : ℕ} (h : firstMove declines spaces n = some k) : n + 1 ≤ k := by
  induction spaces generalizing n with
  | zero =>
      unfold firstMove at h
      split at h
      · cases h
      · obtain rfl := Option.some.inj h
        omega
  | succ spaces ih =>
      unfold firstMove at h
      split at h
      · have := ih h
        omega
      · obtain rfl := Option.some.inj h
        omega

theorem stopsInTime_zero {n : ℕ} : StopsInTime fails declines 0 n ↔
    declines (n + 4) = true ∨ ∃ i, n ≤ i ∧ i ≤ n + 4 ∧ fails i = true := by
  cases h : declines (n + 4) <;> simp [StopsInTime, firstMove, h]

/-- The two operations of a space that are not refused. -/
theorem stopsInTime_succ {spaces n : ℕ} (h : fails n = false) (h' : fails (n + 1) = false) :
    StopsInTime fails declines (spaces + 1) n ↔
      declines (n + 1) = true ∧ StopsInTime fails declines spaces (n + 2) := by
  have hlater : ∀ i, n ≤ i → fails i = true → n + 2 ≤ i := by
    intro i hle hfail
    by_contra hlt
    obtain rfl | rfl : i = n ∨ i = n + 1 := by omega
    · exact Bool.false_ne_true (h.symm.trans hfail)
    · exact Bool.false_ne_true (h'.symm.trans hfail)
  unfold StopsInTime
  rw [firstMove]
  cases hdeclines : declines (n + 1) with
  | true =>
      simp only [if_true, true_and]
      refine forall₂_congr fun k _ => exists_congr fun i => ?_
      exact ⟨fun hi => ⟨hlater i hi.1 hi.2.2, hi.2⟩, fun hi => ⟨by omega, hi.2⟩⟩
  | false =>
      refine iff_of_false (fun hstops => ?_) fun hstops => Bool.false_ne_true hstops.1
      obtain ⟨i, hle, hge, hfail⟩ := hstops (n + 1) (by simp)
      have := hlater i hle hfail
      omega

/-- What is left to do of a delete, with these writing spaces still to be taken away. -/
theorem remaining_keeps {w : PublicKeyHash} {l : List AbsoluteCapability}
    {writers : List PublicKeyHash} :
    Keeps (fun s : Spaces × ℕ => s.1 w = none)
      (forEach l (nullSteps fails declines refusal) >>= fun _ =>
        unlinkSteps fails declines refusal H fuel dirCap name entrySigner mirrorBat >>= fun _ =>
          forEach writers fun writer =>
            deauthorizeSteps fails declines refusal dirCap writer entrySigner) :=
  (Keeps.forEach (fun _ => nullSteps_keeps _) _).bind fun _ =>
    unlinkSteps_keeps.bind fun _ => Keeps.forEach (fun _ => deauthorizeSteps_keeps _) _

/-- A delete that fails with no writing space left to be taken away. -/
theorem unchanged_iff_of_unlinking {link : NamedRelativeCapability} {entries : List DirEntry}
    {writers : List PublicKeyHash} {n : ℕ} {e : Fault} {s' : Spaces × ℕ}
    (hnet : s.network dirCap.writer = some t) (hholds : HoldsDirectory maxLinks dirCap m t)
    (hown : ∀ chunks tail, ListsFrom t dirCap.rBaseKey dirCap.mapKey chunks tail →
      ∀ l ∈ chunks.flatMap Prod.snd, l.name = name →
        ∀ k ∈ chunks.map Prod.fst, ¬Below H t l.cap.loc k)
    (hlink : m name = some link) (hentries : listDirectory fuel s.network dirCap = .ok entries)
    (hunlink : unlinkAndRemove H fuel dirCap name entrySigner mirrorBat s.network = (.ok (), net'))
    (hrun : (unlinkSteps fails declines refusal H fuel dirCap name entrySigner mirrorBat >>=
      fun _ => forEach writers fun writer =>
        deauthorizeSteps fails declines refusal dirCap writer entrySigner) (s, n) =
      (.error e, s')) :
    Unchanged H dirCap s.network s'.1.network ↔ StopsInTime fails declines 0 n := by
  rw [stopsInTime_zero]
  rcases unlinkSteps_of_ok fails declines refusal hunlink n with
    ⟨hstops, e', k, hstop⟩ | ⟨hdeclines, hpass, hcommit⟩
  · rw [bind_of_error hstop] at hrun
    cases hrun
    exact iff_of_true (.refl _ _ _) hstops
  · -- after the commit only the owned champ of the parent's writer changes
    have hnet' : s'.1.network = net' := by
      rcases hsteps : unlinkSteps fails declines refusal H fuel dirCap name entrySigner mirrorBat
        (s, n) with ⟨r, s₂⟩
      rw [hsteps] at hcommit
      have hs₂ : s₂.1.network = net' := by rw [hcommit, network_withNetwork]
      cases r with
      | ok a =>
          rw [bind_of_ok hsteps] at hrun
          have hkeeps : Keeps (fun s : Spaces × ℕ => s.1.network = net')
              (forEach writers fun writer =>
                deauthorizeSteps fails declines refusal dirCap writer entrySigner) :=
            Keeps.forEach (deauthorizeSteps_keeps_network net') _
          have hafter := hkeeps.snd hs₂
          rw [hrun] at hafter
          exact hafter
      | error e' =>
          rw [bind_of_error hsteps] at hrun
          cases hrun
          exact hs₂
    obtain ⟨t', heq, hholds'⟩ := unlinkAndRemove_ok hnet hholds hown hunlink
    rw [hnet']
    refine iff_of_false (not_unchanged_of_unlinked hnet hholds hlink hentries
      (by rw [heq, Function.update_self]) hholds') ?_
    rintro (h | ⟨i, hle, hge, hfail⟩)
    · exact Bool.false_ne_true (hdeclines.symm.trans h)
    · exact Bool.false_ne_true ((hpass i hle hge).symm.trans hfail)

/-- A delete that fails after the child and the writing spaces below it have been found, some of
which the server has left alone.  By induction on the spaces that are still to come. -/
theorem unchanged_iff_of_targets {link : NamedRelativeCapability} {entries : List DirEntry}
    {l : List AbsoluteCapability} {writers : List PublicKeyHash} {n : ℕ} {e : Fault}
    {s' : Spaces × ℕ} (hnet : s.network dirCap.writer = some t)
    (hholds : HoldsDirectory maxLinks dirCap m t)
    (hown : ∀ chunks tail, ListsFrom t dirCap.rBaseKey dirCap.mapKey chunks tail →
      ∀ l ∈ chunks.flatMap Prod.snd, l.name = name →
        ∀ k ∈ chunks.map Prod.fst, ¬Below H t l.cap.loc k)
    (hlink : m name = some link) (hentries : listDirectory fuel s.network dirCap = .ok entries)
    (hunlink : unlinkAndRemove H fuel dirCap name entrySigner mirrorBat s.network = (.ok (), net'))
    (hreached : ∀ target ∈ l, Relation.TransGen (Lists s.network) dirCap target ∧
      ∃ found, retrieveFileMetadata s.network target = .ok found)
    (hsigner : ∀ target ∈ l, ∃ signer, recoverSigner s.network target = .ok signer ∧
      signer.publicKeyHash = target.writer)
    (hrun : (forEach l (nullSteps fails declines refusal) >>= fun _ =>
      unlinkSteps fails declines refusal H fuel dirCap name entrySigner mirrorBat >>= fun _ =>
        forEach writers fun writer =>
          deauthorizeSteps fails declines refusal dirCap writer entrySigner) (s, n) =
      (.error e, s')) :
    Unchanged H dirCap s.network s'.1.network ↔ StopsInTime fails declines l.length n := by
  induction l generalizing n with
  | nil => exact unchanged_iff_of_unlinking hnet hholds hown hlink hentries hunlink hrun
  | cons target l ih =>
      obtain ⟨signer, hrecover, hwriter⟩ := hsigner target List.mem_cons_self
      have hone := nullSteps_run fails declines refusal hrecover n
      rw [List.length_cons]
      by_cases h0 : fails n = true
      · rw [if_pos h0] at hone
        rw [bind_of_error (show forEach (target :: l) (nullSteps fails declines refusal) _ = _ from
          bind_of_error hone)] at hrun
        cases hrun
        exact iff_of_true (.refl _ _ _) fun k hk =>
          ⟨n, le_rfl, (Nat.le_succ n).trans (firstMove_le hk), h0⟩
      by_cases h1 : fails (n + 1) = true
      · rw [if_neg h0, if_pos h1] at hone
        rw [bind_of_error (show forEach (target :: l) (nullSteps fails declines refusal) _ = _ from
          bind_of_error hone)] at hrun
        cases hrun
        exact iff_of_true (.refl _ _ _) fun k hk => ⟨n + 1, Nat.le_succ n, firstMove_le hk, h1⟩
      rw [if_neg h0, if_neg h1] at hone
      rw [Bool.not_eq_true] at h0 h1
      rw [stopsInTime_succ h0 h1]
      cases hdeclines : declines (n + 1) with
      | true =>
          rw [if_pos hdeclines] at hone
          rw [bind_run, forEach_cons_of_ok hone, ← bind_run] at hrun
          have hrest := ih (fun b hb => hreached b (List.mem_cons_of_mem _ hb))
            (fun b hb => hsigner b (List.mem_cons_of_mem _ hb)) hrun
          exact hrest.trans (and_iff_right rfl).symm
      | false =>
          -- the pointer of the innermost such space is gone, and nothing brings it back
          rw [if_neg (by rw [hdeclines]; exact Bool.false_ne_true)] at hone
          rw [bind_run, forEach_cons_of_ok hone, ← bind_run] at hrun
          have hnone : Function.update s signer.publicKeyHash none target.writer = none := by
            rw [hwriter, Function.update_self]
          have hgone : s'.1 target.writer = none :=
            congrArg (fun r => r.2.1 target.writer) hrun ▸ remaining_keeps.snd hnone
          obtain ⟨hreach, hfound⟩ := hreached target List.mem_cons_self
          refine iff_of_false (not_unchanged_of_gone hreach hfound ?_) fun h =>
            Bool.false_ne_true h.1
          rw [Spaces.network, hgone]
          rfl

/-- A failed delete of a child that is listed. -/
theorem unchanged_iff_of_listed {e : Fault} {s' : Spaces × ℕ}
    (hnet : s.network dirCap.writer = some t) (hholds : HoldsDirectory maxLinks dirCap m t)
    (hown : ∀ chunks tail, ListsFrom t dirCap.rBaseKey dirCap.mapKey chunks tail →
      ∀ l ∈ chunks.flatMap Prod.snd, l.name = name →
        ∀ k ∈ chunks.map Prod.fst, ¬Below H t l.cap.loc k)
    (hsigner : ∀ target ∈ ownWritersBelow fuel s.network dirCap name, ∀ signer,
      recoverSigner s.network target = .ok signer → signer.publicKeyHash = target.writer)
    (hwould : (deleteChild H fuel dirCap name entrySigner mirrorBat s).1 = .ok ())
    (hrun : deleteChildSteps fails declines refusal H fuel dirCap name entrySigner mirrorBat
      (s, 0) = (.error e, s')) :
    Unchanged H dirCap s.network s'.1.network ↔
      ∀ k, firstUpdate declines fuel s.network dirCap name = some k → ∃ i ≤ k, fails i = true := by
  obtain ⟨entries, entry, targets, link, hentries, hfind, hlink, htargets, s₁, hnull, net₁,
    hunlink₁⟩ := deleteChild_eq_ok hnet hholds hwould
  obtain ⟨hnulled, hsigners⟩ := forEach_nulled (fun _ => Or.inr rfl) hnull
  obtain ⟨net', hunlink⟩ := unlinkAndRemove_of_nulled hnulled hunlink₁
  have hbelow : ownWritersBelow fuel s.network dirCap name = targets.1 := by
    simp only [ownWritersBelow, hentries, hfind, htargets]
  unfold deleteChildSteps at hrun
  by_cases h0 : fails 0 = true
  · rw [op_bind_of_fails h0] at hrun
    cases hrun
    exact iff_of_true (.refl _ _ _) fun k _ => ⟨0, Nat.zero_le k, h0⟩
  rw [Bool.not_eq_true] at h0
  rw [op_query_bind_of_ok (s := s) h0 hentries, collectSteps, hfind] at hrun
  by_cases h1 : fails (0 + 1) = true
  · rw [op_bind_of_fails h1] at hrun
    cases hrun
    refine iff_of_true (.refl _ _ _) fun k hk => ⟨1, ?_, h1⟩
    have := firstMove_le hk
    omega
  rw [Bool.not_eq_true] at h1
  rw [op_query_bind_of_ok (s := s) h1 htargets] at hrun
  have hchild : Lists s.network dirCap entry.cap :=
    ⟨fuel, entries, hentries, entry, List.mem_of_find?_eq_some hfind, rfl⟩
  rw [unchanged_iff_of_targets hnet hholds hown hlink hentries hunlink (fun target htarget => ?_)
    (fun target htarget => ?_) hrun, List.length_reverse]
  · unfold StopsInTime firstUpdate
    rw [hbelow]
    refine forall₂_congr fun k _ => exists_congr fun i => ?_
    refine ⟨fun hi => hi.2, fun hi => ⟨?_, hi⟩⟩
    -- the listing and the look at the spaces have not been refused
    by_contra hlt
    obtain rfl | rfl : i = 0 ∨ i = 1 := by omega
    · exact Bool.false_ne_true (h0.symm.trans hi.2)
    · exact Bool.false_ne_true (h1.symm.trans hi.2)
  · obtain ⟨hreach, hfound⟩ :=
      collectOwnWriterTargets_reached htargets target (List.mem_reverse.1 htarget)
    exact ⟨.head hchild hreach, hfound⟩
  · obtain ⟨signer, hrecover⟩ := hsigners target htarget
    exact ⟨signer, hrecover,
      hsigner target (hbelow.symm ▸ List.mem_reverse.1 htarget) signer hrecover⟩

/-- A failed delete of a child that is not listed. -/
theorem failed_delete_of_absent {e : Fault} {s' : Spaces × ℕ}
    (hnet : s.network dirCap.writer = some t) (hholds : HoldsDirectory maxLinks dirCap m t)
    (habsent : m name = none)
    (hrun : deleteChildSteps fails declines refusal H fuel dirCap name entrySigner mirrorBat
      (s, 0) = (.error e, s')) : s'.1 = s := by
  unfold deleteChildSteps at hrun
  by_cases h0 : fails 0 = true
  · rw [op_bind_of_fails h0] at hrun
    cases hrun
    rfl
  rw [Bool.not_eq_true] at h0
  cases hentries : listDirectory fuel s.network dirCap with
  | error e' =>
      rw [bind_of_error (by rw [op_of_passes h0, query_run, hentries])] at hrun
      cases hrun
      rfl
  | ok entries =>
      have hfind : entries.find? (·.name = name) = none := by
        refine List.find?_eq_none.2 fun entry hentry hname => ?_
        have hlisted : name ∈ entries.map (·.name) :=
          of_decide_eq_true hname ▸ List.mem_map_of_mem hentry
        obtain ⟨link, hlink⟩ := (hholds.mem_names_iff hnet hentries).1 hlisted
        cases habsent.symm.trans hlink
      rw [op_query_bind_of_ok (s := s) h0 hentries, collectSteps, hfind] at hrun
      obtain ⟨e', k, hsteps⟩ : ∃ e' k, unlinkSteps fails declines refusal H fuel dirCap name
          entrySigner mirrorBat (s, 1) = (.error e', (s, k)) :=
        unlinkSteps_of_absent hnet hholds habsent 1
      have hrun : (unlinkSteps fails declines refusal H fuel dirCap name entrySigner mirrorBat >>=
          fun _ => pure ()) (s, 1) = (.error e, s') := hrun
      rw [bind_of_error hsteps] at hrun
      cases hrun
      rfl

/-- **Failed deletes.**  A delete that would succeed but for what the server refuses or declines
leaves the directory and everything below it as it was just if an operation is refused before a
pointer has moved, or the server declines to move any; that of a child that is not there always
does. -/
theorem failed_delete_unchanged_iff {e : Fault} {s' : Spaces × ℕ}
    (hnet : s.network dirCap.writer = some t) (hholds : HoldsDirectory maxLinks dirCap m t)
    (hown : ∀ chunks tail, ListsFrom t dirCap.rBaseKey dirCap.mapKey chunks tail →
      ∀ l ∈ chunks.flatMap Prod.snd, l.name = name →
        ∀ k ∈ chunks.map Prod.fst, ¬Below H t l.cap.loc k)
    (hsigner : ∀ target ∈ ownWritersBelow fuel s.network dirCap name, ∀ signer,
      recoverSigner s.network target = .ok signer → signer.publicKeyHash = target.writer)
    (hwould : m name ≠ none → (deleteChild H fuel dirCap name entrySigner mirrorBat s).1 = .ok ())
    (hrun : deleteChildSteps fails declines refusal H fuel dirCap name entrySigner mirrorBat
      (s, 0) = (.error e, s')) :
    Unchanged H dirCap s.network s'.1.network ↔
      m name = none ∨ ∀ k, firstUpdate declines fuel s.network dirCap name = some k →
        ∃ i ≤ k, fails i = true := by
  by_cases habsent : m name = none
  · rw [failed_delete_of_absent hnet hholds habsent hrun]
    exact iff_of_true (.refl _ _ _) (Or.inl habsent)
  · rw [or_iff_right habsent]
    exact unchanged_iff_of_listed hnet hholds hown hsigner (hwould habsent) hrun

end Failed

/-! ## A directory with a writing space below it -/

/-- A node with these links, of a directory or of what stands for one. -/
def spaceBlock (isLink : Bool) (rBaseKey parentKey : SymmetricKey)
    (signer : Option (CipherText SigningPrivateKeyAndPublicHash)) (next : Bytes)
    (links : List NamedRelativeCapability) : CryptreeBlock :=
  ⟨[], .build rBaseKey ⟨parentKey, signer, .subsequentChunk next none rBaseKey⟩,
    .build parentKey
      ⟨none, ⟨"", true, isLink, "", 0, false, 0, 0, none, none, none, legacyChunkSize⟩⟩,
    .build rBaseKey (.named links)⟩

theorem spaceDirKey_length : (List.replicate 32 (3 : UInt8)).length = 32 := rfl

/-- A directory of the writer 2. -/
def spaceDirCap : AbsoluteCapability :=
  ⟨byteKey 1, byteKey 2, List.replicate 32 3, none, byteSymmetricKey 4, some (byteSymmetricKey 20),
    spaceDirKey_length⟩

/-- The directory of the writer 9 below it. -/
def spaceTargetCap : AbsoluteCapability :=
  ⟨byteKey 1, byteKey 9, List.replicate 32 23, none, byteSymmetricKey 24,
    some (byteSymmetricKey 25), rfl⟩

/-- What stands for that directory. -/
def spaceLinkCap : AbsoluteCapability :=
  ⟨byteKey 1, byteKey 2, List.replicate 32 13, none, byteSymmetricKey 14,
    some (byteSymmetricKey 21), rfl⟩

/-- The link to it. -/
def spaceLink : NamedRelativeCapability :=
  ⟨"w", ⟨none, List.replicate 32 13, none, byteSymmetricKey 14,
    some (.build (byteSymmetricKey 20) (byteSymmetricKey 21))⟩, some true, none, none⟩

def spaceTree : Tree := fun k =>
  if k = List.replicate 32 3 then
    some (spaceBlock false (byteSymmetricKey 4) (byteSymmetricKey 5)
      (some (.build (byteSymmetricKey 20) (byteSigner 2))) (List.replicate 32 6) [spaceLink])
  else if k = List.replicate 32 13 then
    some (spaceBlock true (byteSymmetricKey 14) (byteSymmetricKey 15) none (List.replicate 32 16)
      [⟨"w", ⟨some (byteKey 9), List.replicate 32 23, none, byteSymmetricKey 24,
        some (.build (byteSymmetricKey 21) (byteSymmetricKey 25))⟩, some true, none, none⟩])
  else none

/-- The two writers: the first owns the second. -/
def spaceSpaces : Spaces := fun w =>
  if w = byteKey 2 then some ⟨spaceTree, some fun w => w = byteKey 9⟩
  else if w = byteKey 9 then
    some ⟨fun k => if k = List.replicate 32 23 then
      some (spaceBlock false (byteSymmetricKey 24) (byteSymmetricKey 26)
        (some (.build (byteSymmetricKey 25) (byteSigner 9))) (List.replicate 32 27) []) else none,
      none⟩
  else none

/-- The delete of the child `w` with one operation refused. -/
def spaceDelete (declines : ℕ → Bool) (n : ℕ) : Except Fault Unit × (Spaces × ℕ) :=
  deleteChildSteps (fun i => i = n) declines (.err (.protocol "rejected")) legacyHasher 3
    spaceDirCap "w" none none (spaceSpaces, 0)

theorem listsFrom_space : ListsFrom spaceTree spaceDirCap.rBaseKey spaceDirCap.mapKey
    [(List.replicate 32 3, [spaceLink])] (List.replicate 32 6) :=
  ⟨rfl, List.replicate 32 6, ⟨_, _, rfl, rfl, rfl, rfl⟩, rfl, Bool.false_ne_true⟩

theorem holdsDirectory_space : HoldsDirectory 500 spaceDirCap
    (Function.update (fun _ => none) "w" (some spaceLink)) spaceTree := by
  refine ⟨_, _, listsFrom_space, List.cons_ne_nil _ _, ?_, List.nodup_singleton _, fun k a => ?_⟩
  · intro c hc
    rw [List.mem_singleton.1 hc]
    decide
  · rw [Function.update_apply]
    split <;> simp_all [spaceLink, eq_comm]

/-- What is below a location of a set that leads nowhere else. -/
theorem Below.mem_of_closed {H : ContentHasher} {t : Tree} {S : List ChunkLoc} {loc : ChunkLoc}
    {k : Bytes} (h : Below H t loc k) (hloc : loc ∈ S)
    (hclosed : ∀ l ∈ S, ∀ node, fetchChunkNode t l.rBaseKey l.mapKey = some node →
      (∀ props, node.getProperties l.rBaseKey = .ok props → props.streamSecret = none) ∧
        (∀ base, node.baseBlock l.rBaseKey = .ok base →
          ⟨base.nextChunk.mapKey, base.nextChunk.bat, l.rBaseKey⟩ ∈ S) ∧
        ∀ links, node.childrenOrData.decrypt l.rBaseKey = .ok (.named links) →
          ∀ link ∈ links, link.cap.loc ∈ S) : k ∈ S.map (·.mapKey) := by
  induction h with
  | self loc => exact List.mem_map_of_mem hloc
  | fileChunk hnode hprops hsecret i =>
      cases ((hclosed _ hloc _ hnode).1 _ hprops).symm.trans hsecret
  | nextChunk hnode hbase _ ih => exact ih ((hclosed _ hloc _ hnode).2.1 _ hbase)
  | child hnode hlinks hlink _ ih => exact ih ((hclosed _ hloc _ hnode).2.2 _ hlinks _ hlink)

theorem below_spaceLink {k : Bytes} (h : Below legacyHasher spaceTree spaceLink.cap.loc k) :
    k ∈ [List.replicate 32 13, List.replicate 32 16, List.replicate 32 23] := by
  refine h.mem_of_closed (S := [⟨List.replicate 32 13, none, byteSymmetricKey 14⟩,
    ⟨List.replicate 32 16, none, byteSymmetricKey 14⟩,
    ⟨List.replicate 32 23, none, byteSymmetricKey 24⟩]) List.mem_cons_self ?_
  intro l hl node hnode
  simp only [List.mem_cons, List.not_mem_nil, or_false] at hl
  rcases hl with rfl | rfl | rfl
  · obtain rfl := Option.some.inj
      ((show fetchChunkNode spaceTree _ _ = some _ from rfl).symm.trans hnode)
    refine ⟨fun props hprops => ?_, fun base hbase => ?_, fun links hlinks => ?_⟩
    · cases hprops
      rfl
    · cases hbase
      exact List.mem_cons_of_mem _ List.mem_cons_self
    · cases hlinks
      simp [RelativeCapability.loc]
  · cases (show fetchChunkNode spaceTree _ _ = none from rfl).symm.trans hnode
  · cases (show fetchChunkNode spaceTree _ _ = none from rfl).symm.trans hnode

/-- The server declines to move the pointer of the writing space and refuses an operation before
that of the directory moves. -/
theorem failed_delete_unchanged_iff_declinedSpace :
    Unchanged legacyHasher spaceDirCap spaceSpaces.network
        (spaceDelete (fun i => i = 3) 6).2.1.network ↔
      Function.update (fun _ => none) "w" (some spaceLink) "w" = none ∨
        ∀ k, firstUpdate (fun i => i = 3) 3 spaceSpaces.network spaceDirCap "w" = some k →
          ∃ i ≤ k, decide (i = 6) = true := by
  refine failed_delete_unchanged_iff (t := spaceTree) rfl holdsDirectory_space ?_ ?_ (fun _ => ?_)
    (Prod.ext (show (spaceDelete (fun i => i = 3) 6).1 = .error (.err (.protocol "rejected")) by
      decide +kernel) rfl)
  · intro chunks tail hlists l hl hname k hk hbelow
    obtain ⟨rfl, -⟩ := hlists.unique listsFrom_space
    obtain rfl : l = spaceLink := by simpa using hl
    obtain rfl : k = List.replicate 32 3 := by simpa using hk
    exact absurd (below_spaceLink hbelow) (by decide)
  · intro target htarget signer hsigner
    have hwriters : ownWritersBelow 3 spaceSpaces.network spaceDirCap "w" = [spaceTargetCap] := by
      decide +kernel
    obtain rfl : target = spaceTargetCap := by simpa [hwriters] using htarget
    have hrecover : recoverSigner spaceSpaces.network spaceTargetCap = .ok (byteSigner 9) :=
      eq_ok_of_toOption (by decide +kernel)
    cases hrecover.symm.trans hsigner
    rfl
  · exact eq_ok_of_toOption (by decide +kernel)

/-- The server refuses an operation after it has taken the pointer of the writing space away: the
delete fails, the child is still listed, and what it leads to is gone. -/
theorem refused_delete_loses_content :
    (spaceDelete (fun _ => false) 4).1 = .error (.err (.protocol "rejected")) ∧
      listDirectory 3 (spaceDelete (fun _ => false) 4).2.1.network spaceDirCap =
        listDirectory 3 spaceSpaces.network spaceDirCap ∧
      Relation.TransGen (Lists spaceSpaces.network) spaceDirCap spaceTargetCap ∧
      listDirectory 3 spaceSpaces.network spaceTargetCap = .ok [] ∧
      (listDirectory 3 (spaceDelete (fun _ => false) 4).2.1.network spaceTargetCap).toOption = none ∧
      ¬Unchanged legacyHasher spaceDirCap spaceSpaces.network
        (spaceDelete (fun _ => false) 4).2.1.network := by
  have hlink : Lists spaceSpaces.network spaceDirCap spaceLinkCap :=
    ⟨3, [⟨"w", some true, none, spaceLinkCap⟩], eq_ok_of_toOption (by decide +kernel), _,
      List.mem_cons_self, rfl⟩
  have htarget : Lists spaceSpaces.network spaceLinkCap spaceTargetCap :=
    ⟨3, [⟨"w", some true, none, spaceTargetCap⟩], eq_ok_of_toOption (by decide +kernel), _,
      List.mem_cons_self, rfl⟩
  have hreach := Relation.TransGen.head hlink (.single htarget)
  have hbefore : listDirectory 3 spaceSpaces.network spaceTargetCap = .ok [] :=
    eq_ok_of_toOption (by decide +kernel)
  have hafter : (listDirectory 3 (spaceDelete (fun _ => false) 4).2.1.network
      spaceTargetCap).toOption = none := by
    decide +kernel
  refine ⟨by decide +kernel, by decide +kernel, hreach, hbefore, hafter, fun hsame => ?_⟩
  rw [(hsame.content spaceTargetCap hreach 3).2, hbefore] at hafter
  cases hafter

end Peergos
