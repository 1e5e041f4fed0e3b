import PeergosClient.Champ.Merge

/-!
# The writes of a merge

A champ call changes the store by `S.put` alone.  So a relation of states that every put follows,
reflexive and transitive, is followed by a put or a removal of a key, by a merge of two champs, and
by a merge of two WriterData blocks, whatever the nodes are and whatever the store answers.
-/

namespace Peergos

variable {σ : Type}

/-- A relation of states that every write of a block follows. -/
structure ContentAddressedStorage.FollowedByPuts (S : ContentAddressedStorage σ)
    (R : σ → σ → Prop) : Prop where
  refl : ∀ s, R s s
  trans : ∀ {s s₁ s₂}, R s s₁ → R s₁ s₂ → R s s₂
  put : ∀ {s b cid s'}, S.put s b = .ok (cid, s') → R s s'

variable {S : ContentAddressedStorage σ} {R : σ → σ → Prop}

namespace Champ

variable {s : σ} {c : Champ} {key hash : Bytes} {depth fuel : ℕ} {expected value : Option CborObject}
  {bitWidth maxCollisions : ℕ} {keyHasher : KeyHasher} {ourHash : Cid} {r : (Champ × Cid) × σ}

theorem writeNode_follows (hR : S.FollowedByPuts R) (h : writeNode S s c = .ok r) : R s r.2 := by
  obtain ⟨⟨cid, s₁⟩, hput, h⟩ := bind_eq_ok.1 h
  cases h
  exact hR.put hput

/-- Puts one after another. -/
theorem foldlM_follows {α β : Type} (hR : S.FollowedByPuts R) {step : β × σ → α → Result (β × σ)}
    (hstep : ∀ cur a next, step cur a = .ok next → R cur.2 next.2) {l : List α}
    {start last : β × σ} (h : l.foldlM step start = .ok last) : R start.2 last.2 := by
  induction l generalizing start with
  | nil =>
      cases h
      exact hR.refl _
  | cons a l ih =>
      rw [List.foldlM_cons] at h
      obtain ⟨next, hnext, h⟩ := bind_eq_ok.1 h
      exact hR.trans (hstep _ _ _ hnext) (ih h)

theorem pushMappingsDownALevel_follows (hR : S.FollowedByPuts R)
    {putAt : σ → Champ → Bytes → Bytes → Option CborObject → Cid → Result ((Champ × Cid) × σ)}
    (hput : ∀ s c key hash value ourHash r, putAt s c key hash value ourHash = .ok r → R s r.2)
    {mappings : List KeyElement}
    (h : pushMappingsDownALevel S putAt s c mappings key hash value depth keyHasher = .ok r) :
    R s r.2 := by
  unfold pushMappingsDownALevel at h
  split at h
  · cases h
  · obtain ⟨⟨emptyHash, s₁⟩, hempty, h⟩ := bind_eq_ok.1 h
    obtain ⟨start, hstart, h⟩ := bind_eq_ok.1 h
    have hfirst : R s start.2 := hR.trans (hR.put hempty) (hput _ _ _ _ _ _ _ hstart)
    exact hR.trans hfirst (foldlM_follows hR (fun _ _ _ hnext => hput _ _ _ _ _ _ _ hnext) h)

theorem put_follows (hR : S.FollowedByPuts R)
    (h : put S fuel s c key hash depth expected value bitWidth maxCollisions keyHasher ourHash =
      .ok r) : R s r.2 := by
  induction fuel generalizing s c key hash depth expected value ourHash r with
  | zero => cases h
  | succ fuel ih =>
      unfold put at h
      simp only at h
      split at h
      · -- the slot holds a bucket
        obtain ⟨p, -, h⟩ := bind_eq_ok.1 h
        cases p with
        | link _ => cases h
        | mappings mappings =>
            simp only at h
            split at h
            · obtain ⟨mapping, -, h⟩ := bind_eq_ok.1 h
              split at h
              · cases h
              · obtain ⟨node, -, h⟩ := bind_eq_ok.1 h
                exact writeNode_follows hR h
            · split at h
              · obtain ⟨node, -, h⟩ := bind_eq_ok.1 h
                exact writeNode_follows hR h
              · obtain ⟨⟨⟨child, childHash⟩, s₁⟩, hpush, h⟩ := bind_eq_ok.1 h
                obtain ⟨node, -, h⟩ := bind_eq_ok.1 h
                have hpushed : R s s₁ := pushMappingsDownALevel_follows hR
                  (fun _ _ _ _ _ _ _ hput => ih hput) hpush
                exact hR.trans hpushed (writeNode_follows hR h)
      · split at h
        · -- the slot holds a link
          obtain ⟨⟨childHash, child⟩, -, h⟩ := bind_eq_ok.1 h
          obtain ⟨⟨⟨newChild, newChildHash⟩, s₁⟩, hput, h⟩ := bind_eq_ok.1 h
          have hbelow : R s s₁ := ih hput
          simp only at h
          split at h
          · cases h
            exact hbelow
          · obtain ⟨node, -, h⟩ := bind_eq_ok.1 h
            exact hR.trans hbelow (writeNode_follows hR h)
        · obtain ⟨node, -, h⟩ := bind_eq_ok.1 h
          exact writeNode_follows hR h

theorem removedBelow_follows (hR : S.FollowedByPuts R) {bitpos : ℕ} {childHash newChildHash : Cid}
    {newChild : Champ}
    (h : removedBelow S c bitpos maxCollisions ourHash childHash newChild newChildHash s = .ok r) :
    R s r.2 := by
  unfold removedBelow at h
  split at h
  · cases h
    exact hR.refl _
  · split at h
    · cases h
    · split at h
      · split at h
        · cases h
          exact hR.refl _
        · obtain ⟨node, -, h⟩ := bind_eq_ok.1 h
          exact writeNode_follows hR h
      · obtain ⟨node, -, h⟩ := bind_eq_ok.1 h
        exact writeNode_follows hR h

theorem remove_follows (hR : S.FollowedByPuts R)
    (h : remove S fuel s c key hash depth expected bitWidth maxCollisions ourHash = .ok r) :
    R s r.2 := by
  induction fuel generalizing s c depth ourHash r with
  | zero => cases h
  | succ fuel ih =>
      unfold remove at h
      simp only at h
      split at h
      · obtain ⟨p, -, h⟩ := bind_eq_ok.1 h
        cases p with
        | link _ => cases h
        | mappings mappings =>
            simp only at h
            split at h
            · cases h
            · obtain ⟨mapping, -, h⟩ := bind_eq_ok.1 h
              split at h
              · cases h
              · split at h
                all_goals
                  obtain ⟨node, -, h⟩ := bind_eq_ok.1 h
                  exact writeNode_follows hR h
      · split at h
        · obtain ⟨⟨childHash, child⟩, -, h⟩ := bind_eq_ok.1 h
          obtain ⟨⟨⟨newChild, newChildHash⟩, s₁⟩, hremove, h⟩ := bind_eq_ok.1 h
          have hbelow : R s s₁ := ih hremove
          exact hR.trans hbelow (removedBelow_follows hR h)
        · cases h
          exact hR.refl _

end Champ

namespace ChampMerge

open Champ

variable {fuel : ℕ} {ourOrder remoteOrder : HashOrder} {s : σ}

/-- The replay of one remote change. -/
theorem applyEntry_follows (hR : S.FollowedByPuts R) {st st' : ChampWrapper × σ} {d : DiffEntry}
    (h : applyEntry S fuel st d = .ok st') : R st.2 st'.2 := by
  unfold applyEntry at h
  cases hother : d.other with
  | some value =>
      rw [hother] at h
      obtain ⟨⟨⟨root, rootHash⟩, s₁⟩, hput, h⟩ := bind_eq_ok.1 h
      cases h
      exact put_follows hR hput
  | none =>
      rw [hother] at h
      obtain ⟨⟨⟨root, rootHash⟩, s₁⟩, hremove, h⟩ := bind_eq_ok.1 h
      cases h
      exact remove_follows hR hremove

theorem mergeChamp_follows (hR : S.FollowedByPuts R) {base ours theirs : Cid} {r : Cid × σ}
    (h : mergeChamp S fuel ourOrder remoteOrder s base ours theirs = .ok r) : R s r.2 := by
  obtain ⟨ourDiff, -, h⟩ := bind_eq_ok.1 h
  obtain ⟨remoteDiff, -, h⟩ := bind_eq_ok.1 h
  split at h
  · cases h
  · obtain ⟨opened, -, h⟩ := bind_eq_ok.1 h
    obtain ⟨⟨merged, s₁⟩, hreplay, h⟩ := bind_eq_ok.1 h
    cases h
    exact foldlM_follows hR (fun _ _ _ hnext => applyEntry_follows hR hnext) hreplay

/-- A merge of two WriterData blocks follows what every write of a block follows. -/
theorem mergeWriterData_follows (hR : S.FollowedByPuts R) {base ours theirs : Cid}
    {r : CborObject × σ}
    (h : mergeWriterData S fuel ourOrder remoteOrder s base ours theirs = .ok r) : R s r.2 := by
  obtain ⟨baseWd, -, h⟩ := bind_eq_ok.1 h
  obtain ⟨ourWd, -, h⟩ := bind_eq_ok.1 h
  obtain ⟨theirWd, -, h⟩ := bind_eq_ok.1 h
  obtain ⟨baseTree, -, h⟩ := bind_eq_ok.1 h
  obtain ⟨ourTree, -, h⟩ := bind_eq_ok.1 h
  obtain ⟨theirTree, -, h⟩ := bind_eq_ok.1 h
  obtain ⟨⟨mergedRoot, s₁⟩, hmerge, h⟩ := bind_eq_ok.1 h
  obtain ⟨merged, -, h⟩ := bind_eq_ok.1 h
  cases h
  exact mergeChamp_follows hR hmerge

end ChampMerge

end Peergos
