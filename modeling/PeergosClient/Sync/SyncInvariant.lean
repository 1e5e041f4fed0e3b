import PeergosClient.Sync.Snapshots

/-!
# What a sync keeps while it deals with the files

With `sync_local_deletes` off a file that is gone locally stays in Peergos, and with
`sync_remote_deletes` off one that is gone in Peergos stays on the disk.  A sync may move it, if the
other side has a new file with the same hash, and then both sides have it there.  So what a sync
keeps of a content is that it lasts: it is at a path where the other side has nothing else.

For this it keeps more: what is at the paths that only one side has, and what is recorded of the
files that it has yet to deal with.
-/

namespace Peergos

open Replicas Exec

/-- Only one side shows a path. -/
def ShownOn (snap : Snapshot) (u : SyncSide) (p : SyncPath) : Prop :=
  (snap u).byPath p ≠ none ∧ (snap u.other).byPath p = none

/-- Neither side alone has a file below a path. -/
def ClearBelow (m₀ : Contents SyncSide SyncPath Bytes) (p : SyncPath) : Prop :=
  ∀ q, p <+: q → q ≠ p → ∀ u, ¬OnlyOn m₀ u q

/-- What a sync that started in `w₀` keeps, with the paths that it has yet to deal with. -/
structure SyncInv (s : SyncSide) (c : Bytes) (w₀ : SyncWorld) (snap : Snapshot)
    (rest : List SyncPath) (m : Contents SyncSide SyncPath Bytes) (synced : RamTreeState) :
    Prop where
  /-- The content lasts. -/
  lasts : Lasts m s s.other c
  /-- The side that alone shows a path has no new file there. -/
  shown : ∀ u p, ShownOn snap u p → ∀ d, m u p = some d → w₀.contents u p = some d
  /-- Across from it there is nothing new before the path is dealt with. -/
  across : ∀ u, ∀ p ∈ rest, ShownOn snap u p → ∀ d, m u.other p = some d →
    ∃ v, w₀.contents v p = some d
  /-- Away from the paths of one side nothing is only in Peergos. -/
  paired : ∀ p, (∀ u, ¬OnlyOn w₀.contents u p) → m .onLocal p = none → m .onRemote p = none
  /-- The files that the walk of the disk does not come by stay. -/
  unseen : ∀ p, walked .onLocal p = false → w₀.contents .onLocal p ≠ none → m .onLocal p ≠ none
  /-- A local file that has yet to be dealt with is there with its record, or was moved. -/
  still : ∀ p ∈ rest, ∀ f, (snap .onLocal).byPath p = some f →
    m .onLocal p ≠ none ∧ SameAt w₀.synced synced p ∨
      m .onLocal p = none ∧ (snap .onRemote).byPath p = none ∧ snap.balanced f.hash = true

section Steps

variable {env : SyncEnv} {s : SyncSide} {c d e : Bytes} {w₀ : SyncWorld}
  {m : Contents SyncSide SyncPath Bytes} {snap : Snapshot} {rest : List SyncPath} {u : SyncSide}
  {synced synced' : RamTreeState} {p k src dst : SyncPath}

theorem ShownOn.not_other (h : ShownOn snap u p) : ¬ShownOn snap u.other p := fun h' => h'.1 h.2

/-- What the disk alone shows is only on the disk. -/
theorem ShownOn.onlyOn (h : ShownOn snap .onLocal p) (hsnap : SnapshotOf env w₀ snap) :
    OnlyOn w₀.contents .onLocal p :=
  ⟨hsnap.contents_ne_none h.1, hsnap.remote_none h.2⟩

theorem walked_of_shown (hsnap : SnapshotOf env w₀ snap) (h : (snap .onLocal).byPath p ≠ none) :
    walked .onLocal p = true := by
  by_contra hwalked
  rw [hsnap.byPath, SyncEnv.shown, if_neg hwalked] at h
  exact h rfl

theorem SyncInv.mono (h : SyncInv s c w₀ snap rest m synced) {rest' : List SyncPath}
    (hsub : ∀ p ∈ rest', p ∈ rest) : SyncInv s c w₀ snap rest' m synced :=
  ⟨h.lasts, h.shown, fun u p hp => h.across u p (hsub p hp), h.paired, h.unseen,
    fun p hp => h.still p (hsub p hp)⟩

/-- Nothing is in Peergos below a local file, if neither side had a file there alone. -/
theorem SyncInv.clear (h : SyncInv s c w₀ snap rest m synced) (htree : Treelike m)
    (hp : m .onLocal p ≠ none) (hclear : ClearBelow w₀.contents p) :
    ∀ q, p <+: q → q ≠ p → m .onRemote q = none := fun q hq hne =>
  h.paired q (hclear q hq hne) (htree .onLocal p q hp hq hne)

/-- The record of a path is written that is not a file to be dealt with. -/
theorem SyncInv.touch (h : SyncInv s c w₀ snap rest m synced) (ht : Touches k synced synced')
    (hk : k ∈ rest → (snap .onLocal).byPath k ≠ none → m .onLocal k = none) :
    SyncInv s c w₀ snap rest m synced' := by
  refine ⟨h.lasts, h.shown, h.across, h.paired, h.unseen, fun p hp f hf => ?_⟩
  rcases h.still p hp f hf with ⟨hne, hsame⟩ | hmoved
  · refine Or.inl ⟨hne, hsame.trans (ht p ?_)⟩
    rintro rfl
    exact hne (hk hp (by simp [hf]))
  · exact Or.inr hmoved

/-- A copy of a local file, to where Peergos does not alone show one. -/
theorem SyncInv.copyLocal (h : SyncInv s c w₀ snap rest m synced) (hd : m .onLocal p = some d)
    (hp : ¬ShownOn snap .onRemote p) :
    SyncInv s c w₀ snap rest (set m .onRemote p (some d)) synced := by
  refine ⟨?_, ?_, ?_, ?_, ?_, ?_⟩
  · cases s with
    | onLocal => exact h.lasts.copyThere (by decide) hd fun _ => rfl
    | onRemote => exact h.lasts.copyHere (by decide) hd fun _ => rfl
  · intro v q hq d' hd'
    rw [set_apply] at hd'
    split at hd'
    · rename_i heq
      obtain ⟨rfl, rfl⟩ := heq
      exact absurd hq hp
    · exact h.shown v q hq d' hd'
  · intro v q hq hshown d' hd'
    rw [set_apply] at hd'
    split at hd'
    · rename_i heq
      obtain ⟨hv, rfl⟩ := heq
      obtain rfl : v = .onLocal := by rw [← SyncSide.other_other v, hv]; rfl
      cases hd'
      exact ⟨.onLocal, h.shown .onLocal q hshown d hd⟩
    · exact h.across v q hq hshown d' hd'
  · intro q hq hnone
    rw [set_of_ne_side (by decide)] at hnone
    by_cases hqp : q = p
    · rw [hqp, hd] at hnone
      cases hnone
    · rw [set_of_ne_key hqp]
      exact h.paired q hq hnone
  · rw [set_of_ne_side (by decide)]
    exact h.unseen
  · rw [set_of_ne_side (by decide)]
    exact h.still

/-- A copy of a file in Peergos, over what was on the disk.  The path has been dealt with. -/
theorem SyncInv.copyRemote (h : SyncInv s c w₀ snap (p :: rest) m synced) (hmem : p ∉ rest)
    (hd : m .onRemote p = some d) (hp : ¬ShownOn snap .onLocal p)
    (he : (∀ d', m .onLocal p = some d' → d' = d) → e = d) :
    SyncInv s c w₀ snap rest (set m .onLocal p (some e)) synced := by
  have hne : ∀ q ∈ rest, q ≠ p := fun q hq heq => hmem (heq ▸ hq)
  refine ⟨?_, ?_, ?_, ?_, ?_, ?_⟩
  · cases s with
    | onLocal => exact h.lasts.copyHere (by decide) hd he
    | onRemote => exact h.lasts.copyThere (by decide) hd he
  · intro v q hq d' hd'
    rw [set_apply] at hd'
    split at hd'
    · rename_i heq
      obtain ⟨rfl, rfl⟩ := heq
      exact absurd hq hp
    · exact h.shown v q hq d' hd'
  · intro v q hq hshown d' hd'
    rw [set_of_ne_key (hne q hq)] at hd'
    exact h.across v q (List.mem_cons_of_mem _ hq) hshown d' hd'
  · intro q hq hnone
    by_cases hqp : q = p
    · rw [hqp, set_self] at hnone
      cases hnone
    · rw [set_of_ne_key hqp] at hnone ⊢
      exact h.paired q hq hnone
  · intro q hwalked hq
    by_cases hqp : q = p
    · rw [hqp, set_self]
      exact Option.some_ne_none e
    · rw [set_of_ne_key hqp]
      exact h.unseen q hwalked hq
  · intro q hq f hf
    rw [set_of_ne_key (hne q hq)]
    exact h.still q (List.mem_cons_of_mem _ hq) f hf

/-- The move of a file that only one side shows to where only the other side shows one, with the
same content. -/
theorem SyncInv.move (hsnap : SnapshotOf env w₀ snap) (h : SyncInv s c w₀ snap (dst :: rest) m synced)
    (hmem : dst ∉ rest) (hsrc : ShownOn snap u src) (hdst : ShownOn snap u.other dst)
    (hsame : ∀ v d e, w₀.contents u src = some d → w₀.contents v dst = some e → d = e)
    (hd : m u src = some d)
    (hbal : ∀ f, (snap u).byPath src = some f → snap.balanced f.hash = true) :
    SyncInv s c w₀ snap rest (set (set m u src none) u dst (some d)) synced := by
  have hcontent := h.shown u src hsrc d hd
  have hat : ∀ v e, m v dst = some e → e = d := by
    intro v e he
    rcases SyncSide.eq_or_eq_other u.other v with rfl | rfl
    · exact (hsame _ d e hcontent (h.shown _ dst hdst e he)).symm
    · obtain ⟨v, hv⟩ := h.across _ dst List.mem_cons_self hdst e he
      exact (hsame v d e hcontent hv).symm
  have hne : ∀ q ∈ rest, q ≠ dst := fun q hq heq => hmem (heq ▸ hq)
  refine ⟨?_, ?_, ?_, ?_, ?_, ?_⟩
  · rcases SyncSide.eq_or_eq_other s u with rfl | rfl
    · exact h.lasts.moveHere (SyncSide.other_ne u).symm hd (hat u) (hat u.other)
    · exact h.lasts.moveThere (SyncSide.other_ne s).symm (hat s)
  · intro v q hq d' hd'
    rw [set_apply, set_apply] at hd'
    split at hd'
    · rename_i heq
      obtain ⟨rfl, rfl⟩ := heq
      exact absurd hdst hq.not_other
    · split at hd'
      · cases hd'
      · exact h.shown v q hq d' hd'
  · intro v q hq hshown d' hd'
    rw [set_of_ne_key (hne q hq), set_apply] at hd'
    split at hd'
    · cases hd'
    · exact h.across v q (List.mem_cons_of_mem _ hq) hshown d' hd'
  · intro q hq hnone
    cases u with
    | onLocal =>
        have hqsrc : q ≠ src := by
          rintro rfl
          exact hq _ (hsrc.onlyOn hsnap)
        rw [set_of_ne_side (by decide), set_of_ne_side (by decide)]
        by_cases hqdst : q = dst
        · rw [hqdst, set_self] at hnone
          cases hnone
        · rw [set_of_ne_key hqdst, set_of_ne_key hqsrc] at hnone
          exact h.paired q hq hnone
    | onRemote =>
        have hqdst : q ≠ dst := by
          rintro rfl
          exact hq _ (ShownOn.onlyOn hdst hsnap)
        rw [set_of_ne_side (by decide), set_of_ne_side (by decide)] at hnone
        rw [set_of_ne_key hqdst, set_apply]
        split
        · rfl
        · exact h.paired q hq hnone
  · intro q hwalked hq
    rw [set_apply, set_apply]
    split
    · exact Option.some_ne_none d
    · split
      · rename_i heq
        obtain ⟨rfl, rfl⟩ := heq
        rw [walked_of_shown hsnap hsrc.1] at hwalked
        cases hwalked
      · exact h.unseen q hwalked hq
  · intro q hq f hf
    rw [set_of_ne_key (hne q hq), set_apply]
    split
    · rename_i heq
      obtain ⟨rfl, rfl⟩ := heq
      exact Or.inr ⟨rfl, hsrc.2, hbal f hf⟩
    · exact h.still q (List.mem_cons_of_mem _ hq) f hf

/-- A local file is renamed aside, and the content still lasts. -/
theorem SyncInv.lasts_aside (h : SyncInv s c w₀ snap rest m synced)
    (hfree : ∀ v, ¬OnlyOn w₀.contents v dst) (hd : m .onLocal src = some d)
    (hnone : m .onLocal dst = none) :
    Lasts (set (set m .onLocal src none) .onLocal dst (some d)) s s.other c := by
  have hremote := h.paired dst hfree hnone
  cases s with
  | onLocal =>
      refine h.lasts.moveHere (by decide) hd ?_ ?_
      · simp [hnone]
      · simp [SyncSide.other, hremote]
  | onRemote =>
      refine h.lasts.moveThere (by decide) ?_
      simp [hremote]

/-- A name that is free on the disk, and at which neither side had a file alone, is not shown by one
side alone. -/
theorem SyncInv.not_shownOn (hsnap : SnapshotOf env w₀ snap) (h : SyncInv s c w₀ snap rest m synced)
    (hfree : ∀ v, ¬OnlyOn w₀.contents v dst) (hnone : m .onLocal dst = none) :
    ∀ v, ¬ShownOn snap v dst := by
  rintro (_ | _) hshown
  · exact hfree .onLocal (hshown.onlyOn hsnap)
  · have hlocal : w₀.contents .onLocal dst ≠ none := fun heq =>
      hfree .onRemote ⟨hsnap.contents_ne_none hshown.1, heq⟩
    refine h.unseen dst ?_ hlocal hnone
    by_contra hwalked
    exact hsnap.ne_none .onLocal dst (by simpa using hwalked) hlocal hshown.2

/-- A local file that has yet to be dealt with is not at a name that is free on the disk. -/
theorem SyncInv.local_none (h : SyncInv s c w₀ snap rest m synced) (hnone : m .onLocal dst = none)
    (hdst : ¬ShownOn snap .onLocal dst) (hmem : dst ∈ rest) :
    (snap .onLocal).byPath dst = none := by
  by_contra hsome
  obtain ⟨f, hf⟩ := Option.ne_none_iff_exists'.1 hsome
  rcases h.still dst hmem f hf with ⟨hne, -⟩ | ⟨-, hremote, -⟩
  · exact hne hnone
  · exact hdst ⟨hsome, hremote⟩

/-- The local file was renamed aside, and the file in Peergos is copied to where it was. -/
theorem SyncInv.aside (hsnap : SnapshotOf env w₀ snap)
    (h : SyncInv s c w₀ snap (src :: rest) m synced) (hmem : src ∉ rest)
    (hboth : ∀ v, (snap v).byPath src ≠ none) (hfree : ∀ v, ¬OnlyOn w₀.contents v dst)
    (hd : m .onLocal src = some d) (hnone : m .onLocal dst = none)
    (he : m .onRemote src = some e) :
    SyncInv s c w₀ snap rest
      (set (set (set m .onLocal src none) .onLocal dst (some d)) .onLocal src (some e)) synced := by
  have hshown := h.not_shownOn hsnap hfree hnone
  have hne : src ≠ dst := by
    rintro rfl
    rw [hd] at hnone
    cases hnone
  have hrest : ∀ q ∈ rest, q ≠ src := fun q hq heq => hmem (heq ▸ hq)
  refine ⟨?_, ?_, ?_, ?_, ?_, ?_⟩
  · have hlasts := h.lasts_aside hfree hd hnone
    have hremote : set (set m .onLocal src none) .onLocal dst (some d) .onRemote src = some e := by
      rw [set_of_ne_side (by decide), set_of_ne_side (by decide), he]
    cases s with
    | onLocal => exact hlasts.copyHere (by decide) hremote fun _ => rfl
    | onRemote => exact hlasts.copyThere (by decide) hremote fun _ => rfl
  · intro v q hq d' hd'
    have hqsrc : q ≠ src := fun heq => hboth v.other (heq ▸ hq.2)
    have hqdst : q ≠ dst := fun heq => hshown v (heq ▸ hq)
    rw [set_of_ne_key hqsrc, set_of_ne_key hqdst, set_of_ne_key hqsrc] at hd'
    exact h.shown v q hq d' hd'
  · intro v q hq hshown' d' hd'
    have hqdst : q ≠ dst := fun heq => hshown v (heq ▸ hshown')
    rw [set_of_ne_key (hrest q hq), set_of_ne_key hqdst, set_of_ne_key (hrest q hq)] at hd'
    exact h.across v q (List.mem_cons_of_mem _ hq) hshown' d' hd'
  · intro q hq hq'
    by_cases hqsrc : q = src
    · rw [hqsrc, set_self] at hq'
      cases hq'
    · rw [set_of_ne_key hqsrc] at hq' ⊢
      by_cases hqdst : q = dst
      · rw [hqdst, set_self] at hq'
        cases hq'
      · rw [set_of_ne_key hqdst, set_of_ne_key hqsrc] at hq' ⊢
        exact h.paired q hq hq'
  · intro q hwalked hq
    by_cases hqsrc : q = src
    · rw [hqsrc, set_self]
      exact Option.some_ne_none e
    · rw [set_of_ne_key hqsrc]
      by_cases hqdst : q = dst
      · rw [hqdst, set_self]
        exact Option.some_ne_none d
      · rw [set_of_ne_key hqdst, set_of_ne_key hqsrc]
        exact h.unseen q hwalked hq
  · intro q hq f hf
    have hqdst : q ≠ dst := by
      rintro rfl
      rw [h.local_none hnone (hshown .onLocal) (List.mem_cons_of_mem _ hq)] at hf
      cases hf
    rw [set_of_ne_key (hrest q hq), set_of_ne_key hqdst, set_of_ne_key (hrest q hq)]
    exact h.still q (List.mem_cons_of_mem _ hq) f hf

/-- Files in Peergos are deleted while the content lasts on the disk. -/
theorem SyncInv.loseRemote (h : SyncInv .onLocal c w₀ snap rest m synced)
    {m' : Contents SyncSide SyncPath Bytes} (hlocal : m' .onLocal = m .onLocal)
    (hremote : ∀ q, m' .onRemote q = m .onRemote q ∨ m' .onRemote q = none) :
    SyncInv .onLocal c w₀ snap rest m' synced := by
  have hsub : ∀ v q d, m' v q = some d → m v q = some d := by
    intro v q d hd
    cases v with
    | onLocal => rwa [← hlocal]
    | onRemote =>
        rcases hremote q with heq | hnone
        · rwa [← heq]
        · rw [hnone] at hd
          cases hd
  refine ⟨h.lasts.loseThere hlocal hremote, fun v q hq d hd => h.shown v q hq d (hsub v q d hd),
    fun v q hq hshown d hd => h.across v q hq hshown d (hsub _ q d hd), ?_, ?_, ?_⟩
  · intro q hq hnone
    rw [hlocal] at hnone
    rcases hremote q with heq | hnone'
    · rw [heq]
      exact h.paired q hq hnone
    · exact hnone'
  · rw [hlocal]
    exact h.unseen
  · rw [hlocal]
    exact h.still

/-- A local file that Peergos does not have is deleted while the content lasts in Peergos. -/
theorem SyncInv.loseLocal (hsnap : SnapshotOf env w₀ snap)
    (h : SyncInv .onRemote c w₀ snap (p :: rest) m synced) (hmem : p ∉ rest)
    (hp : ShownOn snap .onLocal p) :
    SyncInv .onRemote c w₀ snap rest (set m .onLocal p none) synced := by
  have hne : ∀ q ∈ rest, q ≠ p := fun q hq heq => hmem (heq ▸ hq)
  have hsub : ∀ v q d, set m .onLocal p none v q = some d → m v q = some d := by
    intro v q d hd
    rw [set_apply] at hd
    split at hd
    · cases hd
    · exact hd
  refine ⟨h.lasts.loseThere (by simp) fun q => ?_, fun v q hq d hd => h.shown v q hq d (hsub v q d hd),
    fun v q hq hshown d hd => h.across v q (List.mem_cons_of_mem _ hq) hshown d (hsub _ q d hd),
    ?_, ?_, ?_⟩
  · rw [show SyncSide.onRemote.other = .onLocal from rfl, set_apply]
    split
    · exact Or.inr rfl
    · exact Or.inl rfl
  · intro q hq hnone
    have hqp : q ≠ p := by
      rintro rfl
      exact hq _ (hp.onlyOn hsnap)
    rw [set_of_ne_key hqp] at hnone ⊢
    exact h.paired q hq hnone
  · intro q hwalked hq
    have hqp : q ≠ p := by
      rintro rfl
      rw [walked_of_shown hsnap hp.1] at hwalked
      cases hwalked
    rw [set_of_ne_key hqp]
    exact h.unseen q hwalked hq
  · intro q hq f hf
    rw [set_of_ne_key (hne q hq)]
    exact h.still q (List.mem_cons_of_mem _ hq) f hf

end Steps

end Peergos
