import PeergosClient.Sync.SyncInvariant

/-!
# The delete flags

What lasts on a side whose deletes are not synced lasts there through any number of syncs, as long
as nothing else is lost by two other ways of the sync.

Conflicting files are one: the local one is renamed to a name that is free locally, and then written
to Peergos under that name, whatever is there.  A local file where Peergos has a directory is the
other: it is written to Peergos in the place of the directory and of all that is below.
-/

namespace Peergos

open Replicas Exec

/-! ## Where nothing else is lost -/

/-- The paths to which a file may be renamed in a conflict. -/
def SyncEnv.MayRename (env : SyncEnv) (p p' : SyncPath) : Prop :=
  ∃ name n, p.getLast? = some name ∧ p' = p.dropLast ++ [n] ∧
    (newName (env.filesystem .onLocal) env.overflow env.fuel p.dropLast name).Yields n

/-- Whether the local file of a path that both sides have is renamed aside: it is new on both, or
changed on both, or changed on one after a delete there that was not synced. -/
def setsAside (synced : RamTreeState) (p : SyncPath) (l r : FileState) : Bool :=
  !inStep l r &&
    match synced.byPath p with
    | none => decide (l.hash ≠ r.hash)
    | some st =>
        if st.equalsIgnoreModtime l then decide (l.hash ≠ r.hash) && synced.hasDelete .onRemote p
        else if st.equalsIgnoreModtime r then
          decide (l.hash ≠ r.hash) && synced.hasDelete .onLocal p
        else decide (l ≠ r ∧ st.hash ≠ r.hash)

/-- What a sync has to find for nothing else to be lost. -/
structure SyncEnv.Untangled (env : SyncEnv) (w : SyncWorld) : Prop where
  /-- A local file is not renamed aside to where one side alone has a file, or has one below. -/
  names : ∀ p l r, env.shown w .onLocal p = some l → env.shown w .onRemote p = some r →
    setsAside w.synced p l r = true → ∀ p', env.MayRename p p' → ∀ q, p' <+: q →
      ∀ u, ¬OnlyOn w.contents u q
  /-- A file that is shown only locally and one that is shown only in Peergos have the same content
  if they are shown with the same hash, and so has a file on the disk that is not shown. -/
  hashes : ∀ p q l r, env.shown w .onLocal p = some l → env.shown w .onRemote p = none →
    env.shown w .onRemote q = some r → env.shown w .onLocal q = none → l.hash = r.hash →
      ∀ u v d e, w.contents u p = some d → w.contents v q = some e → d = e
  /-- Where a file is shown only locally that is not recorded as it is, nothing is below in
  Peergos. -/
  uploads : ∀ p l, env.shown w .onLocal p = some l → env.shown w .onRemote p = none →
    (∀ st, w.synced.byPath p = some st → st.hash ≠ l.hash) →
      ∀ q, p <+: q → q ≠ p → w.contents .onRemote q = none

section Conditions

variable {env : SyncEnv} {w₀ : SyncWorld} {snap : Snapshot} {u : SyncSide} {p src : SyncPath}
  {f l r toMove : FileState}

/-- Below a path at which both sides have a file there is nothing. -/
theorem clearBelow_of_both (h : ∀ u, w₀.contents u p ≠ none) : ClearBelow w₀.contents p :=
  fun q hq hne u honly => honly.1 (w₀.treelike u p q (h u) hq hne)

theorem SyncEnv.Untangled.clearBelow (h : env.Untangled w₀) (hsnap : SnapshotOf env w₀ snap)
    (hl : (snap .onLocal).byPath p = some l) (hr : (snap .onRemote).byPath p = none)
    (hst : ∀ st, w₀.synced.byPath p = some st → st.hash ≠ l.hash) : ClearBelow w₀.contents p := by
  intro q hq hne u honly
  cases u with
  | onLocal =>
      exact honly.1 (w₀.treelike .onLocal p q (hsnap.contents_ne_none (by simp [hl])) hq hne)
  | onRemote =>
      rw [hsnap.byPath] at hl hr
      exact honly.1 (h.uploads p l hl hr hst q hq hne)

/-- The file that is moved for a rename has the content of the one that is renamed. -/
theorem SyncEnv.Untangled.same (h : env.Untangled w₀) (hsnap : SnapshotOf env w₀ snap)
    (hf : (snap u).byPath p = some f) (hother : (snap u.other).byPath p = none)
    (hmove : (snap u.other).byPath src = some toMove) (hsrc : (snap u).byPath src = none)
    (hhash : toMove.hash = f.hash) :
    ∀ v v' d e, w₀.contents v src = some d → w₀.contents v' p = some e → d = e := by
  intro v v' d e hd he
  rw [hsnap.byPath] at hf hother hmove hsrc
  cases u with
  | onLocal => exact (h.hashes p src f toMove hf hother hmove hsrc hhash.symm v' v e d he hd).symm
  | onRemote => exact h.hashes src p toMove f hmove hsrc hf hother hhash v v' d e hd he

end Conditions

/-! ## The handlers -/

section Handlers

variable {env : SyncEnv} {flags : SyncSide → Bool} {s : SyncSide} {c : Bytes} {w₀ : SyncWorld}
  {snap : Snapshot} {rest : List SyncPath} {m : Contents SyncSide SyncPath Bytes}
  {synced : RamTreeState} {u : SyncSide} {p : SyncPath} {f l r st : FileState}

/-- From these contents and this record the computation leads to a state that has the invariant,
and the content lasts even if it fails. -/
def LeadsTo {α : Type} (s : SyncSide) (c : Bytes) (w₀ : SyncWorld) (snap : Snapshot)
    (m : Contents SyncSide SyncPath Bytes) (synced : RamTreeState) (rest : List SyncPath)
    (x : Exec SyncWorld Fault α) : Prop :=
  Triple (fun w : SyncWorld => w.Is m synced) x
    (fun _ w => SyncInv s c w₀ snap rest w.contents w.synced)
    fun _ w => Lasts w.contents s s.other c

/-- The computation keeps the invariant, and the content lasts even if it fails. -/
def Guards {α : Type} (s : SyncSide) (c : Bytes) (w₀ : SyncWorld) (snap : Snapshot)
    (rest rest' : List SyncPath) (x : Exec SyncWorld Fault α) : Prop :=
  ∀ m synced, Treelike m → SyncInv s c w₀ snap rest m synced →
    LeadsTo s c w₀ snap m synced rest' x

variable {rest' rest'' : List SyncPath}

theorem Guards.triple {α : Type} {x : Exec SyncWorld Fault α} (h : Guards s c w₀ snap rest rest' x) :
    Triple (fun w : SyncWorld => SyncInv s c w₀ snap rest w.contents w.synced) x
      (fun _ w => SyncInv s c w₀ snap rest' w.contents w.synced)
      fun _ w => Lasts w.contents s s.other c :=
  triple_is h

theorem LeadsTo.bind {α β : Type} {x : Exec SyncWorld Fault α} {g : α → Exec SyncWorld Fault β}
    {l : List SyncPath} (hx : LeadsTo s c w₀ snap m synced l x)
    (hg : ∀ a, Guards s c w₀ snap l rest' (g a)) : LeadsTo s c w₀ snap m synced rest' (x >>= g) :=
  Triple.bind hx fun a => (hg a).triple

theorem LeadsTo.mono {α : Type} {x : Exec SyncWorld Fault α}
    (h : LeadsTo s c w₀ snap m synced rest' x) (hsub : ∀ p ∈ rest'', p ∈ rest') :
    LeadsTo s c w₀ snap m synced rest'' x :=
  Triple.mono h (fun _ hw => hw) (fun _ _ hw => hw.mono hsub) fun _ _ hw => hw

theorem Guards.bind {α β : Type} {x : Exec SyncWorld Fault α} {g : α → Exec SyncWorld Fault β}
    {l : List SyncPath} (hx : Guards s c w₀ snap rest l x)
    (hg : ∀ a, Guards s c w₀ snap l rest' (g a)) : Guards s c w₀ snap rest rest' (x >>= g) :=
  fun m synced htree hm => (hx m synced htree hm).bind hg

theorem Guards.of_quiet {α : Type} {x : Exec SyncWorld Fault α} (h : Quiet x) :
    Guards s c w₀ snap rest rest x := fun m synced _ hm =>
  Triple.mono (h m synced) (fun _ hw => hw) (fun _ _ hw => hw.holds hm) fun _ w hw => by
    rw [hw.contents]
    exact hm.lasts

theorem leadsTo_sync {g : RamTreeState → RamTreeState}
    (h : SyncInv s c w₀ snap rest m (g synced)) :
    LeadsTo s c w₀ snap m synced rest (SyncEnv.sync g) :=
  (SyncEnv.sync_triple g).mono (fun _ hw => hw) (fun _ _ hw => hw.holds h) fun _ _ hw => hw

/-- The record of a path is written that is not a local file to be dealt with. -/
theorem Guards.sync {g : RamTreeState → RamTreeState} {k : SyncPath}
    (ht : ∀ synced, Touches k synced (g synced)) (hk : k ∈ rest → (snap .onLocal).byPath k = none) :
    Guards s c w₀ snap rest rest (SyncEnv.sync g) := fun _ synced _ hm =>
  leadsTo_sync (hm.touch (ht synced) fun hmem hne => absurd (hk hmem) hne)

theorem Guards.forEach {α : Type} {x : α → Exec SyncWorld Fault Unit} (l : List α)
    (h : ∀ a ∈ l, Guards s c w₀ snap rest rest (x a)) :
    Guards s c w₀ snap rest rest (Exec.forEach l x) := by
  intro m synced _ hm
  refine (Triple.forEach (fun (l' : List α) (w : SyncWorld) =>
    SyncInv s c w₀ snap rest w.contents w.synced ∧ ∀ a ∈ l', a ∈ l)
    (fun a l' => Triple.of_fact fun hl => ?_) l).mono (fun _ hw => ⟨hw.holds hm, fun _ ha => ha⟩)
    (fun _ _ hw => hw.1) fun _ _ hw => hw
  obtain ⟨ha, hl⟩ := List.forall_mem_cons.1 hl
  exact (h a ha).triple.mono (fun _ hw => hw) (fun _ _ hw => ⟨hw, hl⟩) fun _ _ hw => hw

/-- A local file is copied to Peergos. -/
theorem copyFile_local_leads (htree : Treelike m) (hm : SyncInv s c w₀ snap rest m synced)
    (hp : ¬ShownOn snap .onRemote p) (hclear : m .onLocal p ≠ none → ClearBelow w₀.contents p) :
    LeadsTo s c w₀ snap m synced rest (env.copyFile .onLocal p) := by
  refine (env.copyFile_local_triple p fun hne => hm.clear htree hne (hclear hne)).mono
    (fun _ hw => hw) ?_ ?_
  · rintro _ w ⟨d, hd, hw⟩
    exact hw.holds (hm.copyLocal hd hp)
  · rintro _ w hw
    rw [hw.contents]
    exact hm.lasts

/-- A file in Peergos is copied to the disk. -/
theorem copyFile_remote_guards (hmem : p ∉ rest) (hp : ¬ShownOn snap .onLocal p) :
    Guards s c w₀ snap (p :: rest) rest (env.copyFile .onRemote p) := by
  intro m synced _ hm
  refine (env.copyFile_remote_triple p).mono (fun _ hw => hw) ?_ ?_
  · rintro _ w ⟨d, hd, hw⟩
    exact hw.holds (hm.copyRemote hmem hd hp writeAllAt_eq)
  · rintro _ w hw
    rw [hw.contents]
    exact hm.lasts

theorem handleAddition_leads (hsnap : SnapshotOf env w₀ snap) (hclean : env.Untangled w₀)
    (hm : SyncInv s c w₀ snap (p :: rest) m synced) (htree : Treelike m) (hmem : p ∉ rest)
    (hf : (snap u).byPath p = some f) (hother : (snap u.other).byPath p = none)
    (hclear : u = .onLocal → m .onLocal p ≠ none → ClearBelow w₀.contents p) :
    LeadsTo s c w₀ snap m synced rest (env.handleAddition u snap f) := by
  have hpath : f.relPath = p := (snap u).keyed p f hf
  have hshown : ShownOn snap u p := ⟨by simp [hf], hother⟩
  have hrest : ∀ q ∈ rest, q ∈ p :: rest := fun q hq => List.mem_cons_of_mem _ hq
  unfold SyncEnv.handleAddition
  rw [hpath]
  split
  · rename_i hrenamed
    cases hmove : (snap.index u f.hash p).bind fun i => (snap.extra u.other f.hash)[i]? with
    | none => exact (Guards.of_quiet (.fail _) m synced htree hm).mono hrest
    | some toMove =>
        obtain ⟨hsrc, hnone, hhash, hbal⟩ := Snapshot.toMove_spec hrenamed hmove
        dsimp only
        refine LeadsTo.bind (l := p :: rest)
          (Guards.of_quiet ((env.quiet_fileExists u p).unwrapOr false) m synced htree hm)
          fun b => ?_
        intro m synced htree hm
        split
        · have hsrcShown : ShownOn snap u.other toMove.relPath :=
            ⟨by simp [hsrc], by rw [SyncSide.other_other]; exact hnone⟩
          have hne : toMove.relPath ≠ p := by
            intro heq
            rw [heq, hf] at hnone
            cases hnone
          refine Triple.bind ((env.moveTo_triple u.other hne).mono (fun _ hw => hw)
            (fun _ _ hw => hw) ?_) fun _ => ?_
          · rintro _ w hw
            rw [hw.contents]
            exact hm.lasts
          · rintro w ⟨d, hd, hw⟩
            have hmoved := hm.move hsnap hmem hsrcShown (by rwa [SyncSide.other_other])
              (fun v d e => hclean.same hsnap hf hother hsrc hnone hhash _ v d e) hd
              fun f' hf' => Option.some.inj (hsrc.symm.trans hf') ▸ hbal
            have hrecord : LeadsTo s c w₀ snap
                (set (set m u.other toMove.relPath none) u.other p (some d)) synced rest
                (SyncEnv.sync fun synced => (synced.remove toMove.relPath).add f) := by
              refine leadsTo_sync ((hmoved.touch (touches_remove _ toMove.relPath)
                fun _ hlocal => ?_).touch (touches_add _ f) fun hmem' =>
                  absurd (hpath ▸ hmem') hmem)
              -- a local file is recorded no more where it was moved away
              cases u with
              | onLocal => exact absurd hnone hlocal
              | onRemote =>
                  rw [set_of_ne_key hne]
                  exact set_self _ _ _ _
            exact hrecord w hw
        · exact (Guards.of_quiet (.pure _) m synced htree hm).mono hrest
  · have hadd : Guards s c w₀ snap rest rest (SyncEnv.sync (·.add f)) :=
      .sync (fun synced => touches_add synced f) fun hmem' => absurd (hpath ▸ hmem') hmem
    cases u with
    | onLocal =>
        exact ((copyFile_local_leads htree hm hshown.not_other (hclear rfl)).mono hrest).bind
          fun _ => hadd
    | onRemote =>
        exact (copyFile_remote_guards hmem hshown.not_other m synced htree hm).bind fun _ => hadd

/-- The name found is free on the disk. -/
theorem newName_triple (parent : SyncPath) (name : String) :
    Triple (fun w : SyncWorld => w.Is m synced)
      (newName (env.filesystem .onLocal) env.overflow env.fuel parent name)
      (fun n w => w.Is m synced ∧ m .onLocal (parent ++ [n]) = none)
      fun _ w => w.Is m synced := by
  have hexists : ∀ n, Triple (fun w : SyncWorld => w.Is m synced)
      (unwrapOr ((env.filesystem .onLocal).fileExists (parent ++ [n])) false)
      (fun b w => w.Is m synced ∧ (b = false → m .onLocal (parent ++ [n]) = none))
      fun _ w => w.Is m synced := by
    rintro n w hw
    refine ⟨hw, fun hb => ?_⟩
    have hnone : (w.trees .onLocal).get (parent ++ [n]) = none := by
      by_contra hne
      exact Bool.false_ne_true (hb.symm.trans (FileTree.has_iff.2 (Or.inr hne)))
    rw [← congrFun (congrFun hw.contents .onLocal) _]
    show ((w.trees .onLocal).file _).map _ = none
    rw [FileTree.file, hnone]
    rfl
  have hlift : ∀ {α : Type} (r : Result α), Triple (fun w : SyncWorld => w.Is m synced)
      (Exec.lift r) (fun _ w => w.Is m synced) fun _ w => w.Is m synced :=
    fun r => Keeps.lift r
  unfold newName
  split
  · refine (hlift _).bind fun mk => ?_
    generalize env.fuel = fuel
    induction fuel with
    | zero => exact Triple.fail fun _ hw => hw
    | succ fuel ih =>
        unfold nextVersion
        refine (hlift _).bind fun v => (hexists _).bind fun b => Triple.of_fact fun hb => ?_
        split
        · exact ih
        · exact Triple.pure fun w hw => ⟨hw, hb (by simp_all)⟩
  · generalize 0 = version
    generalize env.fuel = fuel
    induction fuel generalizing version with
    | zero => exact Triple.fail fun _ hw => hw
    | succ fuel ih =>
        unfold firstVersion
        refine (hlift _).bind fun parts => (hexists _).bind fun b => Triple.of_fact fun hb => ?_
        split
        · exact (hlift _).bind fun v => ih v
        · exact Triple.pure fun w hw => ⟨hw, hb (by simp_all)⟩

/-- A rename in a conflict, to a name that is free on the disk. -/
theorem renameOnConflict_triple (hl : l.relPath = p) (hp : m .onLocal p ≠ none) :
    Triple (fun w : SyncWorld => w.Is m synced)
      (renameOnConflict (env.filesystem .onLocal) env.overflow env.fuel p l)
      (fun aside w => env.MayRename p aside.relPath ∧ m .onLocal aside.relPath = none ∧
        ∃ d, m .onLocal p = some d ∧
          w.Is (set (set m .onLocal p none) .onLocal aside.relPath (some d)) synced)
      fun _ w => w.Is m synced ∨ ∃ p' d, env.MayRename p p' ∧ m .onLocal p' = none ∧
        m .onLocal p = some d ∧
          w.Is (set (set m .onLocal p none) .onLocal p' (some d)) synced := by
  unfold renameOnConflict
  cases hname : p.getLast? with
  | none => exact Triple.fail fun _ hw => Or.inl hw
  | some name =>
      dsimp only
      refine Triple.bind ((Triple.yields (newName_triple p.dropLast name)).mono (fun _ hw => hw)
        (fun _ _ hw => hw) fun _ _ hw => Or.inl hw) fun n => Triple.of_fact fun hyields =>
          Triple.of_fact fun hnone => ?_
      have hmay : env.MayRename p (p.dropLast ++ [n]) := ⟨name, n, hname, rfl, hyields⟩
      have hne : p ≠ p.dropLast ++ [n] := by
        intro heq
        rw [← heq] at hnone
        exact hp hnone
      refine Triple.bind ((env.moveTo_triple .onLocal hne).mono (fun _ hw => hw)
        (fun _ _ hw => hw) fun _ _ hw => Or.inl hw) fun _ => ?_
      rintro w ⟨d, hd, hw⟩
      have hquiet : Quiet (unwrapOr ((env.filesystem .onLocal).getLastModified
          (p.dropLast ++ [n])) l.modificationTime) := (env.quiet_lookAt _ _ _).unwrapOr _
      refine Triple.bind ((hquiet _ _).mono (fun _ hw => hw) (fun _ _ hw => hw)
        fun _ _ hw => Or.inr ⟨_, d, hmay, hnone, hd, hw⟩) (fun time => Triple.pure ?_) w hw
      intro w hw
      rw [hl, if_pos hname]
      exact ⟨hmay, hnone, d, hd, hw⟩

/-- Both files are kept: the local one under a new name. -/
theorem keepBoth_leads (hsnap : SnapshotOf env w₀ snap)
    (hm : SyncInv s c w₀ snap (p :: rest) m synced) (hmem : p ∉ rest)
    (hl : (snap .onLocal).byPath p = some l) (hr : (snap .onRemote).byPath p = some r)
    (hfree : ∀ p', env.MayRename p p' → ∀ q, p' <+: q → ∀ v, ¬OnlyOn w₀.contents v q) :
    LeadsTo s c w₀ snap m synced rest (env.keepBoth l r) := by
  have hlpath : l.relPath = p := (snap .onLocal).keyed p l hl
  have hrpath : r.relPath = p := (snap .onRemote).keyed p r hr
  have hboth : ∀ v, (snap v).byPath p ≠ none := by rintro (_ | _) <;> simp [hl, hr]
  have hlocal : m .onLocal p ≠ none := by
    rcases hm.still p List.mem_cons_self l hl with ⟨hne, -⟩ | ⟨-, hnone, -⟩
    · exact hne
    · exact absurd hnone (hboth _)
  unfold SyncEnv.keepBoth
  rw [hlpath, hrpath]
  refine Triple.bind ((renameOnConflict_triple hlpath hlocal).mono (fun _ hw => hw)
    (fun _ _ hw => hw) ?_) fun aside => ?_
  · rintro _ w (hw | ⟨p', d, hmay, hnone, hd, hw⟩)
    · rw [hw.contents]
      exact hm.lasts
    · rw [hw.contents]
      exact hm.lasts_aside (hfree p' hmay p' List.prefix_rfl) hd hnone
  rintro w ⟨hmay, hnone, d, hd, hw⟩
  have hfreeAt := hfree _ hmay _ List.prefix_rfl
  have hshown := hm.not_shownOn hsnap hfreeAt hnone
  have hne : p ≠ aside.relPath := by
    rintro heq
    rw [← heq, hd] at hnone
    cases hnone
  refine Triple.bind (m := fun _ w => SyncInv s c w₀ snap rest w.contents w.synced)
    ((env.copyFile_remote_triple p).mono (fun _ hw => hw) ?_ ?_) (fun _ => Guards.triple ?_) w hw
  · rintro _ w ⟨e, he, hw⟩
    rw [set_of_ne_side (by decide), set_of_ne_side (by decide)] at he
    refine hw.holds ?_
    rw [writeAllAt_eq (by simp [hne])]
    exact hm.aside hsnap hmem hboth hfreeAt hd hnone he
  · rintro _ w hw
    rw [hw.contents]
    exact hm.lasts_aside hfreeAt hd hnone
  · refine (Guards.sync (k := p) (fun synced => hrpath ▸ touches_add synced r)
      fun hp => absurd hp hmem).bind fun _ => Guards.bind (l := rest) ?_ fun _ =>
        Guards.sync (fun synced => touches_add synced aside) fun hp =>
          hm.local_none hnone (hshown .onLocal) (List.mem_cons_of_mem _ hp)
    intro m' synced' htree' hm'
    exact copyFile_local_leads htree' hm' (hshown .onRemote) fun _ q hq _ => hfree _ hmay q hq

/-- No name to which a path may be renamed in a conflict leads to a file of one side alone. -/
def FreeNames (env : SyncEnv) (w₀ : SyncWorld) (p : SyncPath) : Prop :=
  ∀ p', env.MayRename p p' → ∀ q, p' <+: q → ∀ v, ¬OnlyOn w₀.contents v q

theorem handleConcurrentAddition_leads (hsnap : SnapshotOf env w₀ snap)
    (hm : SyncInv s c w₀ snap (p :: rest) m synced) (htree : Treelike m) (hmem : p ∉ rest)
    (hl : (snap .onLocal).byPath p = some l) (hr : (snap .onRemote).byPath p = some r)
    (hnone : synced.byPath p = none) (hstep : inStep l r = false)
    (hfree : setsAside synced p l r = true → FreeNames env w₀ p) :
    LeadsTo s c w₀ snap m synced rest (env.handleConcurrentAddition l r) := by
  have hmono : ∀ q ∈ rest, q ∈ p :: rest := fun q hq => List.mem_cons_of_mem _ hq
  have hadd : ∀ {f : FileState}, f.relPath = p →
      Guards s c w₀ snap rest rest (SyncEnv.sync (·.add f)) := fun hf =>
    Guards.sync (k := p) (fun synced => hf ▸ touches_add synced _) fun hp => absurd hp hmem
  have hlpath : l.relPath = p := (snap .onLocal).keyed p l hl
  have hrpath : r.relPath = p := (snap .onRemote).keyed p r hr
  have htime : ∀ u time, LeadsTo s c w₀ snap m synced rest
      (env.setModificationTime u l.relPath time) := fun u time =>
    (Guards.of_quiet (env.quiet_setModificationTime _ _ _) m synced htree hm).mono hmono
  unfold SyncEnv.handleConcurrentAddition
  split
  · split
    · exact (htime _ _).bind fun _ => hadd hlpath
    · split
      · exact (htime _ _).bind fun _ => hadd hrpath
      · exact hadd hlpath m synced htree (hm.mono hmono)
  · rename_i hne
    exact keepBoth_leads hsnap hm hmem hl hr (hfree (by simp [setsAside, hstep, hnone, hne]))

theorem handleConcurrentChange_leads (hsnap : SnapshotOf env w₀ snap)
    (hm : SyncInv s c w₀ snap (p :: rest) m synced) (htree : Treelike m) (hmem : p ∉ rest)
    (hl : (snap .onLocal).byPath p = some l) (hr : (snap .onRemote).byPath p = some r)
    (hfree : l ≠ r → st.hash ≠ r.hash → FreeNames env w₀ p) :
    LeadsTo s c w₀ snap m synced rest (env.handleConcurrentChange st l r) := by
  have hmono : ∀ q ∈ rest, q ∈ p :: rest := fun q hq => List.mem_cons_of_mem _ hq
  have hlpath : l.relPath = p := (snap .onLocal).keyed p l hl
  have hadd : Guards s c w₀ snap rest rest (SyncEnv.sync (·.add l)) :=
    Guards.sync (k := p) (fun synced => hlpath ▸ touches_add synced l) fun hp => absurd hp hmem
  have hboth : ∀ v, (snap v).byPath p ≠ none := by rintro (_ | _) <;> simp [hl, hr]
  unfold SyncEnv.handleConcurrentChange
  split
  · exact hadd m synced htree (hm.mono hmono)
  · rename_i hne
    split
    · rw [hlpath]
      exact ((copyFile_local_leads htree hm (fun h => hboth _ h.2) fun _ =>
        clearBelow_of_both fun v => hsnap.contents_ne_none (hboth v)).mono hmono).bind fun _ => hadd
    · exact keepBoth_leads hsnap hm hmem hl hr (hfree hne ‹_›)

theorem forgetDelete_guards (hmem : p ∉ rest) :
    Guards s c w₀ snap rest rest (SyncEnv.forgetDelete flags u p) := by
  refine Guards.sync (k := p) (fun synced => ?_) fun hp => absurd hp hmem
  split
  · exact touches_removeDelete synced u p
  · exact touches_refl p synced

theorem handleChange_leads (hsnap : SnapshotOf env w₀ snap)
    (hm : SyncInv s c w₀ snap (p :: rest) m synced) (htree : Treelike m) (hmem : p ∉ rest)
    (hl : (snap .onLocal).byPath p = some l) (hr : (snap .onRemote).byPath p = some r)
    (hf : (snap u).byPath p = some f) {kept : FileState}
    (hfree : f.hash ≠ kept.hash → synced.hasDelete u p = true → FreeNames env w₀ p) :
    LeadsTo s c w₀ snap m synced rest (env.handleChange flags u l r f kept) := by
  have hmono : ∀ q ∈ rest, q ∈ p :: rest := fun q hq => List.mem_cons_of_mem _ hq
  have hadd : ∀ {f : FileState}, f.relPath = p →
      Guards s c w₀ snap rest rest (SyncEnv.sync (·.add f)) := fun hf =>
    Guards.sync (k := p) (fun synced => hf ▸ touches_add synced _) fun hp => absurd hp hmem
  have hboth : ∀ v, (snap v).byPath p ≠ none := by rintro (_ | _) <;> simp [hl, hr]
  unfold SyncEnv.handleChange
  rw [(snap u).keyed p f hf]
  refine (SyncEnv.reads_triple fun r => r).bind fun a => Triple.of_fact fun ha => ?_
  subst ha
  split
  · exact LeadsTo.bind (hadd ((snap .onLocal).keyed p l hl) m a htree (hm.mono hmono)) fun _ =>
      (forgetDelete_guards hmem).bind fun _ => forgetDelete_guards hmem
  · rename_i hne
    split
    · exact (keepBoth_leads hsnap hm hmem hl hr (hfree hne ‹_›)).bind fun _ =>
        Guards.sync (fun synced => touches_removeDelete synced u p) fun hp => absurd hp hmem
    · refine LeadsTo.bind (l := rest) ?_ fun _ => hadd ((snap u).keyed p f hf)
      cases u with
      | onLocal =>
          exact (copyFile_local_leads htree hm (fun h => hboth _ h.2) fun _ =>
            clearBelow_of_both fun v => hsnap.contents_ne_none (hboth v)).mono hmono
      | onRemote => exact copyFile_remote_guards hmem (fun h => hboth _ h.2) m a htree hm

theorem handleBothExist_leads (hsnap : SnapshotOf env w₀ snap)
    (hm : SyncInv s c w₀ snap (p :: rest) m synced) (htree : Treelike m) (hmem : p ∉ rest)
    (hl : (snap .onLocal).byPath p = some l) (hr : (snap .onRemote).byPath p = some r)
    (hst : synced.byPath p = some st) (hstep : inStep l r = false)
    (hfree : setsAside synced p l r = true → FreeNames env w₀ p) :
    LeadsTo s c w₀ snap m synced rest (env.handleBothExist flags st l r) := by
  unfold SyncEnv.handleBothExist
  split
  · rename_i heq
    exact handleChange_leads hsnap hm htree hmem hl hr hr fun hne hdelete =>
      hfree (by simp [setsAside, hstep, hst, heq, hdelete, Ne.symm hne])
  · rename_i hnl
    split
    · rename_i heq
      exact handleChange_leads hsnap hm htree hmem hl hr hl fun hne hdelete =>
        hfree (by simp [setsAside, hstep, hst, hnl, heq, hdelete, hne])
    · rename_i hnr
      exact handleConcurrentChange_leads hsnap hm htree hmem hl hr fun hne hhash =>
        hfree (by simp [setsAside, hstep, hst, hnl, hnr, hne, hhash])

/-- A file is deleted that the side across has given up. -/
theorem delete_leads (hsnap : SnapshotOf env w₀ snap)
    (hm : SyncInv s c w₀ snap (p :: rest) m synced) (htree : Treelike m) (hmem : p ∉ rest)
    (hf : (snap s.other).byPath p = some f) (hgone : (snap s).byPath p = none)
    (hbal : snap.balanced f.hash = false) :
    LeadsTo s c w₀ snap m synced rest (env.delete s.other p) := by
  refine (env.delete_triple s.other p).mono (fun _ hw => hw) ?_ ?_
  · rintro _ w hw
    refine hw.holds ?_
    cases s with
    | onLocal =>
        refine (hm.mono fun q hq => List.mem_cons_of_mem _ hq).loseRemote ?_ fun q => ?_
        · exact Function.update_of_ne (by decide) _ _
        · rw [show SyncSide.onLocal.other = .onRemote from rfl, Function.update_self]
          exact cut_eq_or _ _ _
    | onRemote =>
        have hlocal : m .onLocal p ≠ none := by
          rcases hm.still p List.mem_cons_self f hf with ⟨hne, -⟩ | ⟨-, -, hbal'⟩
          · exact hne
          · exact absurd (hbal.symm.trans hbal') (by decide)
        rw [show SyncSide.onRemote.other = .onLocal from rfl,
          cut_eq_update fun q => htree .onLocal p q hlocal]
        exact hm.loseLocal hsnap hmem
          ⟨by rw [show (snap .onLocal).byPath p = some f from hf]; exact Option.some_ne_none f,
            hgone⟩
  · rintro _ w hw
    rw [hw.contents]
    exact hm.lasts

theorem handleDelete_leads (hsnap : SnapshotOf env w₀ snap) (hflag : flags s.other = false)
    (hm : SyncInv s c w₀ snap (p :: rest) m synced) (htree : Treelike m) (hmem : p ∉ rest)
    (hst : st.relPath = p) (hgone : (snap u).byPath p = none)
    (hf : (snap u.other).byPath p = some f)
    (hclear : u = .onRemote → st.hash ≠ f.hash → m .onLocal p ≠ none →
      ClearBelow w₀.contents p) :
    LeadsTo s c w₀ snap m synced rest (env.handleDelete flags u snap st f) := by
  have hmono : ∀ q ∈ rest, q ∈ p :: rest := fun q hq => List.mem_cons_of_mem _ hq
  have hm' := hm.mono hmono
  have hpath : f.relPath = p := (snap u.other).keyed p f hf
  have hadd : Guards s c w₀ snap rest rest (SyncEnv.sync (·.add f)) :=
    Guards.sync (k := p) (fun synced => hpath ▸ touches_add synced f) fun hp => absurd hp hmem
  unfold SyncEnv.handleDelete
  rw [hst, hpath, renamed_of_none hgone]
  split
  · split
    · exact Guards.of_quiet (.pure _) m synced htree hm'
    · rename_i hbal
      split
      · rename_i hflagu
        obtain rfl : u = s := by
          rcases SyncSide.eq_or_eq_other s u with hu | hu
          · exact hu
          · rw [hu, hflag] at hflagu
            cases hflagu
        exact (delete_leads hsnap hm htree hmem hf hgone (by simpa using hbal)).bind fun _ =>
          Guards.sync (fun synced => touches_remove synced p) fun hp => absurd hp hmem
      · exact Guards.sync (fun synced => touches_addDelete synced u p) (fun hp => absurd hp hmem)
          m synced htree hm'
  · split
    · exact hadd m synced htree hm'
    · rename_i hne
      refine LeadsTo.bind (l := rest) ?_ fun _ => hadd.bind fun _ => forgetDelete_guards hmem
      cases u with
      | onLocal =>
          exact copyFile_remote_guards hmem (fun h => h.1 hgone) m synced htree hm
      | onRemote =>
          exact (copyFile_local_leads htree hm (fun h => h.1 hgone)
            (hclear rfl (Ne.symm hne))).mono hmono

/-- A path is dealt with by itself. -/
theorem syncFile_guards (hsnap : SnapshotOf env w₀ snap) (hclean : env.Untangled w₀)
    (hflag : flags s.other = false) (hmem : p ∉ rest)
    (hchanged : settledAt snap w₀.synced p = false) :
    Guards s c w₀ snap (p :: rest) rest (env.syncFile flags snap p) := by
  intro m synced htree hm
  have hmono : ∀ q ∈ rest, q ∈ p :: rest := fun q hq => List.mem_cons_of_mem _ hq
  have hclear : ∀ {l : FileState}, (snap .onLocal).byPath p = some l →
      (snap .onRemote).byPath p = none → (∀ st, synced.byPath p = some st → st.hash ≠ l.hash) →
        m .onLocal p ≠ none → ClearBelow w₀.contents p := by
    intro l hl hr hst hne
    rcases hm.still p List.mem_cons_self l hl with ⟨-, hsame⟩ | ⟨hnone, -⟩
    · exact hclean.clearBelow hsnap hl hr fun st hst' => hst st (hsame.byPath.trans hst')
    · exact absurd hnone hne
  have hboth : ∀ {l r : FileState}, (snap .onLocal).byPath p = some l →
      (snap .onRemote).byPath p = some r → inStep l r = false ∧
        (setsAside synced p l r = true → FreeNames env w₀ p) := by
    intro l r hl hr
    have hsame : SameAt w₀.synced synced p := by
      rcases hm.still p List.mem_cons_self l hl with ⟨-, hsame⟩ | ⟨-, hnone, -⟩
      · exact hsame
      · rw [hr] at hnone
        cases hnone
    refine ⟨?_, fun haside p' hmay => hclean.names p l r ?_ ?_ ?_ p' hmay⟩
    · rw [settledAt, hl, hr] at hchanged
      exact (Bool.or_eq_false_iff.1 hchanged).1
    · rw [← hsnap.byPath, hl]
    · rw [← hsnap.byPath, hr]
    · rw [← haside, setsAside, setsAside, hsame.byPath]
      simp only [hsame.hasDelete]
  unfold SyncEnv.syncFile
  refine (SyncEnv.reads_triple (·.byPath p)).bind fun a => Triple.of_fact fun ha => ?_
  split
  · exact handleAddition_leads hsnap hclean hm htree hmem ‹_› ‹_› fun h => by cases h
  · exact handleAddition_leads hsnap hclean hm htree hmem ‹_› ‹_› fun _ =>
      hclear ‹_› ‹_› fun st hst => by rw [← ha] at hst; cases hst
  · obtain ⟨hstep, hfree⟩ := hboth ‹_› ‹_›
    exact handleConcurrentAddition_leads hsnap hm htree hmem ‹_› ‹_› ha.symm hstep hfree
  · exact (Guards.of_quiet (.pure _) m synced htree hm).mono hmono
  · refine Guards.sync (k := p) (fun r => ?_) (fun hp => absurd hp hmem) m synced htree
      (hm.mono hmono)
    exact synced.keyed p _ ha.symm ▸ touches_remove r _
  · exact handleDelete_leads hsnap hflag hm htree hmem (synced.keyed p _ ha.symm) ‹_› ‹_›
      fun h => by cases h
  · refine handleDelete_leads hsnap hflag hm htree hmem (synced.keyed p _ ha.symm) ‹_› ‹_›
      fun _ hne => hclear ‹_› ‹_› fun st hst => ?_
    rw [← ha] at hst
    cases hst
    exact hne
  · obtain ⟨hstep, hfree⟩ := hboth ‹_› ‹_›
    exact handleBothExist_leads hsnap hm htree hmem ‹_› ‹_› ha.symm hstep hfree

/-! ## A sync -/

/-- Local files are uploaded, to where Peergos does not alone show one. -/
theorem uploadSubtree_guards {g : SyncPath → Option Bytes} (files : List (SyncPath × Bytes))
    (hfiles : ∀ file ∈ files, g file.1 = some file.2 ∧ ¬ShownOn snap .onRemote file.1 ∧
      ClearBelow w₀.contents file.1) :
    Triple (fun w : SyncWorld => SyncInv s c w₀ snap rest w.contents w.synced ∧
        w.contents .onLocal = g)
      (env.uploadSubtree files)
      (fun _ w => SyncInv s c w₀ snap rest w.contents w.synced)
      fun _ w => Lasts w.contents s s.other c := by
  refine (Triple.forEach (fun (l : List (SyncPath × Bytes)) (w : SyncWorld) =>
    (SyncInv s c w₀ snap rest w.contents w.synced ∧ w.contents .onLocal = g) ∧
      ∀ file ∈ l, g file.1 = some file.2 ∧ ¬ShownOn snap .onRemote file.1 ∧
        ClearBelow w₀.contents file.1)
    (fun file l => Triple.of_fact fun hl => ?_) files).mono (fun _ hw => ⟨hw, hfiles⟩)
    (fun _ _ hw => hw.1.1) fun _ _ hw => hw
  obtain ⟨⟨hdata, hshown, hclear⟩, hl⟩ := List.forall_mem_cons.1 hl
  refine triple_is (P := fun m r => SyncInv s c w₀ snap rest m r ∧ m .onLocal = g)
    fun m r htree hm => ?_
  have hlocal : m .onLocal file.1 = some file.2 := by rw [hm.2, hdata]
  refine Triple.bind ((env.quiet_mkdirs .onRemote file.1.dropLast m r).mono (fun _ hw => hw)
    (fun _ _ hw => hw) ?_) fun _ => (env.replace_triple file.1 file.2 ?_ ?_).mono
      (fun _ hw => hw) ?_ ?_
  · rintro _ w hw
    rw [hw.contents]
    exact hm.1.lasts
  · exact fun _ _ _ h => SyncTree.content_replace h
  · exact hm.1.clear htree (by rw [hlocal]; exact Option.some_ne_none _) hclear
  · rintro _ w hw
    refine ⟨⟨hw.holds (hm.1.copyLocal hlocal hshown), ?_⟩, hl⟩
    rw [hw.contents, set_of_ne_side (by decide), hm.2]
  · rintro _ w hw
    rw [hw.contents]
    exact hm.1.lasts

/-- The small files that are new locally are uploaded. -/
theorem uploadBatch_guards {batch : List SyncPath}
    (hbatch : ∀ p ∈ batch, p ∉ rest ∧ (snap .onRemote).byPath p = none ∧
      ClearBelow w₀.contents p) :
    Guards s c w₀ snap rest rest (env.uploadBatch snap batch) := by
  unfold SyncEnv.uploadBatch
  split
  · exact .of_quiet (.pure _)
  intro m synced htree hm
  have hfails : ∀ (_ : Fault) (w : SyncWorld), w.Is m synced → Lasts w.contents s s.other c := by
    rintro _ w hw
    rw [hw.contents]
    exact hm.lasts
  refine Triple.bind ((Triple.collect (P := fun w : SyncWorld => w.Is m synced)
    (R := fun p (file : SyncPath × Bytes) => file.1 = p ∧ m .onLocal p = some file.2)
    fun p _ => ?_).mono (fun _ hw => hw) (fun _ _ hw => hw) hfails)
    fun files => Triple.of_fact fun hfiles => ?_
  · refine (env.read_triple .onLocal p).bind fun data => Triple.of_fact fun hdata => ?_
    exact Triple.pure fun w hw => ⟨hw, rfl, hdata⟩
  refine Triple.bind (Triple.observes _) fun n => ?_
  refine Triple.bind ((uploadSubtree_guards (g := m .onLocal) _ ?_).mono ?_ (fun _ _ hw => hw)
    fun _ _ hw => hw) fun _ => Guards.triple (Guards.forEach batch fun p hp => ?_)
  · intro file hfile
    obtain ⟨p, -, hfind⟩ := List.mem_filterMap.1 hfile
    obtain ⟨q, hq, rfl, hdata⟩ :=
      Exec.exists_of_forall₂ hfiles.flip (List.mem_of_find?_eq_some hfind)
    obtain ⟨-, hremote, hclear⟩ := hbatch _ hq
    exact ⟨hdata, fun h => h.1 hremote, hclear⟩
  · exact fun w hw => ⟨hw.holds hm, by rw [hw.contents]⟩
  · cases hl : (snap .onLocal).byPath p with
    | none => exact .of_quiet (.fail _)
    | some l =>
        refine Guards.sync (k := p) (fun r => ?_) fun hmem => absurd hmem (hbatch p hp).1
        exact (snap .onLocal).keyed p l hl ▸ touches_add r l

/-- The files that are gone locally are deleted. -/
theorem processLocalDeletes_guards (hflag : flags s.other = false) {deletes : List SyncPath}
    (hdeletes : ∀ p ∈ deletes, (snap .onLocal).byPath p = none) :
    Guards s c w₀ snap rest rest (env.processLocalDeletes flags deletes) := by
  unfold SyncEnv.processLocalDeletes
  split
  · rename_i hlocal
    rcases SyncSide.eq_or_eq_other s .onLocal with rfl | hs
    · refine (Guards.of_quiet (.reads _)).bind fun n => Guards.forEach _ fun dir _ => ?_
      unfold SyncEnv.deleteFolder
      refine (Guards.of_quiet (.reads _)).bind fun n => Guards.bind (l := rest) ?_ fun _ =>
        Guards.forEach _ fun p hp => ?_
      · refine Guards.forEach _ fun child _ => ?_
        intro m synced _ hm
        refine (env.delete_triple .onRemote _).mono (fun _ hw => hw) ?_ ?_
        · rintro _ w hw
          refine hw.holds (hm.loseRemote ?_ fun q => ?_)
          · exact Function.update_of_ne (by decide) _ _
          · rw [Function.update_self]
            exact cut_eq_or _ _ _
        · rintro _ w hw
          rw [hw.contents]
          exact hm.lasts
      · have hp := (List.mem_filter.1 ((env.perm n _).mem_iff.1 hp)).1
        exact Guards.sync (fun r => touches_remove r p) fun _ => hdeletes p hp
    · rw [← hs, hlocal] at hflag
      cases hflag
  · exact Guards.forEach _ fun p hp =>
      Guards.sync (fun r => touches_addDelete r .onLocal p) fun _ => hdeletes p hp

/-- The files of a sync. -/
theorem syncFiles_lasts (hsnap : SnapshotOf env w₀ snap) (hclean : env.Untangled w₀)
    (hflag : flags s.other = false) (hlasts : Lasts w₀.contents s s.other c) :
    Triple (fun w : SyncWorld => w.Is w₀.contents w₀.synced) (env.syncFiles flags snap)
      (fun _ w => Lasts w.contents s s.other c) fun _ w => Lasts w.contents s s.other c := by
  unfold SyncEnv.syncFiles
  refine Triple.bind ((changedPaths_triple snap.allPaths).mono (fun _ hw => hw)
    (fun _ _ hw => hw) ?_) fun changed => Triple.of_fact fun hchanged => ?_
  · rintro _ w hw
    rw [hw]
    exact hlasts
  obtain ⟨hsub, hunsettled⟩ := hchanged
  refine triple_is (P := fun m r => m = w₀.contents ∧ Kept snap w₀.synced r)
    fun m synced htree hm => ?_
  obtain ⟨rfl, hkept⟩ := hm
  refine (SyncEnv.reads_triple fun r => r).bind fun a => Triple.of_fact fun ha => ?_
  subst ha
  dsimp only
  set plan := changed.foldl (SyncPlan.classify snap a) .start with hplan
  have hplanned : Planned snap a plan := planned_start.foldl changed
  set todo := changed.filter fun p => !plan.doneFiles.contains p with htodo
  have hnodup : todo.Nodup := (hsub.nodup (nodup_allPaths snap)).filter _
  have hdone : ∀ p ∈ plan.doneFiles, p ∉ todo := by
    intro p hp hmem
    have := (List.mem_filter.1 hmem).2
    simp [hp] at this
  have hinit : SyncInv s c w₀ snap todo w₀.contents a := by
    refine ⟨hlasts, fun _ _ _ d hd => hd, fun u p _ _ d hd => ⟨_, hd⟩, ?_, fun _ _ hp => hp, ?_⟩
    · intro p hone hnone
      by_contra hremote
      exact hone .onRemote ⟨hremote, hnone⟩
    · intro p hp f hf
      exact Or.inl ⟨hsnap.contents_ne_none (by simp [hf]),
        (hkept p).2 (hunsettled p (List.mem_filter.1 hp).1)⟩
  have hbatches : ∀ b ∈ plan.batches ++ [plan.batch],
      Guards s c w₀ snap todo todo (env.uploadBatch snap b) := by
    refine fun b hb => uploadBatch_guards fun p hp => ?_
    obtain ⟨hmem, hnone, hremote, hlocal⟩ := hplanned.batches b hb p hp
    obtain ⟨l, hl⟩ := Option.ne_none_iff_exists'.1 hlocal
    refine ⟨hdone p hmem, hremote, hclean.clearBelow hsnap hl hremote fun st hst => ?_⟩
    have hsame := (hkept p).2 (by rw [settledAt, hl, hremote])
    rw [← hsame.byPath, hnone] at hst
    cases hst
  refine Triple.bind (m := fun _ (w : SyncWorld) => SyncInv s c w₀ snap todo w.contents w.synced)
    ((Guards.forEach _ hbatches) w₀.contents a htree hinit) fun _ =>
      Triple.bind (processLocalDeletes_guards hflag hplanned.deletes).triple fun _ => ?_
  refine (Triple.forEach (fun (l : List SyncPath) (w : SyncWorld) =>
    SyncInv s c w₀ snap l w.contents w.synced ∧ l.Nodup ∧
      ∀ p ∈ l, settledAt snap w₀.synced p = false) (fun p l => Triple.of_fact fun hl => ?_) _).mono
    (fun _ hw => ⟨hw, hnodup, fun p hp => hunsettled p (List.mem_filter.1 hp).1⟩)
    (fun _ _ hw => hw.1.lasts) fun _ _ hw => hw
  obtain ⟨hmem, hnodup⟩ := List.nodup_cons.1 hl.1
  obtain ⟨hp, hl⟩ := List.forall_mem_cons.1 hl.2
  exact (syncFile_guards hsnap hclean hflag hmem hp).triple.mono (fun _ hw => hw)
    (fun _ _ hw => ⟨hw, hnodup, hl⟩) fun _ _ hw => hw

/-- A directory that one side lacks is made there, or the other side loses it if it may. -/
theorem syncDirectory_lasts (hflag : flags s.other = false) (p : SyncPath) :
    Triple (fun w : SyncWorld => Lasts w.contents s s.other c) (env.syncDirectory flags snap p)
      (fun _ w => Lasts w.contents s s.other c) fun _ w => Lasts w.contents s s.other c := by
  have hquiet : ∀ {x : Exec SyncWorld Fault Unit}, Quiet x →
      Triple (fun w : SyncWorld => Lasts w.contents s s.other c) x
        (fun _ w => Lasts w.contents s s.other c) fun _ w => Lasts w.contents s s.other c :=
    fun h => h.triple fun m _ => Lasts m s s.other c
  have hsync : ∀ g, Triple (fun w : SyncWorld => Lasts w.contents s s.other c) (SyncEnv.sync g)
      (fun _ w => Lasts w.contents s s.other c) fun _ w => Lasts w.contents s s.other c :=
    fun g => Triple.update fun _ hw => hw
  have hone : ∀ u, Triple (fun w : SyncWorld => Lasts w.contents s s.other c)
      (env.syncDirectoryOf flags u p) (fun _ w => Lasts w.contents s s.other c)
      fun _ w => Lasts w.contents s s.other c := by
    intro u
    unfold SyncEnv.syncDirectoryOf
    refine Triple.bind ((Quiet.reads _).triple fun m _ => Lasts m s s.other c) fun b => ?_
    split
    · split
      · rename_i hu
        obtain rfl : u = s.other := by
          rcases SyncSide.eq_or_eq_other s u with rfl | hus
          · rw [hflag] at hu
            cases hu
          · exact hus
        refine Triple.bind (triple_is (P := fun m _ => Lasts m s s.other c)
          (Q := fun _ w => Lasts w.contents s s.other c) fun m r _ hm => ?_) fun _ => hsync _
        refine (env.delete_triple s.other p).mono (fun _ hw => hw) ?_ ?_
        · rintro _ w hw
          rw [hw.contents]
          refine hm.loseThere (Function.update_of_ne (SyncSide.other_ne s).symm _ _) fun q => ?_
          rw [Function.update_self]
          exact cut_eq_or _ _ _
        · rintro _ w hw
          rw [hw.contents]
          exact hm
      · exact hquiet (.pure _)
    · exact Triple.bind (hquiet (env.quiet_mkdirs _ _)) fun _ => hsync _
  unfold SyncEnv.syncDirectory
  split
  · exact hsync _
  · exact hsync _
  · exact hone .onLocal
  · exact hone .onRemote

end Handlers

/-! ## Runs -/

section Runs

variable {env : SyncEnv} {flags : SyncSide → Bool} {s : SyncSide} {c : Bytes} {w w' : SyncWorld}

theorem SameTrees.is (h : SameTrees w.trees w.synced w') : w'.Is w.contents w.synced := by
  refine ⟨?_, h.2⟩
  funext u p
  rw [SyncWorld.contents, SyncWorld.contentAt, SyncWorld.fileAt, h.1]
  rfl

/-- A content that lasts on a side whose deletes are not synced lasts there after a sync, also
after one that fails. -/
theorem syncDir_lasts (hflag : flags s.other = false) (hclean : env.Untangled w)
    (h : Lasts w.contents s s.other c) : Lasts (env.syncDir flags w).2.contents s s.other c := by
  have hfails : ∀ {w' : SyncWorld}, SameTrees w.trees w.synced w' →
      Lasts w'.contents s s.other c := fun hw' => by
    rw [hw'.is.contents]
    exact h
  have htriple : Triple (SameTrees w.trees w.synced) (env.syncDir flags)
      (fun _ w => Lasts w.contents s s.other c) fun _ w => Lasts w.contents s s.other c := by
    unfold SyncEnv.syncDir
    refine Triple.bind (buildDirState_triple.mono (fun _ hw => hw)
      (fun _ _ hw => hw) fun _ _ hw => hfails hw) fun localState => Triple.of_fact fun hlocal => ?_
    refine Triple.bind (buildDirState_triple.mono (fun _ hw => hw)
      (fun _ _ hw => hw) fun _ _ hw => hfails hw) fun remoteState => Triple.of_fact fun hremote => ?_
    dsimp only
    set snap : Snapshot := fun s => SyncSide.casesOn s localState remoteState
    have hsnap : SnapshotOf env w snap := .of_shows fun u => by
      cases u with
      | onLocal => exact hlocal
      | onRemote => exact hremote
    refine Triple.bind ((syncFiles_lasts hsnap hclean hflag h).mono (fun _ hw => hw.is)
      (fun _ _ hw => hw) fun _ _ hw => hw) fun _ => ?_
    unfold SyncEnv.syncDirectories
    refine Triple.bind ((Quiet.reads _).triple fun m _ => Lasts m s s.other c) fun synced => ?_
    exact Triple.forEach (fun (_ : List SyncPath) (w : SyncWorld) => Lasts w.contents s s.other c)
      (fun p _ => syncDirectory_lasts hflag p) _
  have hrun := htriple w ⟨rfl, rfl⟩
  rcases hw : env.syncDir flags w with ⟨_ | _, w'⟩ <;> rw [hw] at hrun <;> exact hrun

/-- Syncs one after the other.  Between two, files of other contents may come, change and go, away
from the places where side `s` holds `c`. -/
inductive SyncRuns (env : SyncEnv) (flags : SyncSide → Bool) (s : SyncSide) (c : Bytes) :
    SyncWorld → SyncWorld → Prop
  | refl (w : SyncWorld) : SyncRuns env flags s c w w
  | sync {w w' : SyncWorld} (h : SyncRuns env flags s c w w') (hclean : env.Untangled w') :
      SyncRuns env flags s c w (env.syncDir flags w').2
  | outside {w w' w'' : SyncWorld} (h : SyncRuns env flags s c w w')
      (hkept : ∀ p, w'.contentAt s p = some c →
        ∀ u, w''.contentAt u p = w'.contentAt u p) : SyncRuns env flags s c w w''

theorem SyncRuns.lasts (hflag : flags s.other = false) (hruns : SyncRuns env flags s c w w')
    (h : Lasts w.contents s s.other c) : Lasts w'.contents s s.other c := by
  induction hruns with
  | refl => exact h
  | sync _ hclean ih => exact syncDir_lasts hflag hclean ih
  | outside _ hkept ih =>
      obtain ⟨q, hq, hother⟩ := ih
      refine ⟨q, (hkept q hq s).trans hq, fun v hv => hother v ?_⟩
      exact (hkept q hq s.other).symm.trans hv

/-- With the flag for its deletes off, a file that is gone from one side keeps its content on the
other through any number of syncs. -/
theorem syncDir_keeps_content (hflag : flags s.other = false) {p : SyncPath}
    (hc : w.contentAt s p = some c) (hgone : w.contentAt s.other p = none)
    (hruns : SyncRuns env flags s c w w') : ∃ q, w'.contentAt s q = some c := by
  have hlasts : Lasts w.contents s s.other c := by
    refine ⟨p, hc, fun v hv => ?_⟩
    rw [show w.contents s.other p = none from hgone] at hv
    cases hv
  obtain ⟨q, hq, -⟩ := hruns.lasts hflag hlasts
  exact ⟨q, hq⟩

end Runs

/-! ## Examples -/

section Examples

variable {env : SyncEnv} {w : SyncWorld} {s : SyncSide} {p : SyncPath} {f : FileState}

theorem SyncEnv.mem_filePaths_of_shown (h : env.shown w s p = some f) :
    p ∈ (w.trees s).filePaths := by
  refine FileTree.mem_filePaths.2 fun hnone => ?_
  rw [SyncEnv.shown, SyncWorld.fileAt, hnone, Option.bind_none, ite_self] at h
  cases h

/-- Nothing is lost by the other two ways where the files that both sides show do not conflict, two
that are shown by one side only have different hashes, and nothing in Peergos is below a local
file. -/
theorem SyncEnv.Untangled.of_apart
    (hnames : ∀ p ∈ (w.trees .onLocal).filePaths, ((env.shown w .onLocal p).bind fun l =>
      (env.shown w .onRemote p).map (setsAside w.synced p l)) ≠ some true)
    (hhashes : ∀ p ∈ (w.trees .onLocal).filePaths, ∀ q ∈ (w.trees .onRemote).filePaths,
      (env.shown w .onLocal p).map (·.hash) = (env.shown w .onRemote q).map (·.hash) →
        env.shown w .onRemote p ≠ none ∨ env.shown w .onLocal q ≠ none)
    (huploads : ∀ p ∈ (w.trees .onLocal).filePaths, ∀ q ∈ (w.trees .onRemote).filePaths,
      p <+: q → q = p) : env.Untangled w where
  names p l r hl hr haside := by
    refine absurd ?_ (hnames p (mem_filePaths_of_shown hl))
    rw [hl, hr, Option.bind_some, Option.map_some, haside]
  hashes p q l r hl hp hr hq hhash := by
    rcases hhashes p (mem_filePaths_of_shown hl) q (mem_filePaths_of_shown hr)
      (by rw [hl, hr, Option.map_some, Option.map_some, hhash]) with h | h
    · exact absurd hp h
    · exact absurd hq h
  uploads p l hl _ _ q hq hne := by
    by_contra hremote
    refine hne (huploads p (mem_filePaths_of_shown hl) q (FileTree.mem_filePaths.2 ?_) hq)
    exact fun hnone => hremote (Option.map_eq_none_iff.2 hnone)

end Examples

/-- No call fails. -/
def calmEnv : SyncEnv where
  overflow := .checked
  fuel := 3
  fails := fun _ => false
  now := fun n => 1000 * n
  hasher := legacyHasher
  arrange := fun _ l => l
  perm := fun _ l => .refl l

/-- A file that was written long ago. -/
def oldFile (content : Bytes) : FileTree.Node SyncedFile := .file ⟨content, 0, chunkSizeForNewFiles⟩

/-- In the directory `d` the file `a` was synced and then deleted locally, `b` is on both sides, and
`c` is new locally. -/
def deletedLocally : SyncWorld where
  trees := fun s =>
    match s with
    | .onLocal => ⟨⟨[(["d"], .dir), (["d", "b"], oldFile [2]), (["d", "c"], oldFile [3])],
        by decide⟩, by decide⟩
    | .onRemote => ⟨⟨[(["d"], .dir), (["d", "a"], oldFile [1]), (["d", "b"], oldFile [2])],
        by decide⟩, by decide⟩
  synced := RamTreeState.add .new ⟨["d", "a"], 0, 1, Sha256.sha256 [1], chunkSizeForNewFiles⟩
  calls := 0

theorem deletedLocally_untangled : calmEnv.Untangled deletedLocally :=
  .of_apart (by decide +kernel) (by decide +kernel) (by decide +kernel)

theorem deletedLocally_synced_untangled :
    calmEnv.Untangled (calmEnv.syncDir (fun s => s = .onRemote) deletedLocally).2 :=
  .of_apart (by decide +kernel) (by decide +kernel) (by decide +kernel)

/-- Two syncs one after the other leave the file that was deleted locally in Peergos. -/
theorem deletedLocally_keeps :
    ∃ q, (calmEnv.syncDir (fun s => s = .onRemote)
      (calmEnv.syncDir (fun s => s = .onRemote) deletedLocally).2).2.contentAt .onRemote q =
        some [1] :=
  syncDir_keeps_content (s := .onRemote) (p := ["d", "a"]) (by decide) (by decide) (by decide)
    (.sync (.sync (.refl deletedLocally) deletedLocally_untangled) deletedLocally_synced_untangled)

/-- Both sides have a new file `d/a`.  In Peergos there is also one under the name that the local
`d/a` gets in the conflict. -/
def nameTaken : SyncWorld where
  trees := fun s =>
    match s with
    | .onLocal => ⟨⟨[(["d"], .dir), (["d", "a"], oldFile [2])], by decide⟩, by decide⟩
    | .onRemote => ⟨⟨[(["d"], .dir), (["d", "a"], oldFile [1]),
        (["d", "a[conflict-0]"], oldFile [3])], by decide⟩, by decide⟩
  synced := .new
  calls := 0

/-- The local `d/a` takes the place of the file in Peergos, which is lost. -/
theorem nameTaken_loses :
    ¬∀ (env : SyncEnv) (flags : SyncSide → Bool) (w : SyncWorld) (s : SyncSide) (p : SyncPath)
      (c : Bytes), flags s.other = false → w.contentAt s p = some c →
      w.contentAt s.other p = none → ∃ q, (env.syncDir flags w).2.contentAt s q = some c := by
  intro h
  obtain ⟨q, hq⟩ := h calmEnv (fun _ => false) nameTaken .onRemote ["d", "a[conflict-0]"] [3] rfl
    (by decide) (by decide)
  have hlost : ∀ p ∈ ((calmEnv.syncDir (fun _ => false) nameTaken).2.trees .onRemote).filePaths,
      (calmEnv.syncDir (fun _ => false) nameTaken).2.contentAt .onRemote p ≠ some [3] := by
    decide +kernel
  refine hlost q (FileTree.mem_filePaths.2 fun hnone => ?_) hq
  rw [SyncWorld.contentAt, SyncWorld.fileAt, hnone] at hq
  cases hq

/-- The local `d` has a new file `a`, and in Peergos `a` is a directory with a file `b`. -/
def directoryTaken : SyncWorld where
  trees := fun s =>
    match s with
    | .onLocal => ⟨⟨[(["d"], .dir), (["d", "a"], oldFile [2])], by decide⟩, by decide⟩
    | .onRemote => ⟨⟨[(["d"], .dir), (["d", "a"], .dir), (["d", "a", "b"], oldFile [3])],
        by decide⟩, by decide⟩
  synced := .new
  calls := 0

/-- The local file takes the place of the directory. -/
example : (calmEnv.syncDir (fun _ => false) directoryTaken).2.contentAt .onRemote ["d", "a"] =
    some [2] ∧
    (calmEnv.syncDir (fun _ => false) directoryTaken).2.contentAt .onRemote ["d", "a", "b"] =
      none := by
  decide +kernel

end Peergos
