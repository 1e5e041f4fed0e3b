import PeergosClient.Sync.Contents

/-!
# What the snapshots of a sync show

A snapshot has a state for every file that the walk of its side comes by: what was recorded of it,
if it has the size and the time of its last sync, and else what its content hashes to.
-/

namespace Peergos

open Replicas Exec

/-- Only one side has a file at a path. -/
def OnlyOn (m₀ : Contents SyncSide SyncPath Bytes) (s : SyncSide) (p : SyncPath) : Prop :=
  m₀ s p ≠ none ∧ m₀ s.other p = none

/-- The state of a file in a snapshot, if it can be hashed. -/
def SyncEnv.shownState (env : SyncEnv) (synced : RamTreeState) (s : SyncSide) (p : SyncPath)
    (file : SyncedFile) : Result FileState :=
  let f := scanned synced p file
  if f.hash = zeroHash then do
    let h ← env.hashOf s (knownChunkSize synced p) file
    pure { f with hash := h.1, chunkSize := h.2 }
  else pure f

/-- What a snapshot shows at a path of a side. -/
def SyncEnv.shown (env : SyncEnv) (w : SyncWorld) (s : SyncSide) (p : SyncPath) :
    Option FileState :=
  if walked s p then (w.fileAt s p).bind fun file => (env.shownState w.synced s p file).toOption
  else none

/-- The snapshots of a world. -/
structure SnapshotOf (env : SyncEnv) (w : SyncWorld) (snap : Snapshot) : Prop where
  byPath : ∀ s p, (snap s).byPath p = env.shown w s p
  ne_none : ∀ s p, walked s p → w.contents s p ≠ none → (snap s).byPath p ≠ none

section Snapshots

variable {env : SyncEnv} {w : SyncWorld} {snap : Snapshot} {u : SyncSide} {p : SyncPath}
  {f toMove : FileState}

/-- A snapshot shows files that are there. -/
theorem SnapshotOf.contents_ne_none (h : SnapshotOf env w snap) (hp : (snap u).byPath p ≠ none) :
    w.contents u p ≠ none := by
  intro hnone
  have hfile : w.fileAt u p = none := Option.map_eq_none_iff.1 hnone
  rw [h.byPath, SyncEnv.shown, hfile] at hp
  exact hp (by split <;> rfl)

/-- Of Peergos a snapshot shows all files. -/
theorem SnapshotOf.remote_none (h : SnapshotOf env w snap)
    (hp : (snap .onRemote).byPath p = none) : w.contents .onRemote p = none :=
  not_not.1 fun hne => h.ne_none .onRemote p rfl hne hp

/-- The file that is moved for a rename is shown across only, with the same hash. -/
theorem Snapshot.toMove_spec (hrenamed : snap.renamed u f.hash p = true)
    (hmove : ((snap.index u f.hash p).bind fun i => (snap.extra u.other f.hash)[i]?) =
      some toMove) :
    (snap u.other).byPath toMove.relPath = some toMove ∧ (snap u).byPath toMove.relPath = none ∧
      toMove.hash = f.hash ∧ snap.balanced toMove.hash = true := by
  rw [Snapshot.renamed, Bool.and_eq_true, Option.isNone_iff_eq_none] at hrenamed
  obtain ⟨hbal, hat⟩ := hrenamed
  obtain ⟨i, hi, hget⟩ := Option.bind_eq_some_iff.1 hmove
  obtain ⟨hmem, -⟩ := List.mem_filter.1 (List.mem_of_getElem? hget)
  obtain ⟨hmem, hhash⟩ := List.mem_filter.1 hmem
  rw [decide_eq_true_iff] at hhash
  obtain ⟨q, hq⟩ := InsertionMap.mem_values.1 hmem
  have hkey := (snap u.other).keyed q toMove hq
  subst hkey
  rw [Snapshot.atHashedPath, if_pos hbal, hi, Option.bind_some, hget, Option.bind_some] at hat
  exact ⟨hq, hat, hhash, hhash ▸ hbal⟩

/-- A path is not found among the extra files of a side that does not have it. -/
theorem renamed_of_none {hash : Bytes} (h : (snap u).byPath p = none) :
    snap.renamed u hash p = snap.balanced hash := by
  have hindex : snap.index u hash p = none := by
    rw [Snapshot.index, List.findIdx?_eq_none_iff]
    intro f hf
    obtain ⟨hf, -⟩ := List.mem_filter.1 hf
    obtain ⟨hf, -⟩ := List.mem_filter.1 hf
    obtain ⟨q, hq⟩ := InsertionMap.mem_values.1 hf
    rw [decide_eq_false_iff_not, (snap u).keyed q f hq]
    rintro rfl
    rw [RamTreeState.byPath, hq] at h
    cases h
  simp [Snapshot.renamed, Snapshot.atHashedPath, hindex]

end Snapshots

/-! ## Taking a snapshot -/

@[simp] theorem RamTreeState.files_foldl_addDir (dirs : List SyncPath) (t : RamTreeState) :
    (dirs.foldl RamTreeState.addDir t).files = t.files := by
  induction dirs generalizing t with
  | nil => rfl
  | cons d dirs ih => exact ih _

/-- The files added to a tree state. -/
theorem RamTreeState.byPath_foldl_add (l : List FileState) (t : RamTreeState) (p : SyncPath) :
    ((l.foldl RamTreeState.add t).byPath p = none ↔
      t.byPath p = none ∧ ∀ f ∈ l, f.relPath ≠ p) ∧
    ∀ f, (l.foldl RamTreeState.add t).byPath p = some f → f ∈ l ∨ t.byPath p = some f := by
  induction l generalizing t with
  | nil => simp
  | cons g l ih =>
      obtain ⟨hnone, hsome⟩ := ih (t.add g)
      have hadd : (t.add g).byPath p = if p = g.relPath then some g else t.byPath p :=
        InsertionMap.get_insert _ _ _ _
      rw [List.foldl_cons]
      constructor
      · rw [hnone, hadd, List.forall_mem_cons]
        by_cases hp : p = g.relPath
        · simp [hp]
        · simp [hp, Ne.symm hp]
      · intro f hf
        rcases hsome f hf with hmem | hget
        · exact Or.inl (List.mem_cons_of_mem _ hmem)
        · rw [hadd] at hget
          split at hget
          · cases hget
            exact Or.inl List.mem_cons_self
          · exact Or.inr hget

section Building

variable {env : SyncEnv} {synced : RamTreeState} {trees : SyncSide → SyncTree} {s : SyncSide}
  {f : FileState}

/-- A state that the snapshot of a side has. -/
def Shows (env : SyncEnv) (synced : RamTreeState) (s : SyncSide) (t : SyncTree) (f : FileState) :
    Prop :=
  walked s f.relPath ∧ ∃ file, t.file f.relPath = some file ∧
    env.shownState synced s f.relPath file = .ok f

theorem relPath_scanned (p : SyncPath) (file : SyncedFile) :
    (scanned synced p file).relPath = p := by
  unfold scanned
  dsimp only
  split
  · rename_i st hst
    split
    · exact synced.keyed p st hst
    · rfl
  · rfl

/-- Looking leaves the trees and what was synced alone. -/
def SameTrees (trees : SyncSide → SyncTree) (synced : RamTreeState) (w : SyncWorld) : Prop :=
  w.trees = trees ∧ w.synced = synced

theorem look_triple {α : Type} (f : SyncTree → Result α) :
    Triple (SameTrees trees synced) (env.look s f)
      (fun a w => SameTrees trees synced w ∧ f (trees s) = .ok a)
      fun _ w => SameTrees trees synced w := by
  rintro w ⟨rfl, rfl⟩
  unfold SyncEnv.look
  dsimp only
  split
  · rename_i a w' hrun
    obtain ⟨hval, rfl⟩ := Prod.mk.inj hrun
    refine ⟨⟨rfl, rfl⟩, ?_⟩
    split at hval
    · cases hval
    · exact hval
  · rename_i e w' hrun
    obtain ⟨-, rfl⟩ := Prod.mk.inj hrun
    exact ⟨rfl, rfl⟩

/-- A file is hashed. -/
theorem hashFile_triple (p : SyncPath) (k : ℕ) :
    Triple (SameTrees trees synced) (env.hashFile s p k)
      (fun h w => SameTrees trees synced w ∧
        ∀ file, (trees s).file p = some file → env.hashOf s k file = .ok h)
      fun _ w => SameTrees trees synced w := by
  unfold SyncEnv.hashFile SyncEnv.lookAt
  refine (look_triple _).mono (fun _ hw => hw) ?_ fun _ _ hw => hw
  rintro h w ⟨hw, hval⟩
  refine ⟨hw, fun file hfile => ?_⟩
  rw [hfile] at hval
  exact hval

/-- A snapshot of a tree has a state for each of its files that is walked by, and no other. -/
theorem buildDirState_triple :
    Triple (SameTrees trees synced) (env.buildDirState s)
      (fun t w => SameTrees trees synced w ∧
        (∀ p f, t.byPath p = some f → Shows env synced s (trees s) f) ∧
        ∀ p, walked s p → (trees s).file p ≠ none → t.byPath p ≠ none)
      fun _ w => SameTrees trees synced w := by
  unfold SyncEnv.buildDirState
  refine Triple.bind (Keeps.reads _) fun n => ?_
  refine Triple.bind (look_triple fun t => .ok t) fun t => Triple.of_fact fun ht => ?_
  cases ht
  refine Triple.bind (m := fun a w => SameTrees trees synced w ∧ a = synced)
    (Triple.reads fun w hw => ⟨hw, hw.2⟩) fun a => Triple.of_fact fun ha => ?_
  subst ha
  dsimp only
  set btree := (env.arrange n ((trees s).filePaths.filter (walked s))).filterMap fun p =>
    ((trees s).file p).map (scanned a p) with hbtree
  have hmem : ∀ f, f ∈ btree ↔ ∃ p file, walked s p ∧ (trees s).file p = some file ∧
      scanned a p file = f := by
    intro f
    rw [hbtree, List.mem_filterMap]
    constructor
    · rintro ⟨p, hp, hf⟩
      obtain ⟨file, hfile, rfl⟩ := Option.map_eq_some_iff.1 hf
      exact ⟨p, file, (List.mem_filter.1 ((env.perm n _).mem_iff.1 hp)).2, hfile, rfl⟩
    · rintro ⟨p, file, hp, hfile, rfl⟩
      refine ⟨p, (env.perm n _).mem_iff.2 (List.mem_filter.2
        ⟨FileTree.mem_filePaths.2 (by simp [hfile]), hp⟩), ?_⟩
      rw [hfile, Option.map_some]
  refine Triple.bind (Triple.collect (P := SameTrees trees a)
    (R := fun f f' : FileState => f'.relPath = f.relPath ∧ Shows env a s (trees s) f')
    fun f hf => (hashFile_triple f.relPath _).bind fun h => Triple.of_fact fun hh => ?_)
    fun pending => Triple.of_fact fun hpending => Triple.pure fun w hw => ⟨hw, ?_⟩
  · obtain ⟨hf, hzero⟩ := List.mem_filter.1 hf
    obtain ⟨p, file, hp, hfile, rfl⟩ := (hmem f).1 hf
    rw [relPath_scanned] at hh
    refine Triple.pure fun w hw => ⟨hw, rfl, ?_, file, ?_, ?_⟩
    · exact (show (scanned a p file).relPath = p from relPath_scanned p file).symm ▸ hp
    · rw [relPath_scanned, hfile]
    · rw [SyncEnv.shownState]
      simp only [relPath_scanned, if_pos (of_decide_eq_true hzero), hh file hfile, ok_bind]
      rfl
  · set l := pending ++ btree.filter fun f => f.hash ≠ zeroHash with hl
    have hshows : ∀ f ∈ l, Shows env a s (trees s) f := by
      intro f hf
      rcases List.mem_append.1 hf with hf | hf
      · obtain ⟨g, -, -, hshows⟩ := Exec.exists_of_forall₂ hpending.flip hf
        exact hshows
      · obtain ⟨hf, hhash⟩ := List.mem_filter.1 hf
        obtain ⟨p, file, hp, hfile, rfl⟩ := (hmem f).1 hf
        refine ⟨(show (scanned a p file).relPath = p from relPath_scanned p file).symm ▸ hp, file, ?_,
          ?_⟩
        · rw [relPath_scanned, hfile]
        · rw [SyncEnv.shownState, relPath_scanned, if_neg (of_decide_eq_true hhash)]
          rfl
    have hall : ∀ p, walked s p → (trees s).file p ≠ none → ∃ f ∈ l, f.relPath = p := by
      intro p hwalked hp
      obtain ⟨file, hfile⟩ := Option.ne_none_iff_exists'.1 hp
      have hf : scanned a p file ∈ btree := (hmem _).2 ⟨p, file, hwalked, hfile, rfl⟩
      by_cases hzero : (scanned a p file).hash = zeroHash
      · obtain ⟨g, hg, hpath, -⟩ :=
          Exec.exists_of_forall₂ hpending (List.mem_filter.2 ⟨hf, decide_eq_true hzero⟩)
        exact ⟨g, List.mem_append_left _ hg, hpath.trans (relPath_scanned p file)⟩
      · exact ⟨_, List.mem_append_right _ (List.mem_filter.2 ⟨hf, decide_eq_true hzero⟩),
          relPath_scanned p file⟩
    refine ⟨fun p f hf => ?_, fun p hwalked hp hnone => ?_⟩
    · rcases (RamTreeState.byPath_foldl_add l _ p).2 f hf with hf | hf
      · exact hshows f hf
      · rw [RamTreeState.byPath, RamTreeState.files_foldl_addDir] at hf
        cases hf
    · obtain ⟨f, hf, hpath⟩ := hall p hwalked hp
      exact ((RamTreeState.byPath_foldl_add l _ p).1.1 hnone).2 f hf hpath

/-- The snapshots of both sides. -/
theorem SnapshotOf.of_shows {w : SyncWorld} {snap : Snapshot}
    (h : ∀ s, (∀ p f, (snap s).byPath p = some f → Shows env w.synced s (w.trees s) f) ∧
      ∀ p, walked s p → (w.trees s).file p ≠ none → (snap s).byPath p ≠ none) :
    SnapshotOf env w snap := by
  refine ⟨fun s p => ?_, fun s p hwalked hp => (h s).2 p hwalked fun hnone => hp ?_⟩
  · unfold SyncEnv.shown SyncWorld.fileAt
    cases hf : (snap s).byPath p with
    | some f =>
        obtain ⟨hwalked, file, hfile, hshown⟩ := (h s).1 p f hf
        rw [(snap s).keyed p f hf] at hwalked hfile hshown
        rw [if_pos hwalked, hfile, Option.bind_some, hshown]
        rfl
    | none =>
        split
        · rename_i hwalked
          rw [not_not.1 fun hne => (h s).2 p hwalked hne hf, Option.bind_none]
        · rfl
  · show ((w.trees s).file p).map _ = none
    rw [hnone, Option.map_none]

end Building

/-! ## The record -/

/-- Two records have the same at a path. -/
structure SameAt (synced synced' : RamTreeState) (p : SyncPath) : Prop where
  byPath : synced'.byPath p = synced.byPath p
  hasDelete : ∀ s, synced'.hasDelete s p = synced.hasDelete s p

/-- Two records have the same away from a path. -/
def Touches (p : SyncPath) (synced synced' : RamTreeState) : Prop :=
  ∀ q, q ≠ p → SameAt synced synced' q

section Record

variable {synced synced' synced'' : RamTreeState} {p q : SyncPath} {s : SyncSide}

theorem SameAt.trans (h : SameAt synced synced' p) (h' : SameAt synced' synced'' p) :
    SameAt synced synced'' p :=
  ⟨h'.byPath.trans h.byPath, fun s => (h'.hasDelete s).trans (h.hasDelete s)⟩

theorem Touches.trans (h : Touches p synced synced') (h' : Touches p synced' synced'') :
    Touches p synced synced'' := fun q hq => (h q hq).trans (h' q hq)

theorem touches_refl (p : SyncPath) (synced : RamTreeState) : Touches p synced synced :=
  fun _ _ => ⟨rfl, fun _ => rfl⟩

theorem touches_add (synced : RamTreeState) (f : FileState) :
    Touches f.relPath synced (synced.add f) :=
  fun _ hq => ⟨InsertionMap.get_insert_of_ne _ hq _, fun _ => rfl⟩

theorem touches_remove (synced : RamTreeState) (p : SyncPath) :
    Touches p synced (synced.remove p) :=
  fun _ hq => ⟨InsertionMap.get_erase_of_ne _ hq, fun _ => rfl⟩

theorem touches_addDelete (synced : RamTreeState) (s : SyncSide) (p : SyncPath) :
    Touches p synced (synced.addDelete s p) := by
  refine fun q hq => ⟨rfl, fun s' => ?_⟩
  by_cases hs : s' = s
  · subst hs
    simp [RamTreeState.hasDelete, RamTreeState.addDelete, hq]
  · simp [RamTreeState.hasDelete, RamTreeState.addDelete, hs]

theorem touches_removeDelete (synced : RamTreeState) (s : SyncSide) (p : SyncPath) :
    Touches p synced (synced.removeDelete s p) := by
  refine fun q hq => ⟨rfl, fun s' => ?_⟩
  by_cases hs : s' = s
  · subst hs
    simp [RamTreeState.hasDelete, RamTreeState.removeDelete, hq]
  · simp [RamTreeState.hasDelete, RamTreeState.removeDelete, hs]

end Record

/-! ## The paths that need a sync -/

/-- Whether a path needs no sync, by the record. -/
def settledAt (snap : Snapshot) (synced : RamTreeState) (p : SyncPath) : Bool :=
  match (snap .onLocal).byPath p, (snap .onRemote).byPath p with
  | some l, some r => inStep l r || (synced.byPath p).any fun st =>
      l.hash = r.hash ∧ (st.equalsIgnoreModtime l ∨ st.equalsIgnoreModtime r)
  | _, _ => false

/-- The record has changed only where nothing needs a sync. -/
def Kept (snap : Snapshot) (synced synced' : RamTreeState) : Prop :=
  ∀ p, settledAt snap synced' p = settledAt snap synced p ∧
    (settledAt snap synced p = false → SameAt synced synced' p)

section Paths

variable {flags : SyncSide → Bool} {snap : Snapshot} {m : Contents SyncSide SyncPath Bytes}
  {synced synced' synced'' : RamTreeState} {p : SyncPath}

theorem settledAt_congr (h : synced'.byPath p = synced.byPath p) :
    settledAt snap synced' p = settledAt snap synced p := by
  unfold settledAt
  rw [h]

theorem Kept.touch (h : Kept snap synced synced') (ht : Touches p synced' synced'')
    (hp : settledAt snap synced p = true) (hp' : settledAt snap synced'' p = true) :
    Kept snap synced synced'' := by
  intro q
  by_cases hq : q = p
  · subst hq
    exact ⟨hp'.trans hp.symm, fun hfalse => by rw [hp] at hfalse; cases hfalse⟩
  · have hsame := ht q hq
    exact ⟨(settledAt_congr hsame.byPath).trans (h q).1, fun hfalse => ((h q).2 hfalse).trans hsame⟩

theorem clearDeletes_triple :
    Triple (fun w : SyncWorld => w.Is m synced) (SyncEnv.clearDeletes flags p)
      (fun _ w => w.contents = m ∧ w.synced.files = synced.files ∧ Touches p synced w.synced)
      fun _ w => w.contents = m := by
  refine (Triple.forEach (fun _ w => w.contents = m ∧ w.synced.files = synced.files ∧
    Touches p synced w.synced) (fun s _ => Triple.update ?_) _).mono ?_ (fun _ _ hw => hw)
    fun _ _ hw => hw
  · rintro w ⟨hm, hfiles, ht⟩
    refine ⟨hm, ?_, ?_⟩
    · dsimp only
      split
      · exact hfiles
      · exact hfiles
    · dsimp only
      split
      · exact ht.trans (touches_removeDelete _ _ _)
      · exact ht
  · rintro w hw
    exact ⟨hw.contents, by rw [hw.synced], by rw [hw.synced]; exact touches_refl p synced⟩

/-- A path that needs no sync is left, and its suppressed deletes are forgotten. -/
theorem settle_triple (hkept : Kept snap synced synced') (hp : settledAt snap synced p = true)
    (hp' : settledAt snap synced' p = true) :
    Triple (fun w : SyncWorld => w.Is m synced')
      (SyncEnv.clearDeletes flags p >>= fun _ => pure true)
      (fun b w => (w.contents = m ∧ Kept snap synced w.synced) ∧ b = settledAt snap synced p)
      fun _ w => w.contents = m := by
  refine (clearDeletes_triple).bind fun _ => Triple.pure ?_
  rintro w ⟨hm, hfiles, htouch⟩
  refine ⟨⟨hm, hkept.touch htouch hp ?_⟩, hp.symm⟩
  rw [← hp']
  exact settledAt_congr (by rw [RamTreeState.byPath, RamTreeState.byPath, hfiles])

/-- The first pass finds out whether a path needs a sync. -/
theorem settled_triple (p : SyncPath) :
    Triple (fun w : SyncWorld => w.contents = m ∧ Kept snap synced w.synced)
      (SyncEnv.settled flags snap p)
      (fun b w => (w.contents = m ∧ Kept snap synced w.synced) ∧ b = settledAt snap synced p)
      fun _ w => w.contents = m := by
  refine triple_is (P := fun m' r => m' = m ∧ Kept snap synced r) fun m' r _ hw => ?_
  obtain ⟨rfl, hkept⟩ := hw
  have hleft : settledAt snap r p = false → Triple (fun w : SyncWorld => w.Is m' r)
      (pure false : Exec SyncWorld Fault Bool)
      (fun b w => (w.contents = m' ∧ Kept snap synced w.synced) ∧ b = settledAt snap synced p)
      fun _ w => w.contents = m' := by
    refine fun hfalse => Triple.pure fun w hw => ⟨⟨hw.contents, ?_⟩, hfalse.symm.trans (hkept p).1⟩
    rw [hw.synced]
    exact hkept
  have hdone : settledAt snap r p = true → settledAt snap synced p = true := fun h =>
    (hkept p).1.symm.trans h
  unfold SyncEnv.settled
  refine (SyncEnv.reads_triple (·.byPath p)).bind fun a => Triple.of_fact fun ha => ?_
  subst ha
  split
  · rename_i l f hl hf
    have hat : ∀ r', settledAt snap r' p = (inStep l f || (r'.byPath p).any fun st =>
        l.hash = f.hash ∧ (st.equalsIgnoreModtime l ∨ st.equalsIgnoreModtime f)) := by
      intro r'
      rw [settledAt, hl, hf]
    split
    · rename_i hstep
      have htrue : ∀ r', settledAt snap r' p = true := fun r' => by rw [hat, hstep, Bool.true_or]
      dsimp only
      split
      · refine (show Triple (fun w : SyncWorld => w.Is m' r) _ _ _ from
          SyncEnv.sync_triple (·.add l)).bind fun _ => ?_
        have hkey : l.relPath = p := (snap .onLocal).keyed p l hl
        exact settle_triple (hkept.touch (hkey ▸ touches_add r l) (htrue _) (htrue _)) (htrue _)
          (htrue _)
      · exact settle_triple hkept (htrue _) (htrue _)
    · rename_i hstep
      rw [Bool.not_eq_true] at hstep
      split
      · rename_i st hst
        split
        · rename_i hsame
          have htrue : settledAt snap r p = true := by
            rw [hat, hst, Option.any_some, decide_eq_true hsame, Bool.or_true]
          exact settle_triple hkept (hdone htrue) htrue
        · rename_i hsame
          exact hleft (by rw [hat, hst, hstep, Option.any_some, decide_eq_false hsame]; rfl)
      · rename_i hnone
        exact hleft (by rw [hat, hnone, hstep]; rfl)
  · rename_i hnot
    refine hleft ?_
    unfold settledAt
    split
    · exact absurd ‹_› (hnot _ _ ‹_›)
    · rfl

theorem flatten_sublist {l : List SyncPath} {out : List (List SyncPath)}
    (h : List.Forall₂ (fun p ps => ps = [] ∨ ps = [p]) l out) : out.flatten.Sublist l := by
  induction h with
  | nil => exact List.Sublist.refl _
  | cons hp _ ih =>
      rw [List.flatten_cons]
      rcases hp with rfl | rfl
      · exact ih.cons _
      · exact ih.cons_cons _

/-- The first pass picks out paths that need a sync. -/
theorem changedPaths_triple (paths : List SyncPath) :
    Triple (fun w : SyncWorld => w.Is m synced) (SyncEnv.changedPaths flags snap paths)
      (fun l w => (w.contents = m ∧ Kept snap synced w.synced) ∧ l.Sublist paths ∧
        ∀ p ∈ l, settledAt snap synced p = false) fun _ w => w.contents = m := by
  unfold SyncEnv.changedPaths
  have hloop : Triple (fun w : SyncWorld => w.contents = m ∧ Kept snap synced w.synced)
      (Exec.collect paths fun p => do
        if ← SyncEnv.settled flags snap p then pure []
        else pure (if isIgnored (p.getLast?.getD "") then [] else [p]))
      (fun out w => (w.contents = m ∧ Kept snap synced w.synced) ∧
        List.Forall₂ (fun p ps => (ps = [] ∨ ps = [p]) ∧
          ∀ q ∈ ps, settledAt snap synced q = false) paths out) fun _ w => w.contents = m := by
    refine Triple.collect fun p _ => (settled_triple p).bind fun b => Triple.of_fact fun hb => ?_
    split
    · exact Triple.pure fun w hw => ⟨hw, Or.inl rfl, by simp⟩
    · refine Triple.pure fun w hw => ⟨hw, ?_⟩
      split
      · exact ⟨Or.inl rfl, by simp⟩
      · refine ⟨Or.inr rfl, fun q hq => ?_⟩
        rw [List.mem_singleton.1 hq, ← hb]
        simpa using ‹¬b = true›
  refine Triple.bind (hloop.mono ?_ (fun _ _ hw => hw) fun _ _ hw => hw) fun out =>
    Triple.of_fact fun hout => Triple.pure fun w hw => ⟨hw, ?_, ?_⟩
  · rintro w hw
    refine ⟨hw.contents, ?_⟩
    rw [hw.synced]
    exact fun p => ⟨rfl, fun _ => ⟨rfl, fun _ => rfl⟩⟩
  · exact flatten_sublist (hout.imp fun _ _ h => h.1)
  · intro q hq
    obtain ⟨ps, hps, hq⟩ := List.mem_flatten.1 hq
    obtain ⟨p, -, -, hfalse⟩ := Exec.exists_of_forall₂ hout.flip hps
    exact hfalse q hq

theorem nodup_allPaths (snap : Snapshot) : snap.allPaths.Nodup :=
  (List.perm_insertionSort _ _).nodup_iff.2 (List.nodup_dedup _)

/-! ## What is planned -/

/-- The batches hold small files that are new locally, and what is to be deleted is gone locally.
No file of a batch is dealt with again. -/
structure Planned (snap : Snapshot) (synced : RamTreeState) (c : SyncPlan) : Prop where
  batches : ∀ b ∈ c.batches ++ [c.batch], ∀ p ∈ b, p ∈ c.doneFiles ∧ synced.byPath p = none ∧
    (snap .onRemote).byPath p = none ∧ (snap .onLocal).byPath p ≠ none
  deletes : ∀ p ∈ c.localDeletes, (snap .onLocal).byPath p = none

theorem smallRemoteCopy_spec {l : FileState} (h : SyncPlan.smallRemoteCopy snap synced p = some l) :
    synced.byPath p = none ∧ (snap .onRemote).byPath p = none ∧
      (snap .onLocal).byPath p ≠ none := by
  unfold SyncPlan.smallRemoteCopy at h
  split at h
  · exact ⟨‹_›, ‹_›, by simp [*]⟩
  · cases h

theorem isLocalDelete_spec (h : SyncPlan.isLocalDelete snap synced p = true) :
    (snap .onLocal).byPath p = none := by
  unfold SyncPlan.isLocalDelete at h
  split at h
  · assumption
  · cases h

theorem Planned.classify {c : SyncPlan} (h : Planned snap synced c) (p : SyncPath) :
    Planned snap synced (SyncPlan.classify snap synced c p) := by
  have hdone : ∀ b ∈ c.batches ++ [c.batch], ∀ q ∈ b, q ∈ c.doneFiles ++ [p] ∧
      synced.byPath q = none ∧ (snap .onRemote).byPath q = none ∧ (snap .onLocal).byPath q ≠ none :=
    fun b hb q hq => (h.batches b hb q hq).imp_left (List.mem_append_left _)
  unfold SyncPlan.classify
  split
  · rename_i l hl
    have hp : p ∈ c.doneFiles ++ [p] ∧ _ := ⟨by simp, smallRemoteCopy_spec hl⟩
    unfold SyncPlan.addSmall
    split
    · refine ⟨fun b hb q hq => ?_, h.deletes⟩
      rcases List.mem_append.1 hb with hb | hb
      · exact hdone b hb q hq
      · rw [List.mem_singleton.1 hb, List.mem_singleton] at hq
        exact hq ▸ hp
    · refine ⟨fun b hb q hq => ?_, h.deletes⟩
      rcases List.mem_append.1 hb with hb | hb
      · exact hdone b (List.mem_append_left _ hb) q hq
      · rw [List.mem_singleton.1 hb] at hq
        rcases List.mem_append.1 hq with hq | hq
        · exact hdone c.batch (by simp) q hq
        · exact List.mem_singleton.1 hq ▸ hp
  · split
    · rename_i hdelete
      refine ⟨hdone, fun q hq => ?_⟩
      rcases List.mem_append.1 hq with hq | hq
      · exact h.deletes q hq
      · exact List.mem_singleton.1 hq ▸ isLocalDelete_spec hdelete
    · exact h

theorem Planned.foldl {c : SyncPlan} (h : Planned snap synced c) (paths : List SyncPath) :
    Planned snap synced (paths.foldl (SyncPlan.classify snap synced) c) := by
  induction paths generalizing c with
  | nil => exact h
  | cons p paths ih => exact ih (h.classify p)

theorem planned_start : Planned snap synced .start := by
  constructor <;> simp [SyncPlan.start]

end Paths

end Peergos
