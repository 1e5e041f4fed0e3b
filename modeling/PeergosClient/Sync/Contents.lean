import PeergosClient.Lib.Replicas
import PeergosClient.Sync.SyncDir

/-!
# What the calls of a sync do to the contents

Which file is where is all that a sync can lose, and what it does with a path depends on what was
recorded of it.  Each call that changes a tree has one rule about the contents of both sides; every
other step, but those that write the record, is quiet.
-/

namespace Peergos

open Replicas Exec Chunks

/-! ## The contents of a tree -/

/-- The contents of a tree. -/
def SyncTree.content (t : SyncTree) (p : SyncPath) : Option Bytes := (t.file p).map (·.content)

/-- What is left of the contents without a path and all below. -/
def cut (g : SyncPath → Option Bytes) (p : SyncPath) : SyncPath → Option Bytes := fun q =>
  if p <+: q then none else g q

theorem cut_eq_or (g : SyncPath → Option Bytes) (p q : SyncPath) :
    cut g p q = g q ∨ cut g p q = none := by
  rw [cut]
  split
  · exact Or.inr rfl
  · exact Or.inl rfl

/-- Where there is nothing below, only the path is lost. -/
theorem cut_eq_update {g : SyncPath → Option Bytes} {p : SyncPath}
    (h : ∀ q, p <+: q → q ≠ p → g q = none) : cut g p = Function.update g p none := by
  funext q
  by_cases hq : q = p
  · simp [cut, hq]
  · rw [cut, Function.update_of_ne hq]
    split
    · exact (h q ‹_› hq).symm
    · rfl

/-- What is written over a file, or where there is none. -/
theorem writeAllAt_eq {old : Option Bytes} {data : Bytes} (h : ∀ d, old = some d → d = data) :
    writeAllAt (old.getD []) 0 data = data := by
  cases old with
  | none => by_cases hdata : data = [] <;> simp [writeAllAt, hdata, splice]
  | some d =>
      obtain rfl := h d rfl
      by_cases hdata : d = [] <;> simp [writeAllAt, hdata, splice]

namespace SyncTree

variable {s : SyncSide} {t t' : SyncTree} {p q src target : SyncPath} {f : SyncedFile}

theorem orErr_eq_ok {msg : String} {o : Option SyncTree} (h : orErr msg o = .ok t) : o = some t := by
  cases o with
  | none => cases h
  | some t' =>
      cases h
      rfl

/-- No file is below a file. -/
theorem content_below (h : t.content p ≠ none) (hp : p <+: q) (hne : q ≠ p) :
    t.content q = none := by
  have hfile : t.file p ≠ none := fun hnone => h (by rw [content, hnone, Option.map_none])
  rw [content, FileTree.file_below hfile hp hne, Option.map_none]

theorem content_put (h : t.put p (.file f) = some t') :
    t'.content = Function.update t.content p (some f.content) := by
  funext q
  rw [content, FileTree.file_of_put h, Function.update_apply]
  split <;> rfl

theorem content_remove (t : SyncTree) (p : SyncPath) : (SyncTree.content (t.remove p)) = cut t.content p := by
  funext q
  rw [content, FileTree.file_remove, cut]
  split <;> rfl

theorem content_mkdirs (h : mkdirs s p t = .ok t') : t'.content = t.content := by
  funext q
  rw [content, FileTree.file_of_makeDirs (orErr_eq_ok h), content]

theorem content_replace (h : replace p f t = .ok t') :
    t'.content = Function.update (cut t.content p) p (some f.content) := by
  rw [content_put (orErr_eq_ok h), content_remove]

theorem content_write_local {data : Bytes} {now : ℤ} (h : write .onLocal p data now t = .ok t') :
    t'.content =
      Function.update t.content p (some (writeAllAt ((t.content p).getD []) 0 data)) := by
  obtain ⟨t₁, hdirs, hput⟩ := Peergos.bind_eq_ok.1 h
  have hold : ((t₁.file p).getD ⟨[], now, chunkSizeForNewFiles⟩).content = (t₁.content p).getD [] := by
    rw [content]
    cases t₁.file p <;> rfl
  rw [content_put (orErr_eq_ok hput)]
  simp only [hold, content_mkdirs hdirs]

theorem content_write_remote {data : Bytes} {now : ℤ} (h : write .onRemote p data now t = .ok t') :
    t'.content = Function.update (cut t.content p) p (some data) := by
  simp only [write] at h
  split at h
  · exact content_replace h
  · cases h

theorem content_delete (h : delete s p t = .ok t') : t'.content = cut t.content p := by
  unfold delete at h
  split at h
  · cases h
  · cases s with
    | onLocal =>
        dsimp only at h
        split at h
        · cases h
        · cases h
          exact content_remove t p
    | onRemote =>
        dsimp only at h
        split at h
        · cases h
          exact content_remove t p
        · cases h

theorem content_makeWay (h : makeWay s src target t = .ok t') : t'.content = t.content := by
  cases s with
  | onLocal => exact content_mkdirs h
  | onRemote =>
      dsimp only [makeWay] at h
      split at h
      · cases h
        rfl
      · obtain ⟨t₁, hdirs, h⟩ := Peergos.bind_eq_ok.1 h
        split at h
        · cases h
        · cases h
          exact content_mkdirs hdirs

/-- A file is moved to another path. -/
theorem content_moveTo (hne : src ≠ target) (h : moveTo s src target t = .ok t') :
    ∃ d, t.content src = some d ∧
      t'.content = Function.update (Function.update t.content src none) target (some d) := by
  unfold moveTo at h
  rw [if_neg fun heq => hne heq.2] at h
  obtain ⟨t₁, hway, h⟩ := Peergos.bind_eq_ok.1 h
  have hsame := content_makeWay hway
  cases hf : t₁.file src with
  | none =>
      rw [hf] at h
      cases h
  | some f =>
      rw [hf] at h
      dsimp only at h
      split at h
      · cases h
      · have hd : t₁.content src = some f.content := by rw [content, hf, Option.map_some]
        refine ⟨f.content, hsame ▸ hd, ?_⟩
        rw [content_put (orErr_eq_ok h), content_remove, cut_eq_update, hsame]
        exact fun q => content_below (by simp [hd])

theorem content_setModificationTime {time : ℤ} (h : setModificationTime p time t = .ok t') :
    t'.content = t.content := by
  unfold setModificationTime at h
  split at h
  · rename_i f hf
    rw [content_put (orErr_eq_ok h)]
    exact Function.update_eq_self_iff.2 (by rw [content, hf, Option.map_some])
  · split at h
    · cases h
      rfl
    · cases h

end SyncTree

/-! ## Worlds -/

/-- The contents of both sides. -/
def SyncWorld.contents (w : SyncWorld) : Contents SyncSide SyncPath Bytes := w.contentAt

/-- On no side a file is below a file. -/
def Treelike (m : Contents SyncSide SyncPath Bytes) : Prop :=
  ∀ s p q, m s p ≠ none → p <+: q → q ≠ p → m s q = none

theorem SyncWorld.treelike (w : SyncWorld) : Treelike w.contents :=
  fun _ _ _ => SyncTree.content_below

/-- The contents and the record of a world. -/
structure SyncWorld.Is (w : SyncWorld) (m : Contents SyncSide SyncPath Bytes)
    (synced : RamTreeState) : Prop where
  contents : w.contents = m
  synced : w.synced = synced

/-- The computation changes no content and no record, whether it returns or fails. -/
def Quiet {α : Type} (x : Exec SyncWorld Fault α) : Prop :=
  ∀ m synced, Exec.Keeps (fun w : SyncWorld => w.Is m synced) x

section Rules

variable {α β : Type} {x : Exec SyncWorld Fault α} {m : Contents SyncSide SyncPath Bytes}
  {synced : RamTreeState} {P : Contents SyncSide SyncPath Bytes → RamTreeState → Prop}
  {Q : α → SyncWorld → Prop} {fails : Fault → SyncWorld → Prop}

/-- A triple about the contents and the record may take them as given. -/
theorem triple_is (h : ∀ m synced, Treelike m → P m synced →
      Triple (fun w : SyncWorld => w.Is m synced) x Q fails) :
    Triple (fun w : SyncWorld => P w.contents w.synced) x Q fails :=
  fun w hw => h w.contents w.synced w.treelike hw w ⟨rfl, rfl⟩

/-- A fact about the contents and the record of a world that has them. -/
theorem SyncWorld.Is.holds {w : SyncWorld} (hw : w.Is m synced) (h : P m synced) :
    P w.contents w.synced := by
  rw [hw.contents, hw.synced]
  exact h

theorem Quiet.triple (h : Quiet x) (P : Contents SyncSide SyncPath Bytes → RamTreeState → Prop) :
    Triple (fun w : SyncWorld => P w.contents w.synced) x (fun _ w => P w.contents w.synced)
      fun _ w => P w.contents w.synced :=
  triple_is fun m synced _ hm => Triple.mono (h m synced) (fun _ hw => hw)
    (fun _ _ hw => hw.holds hm) fun _ _ hw => hw.holds hm

theorem Quiet.bind {f : α → Exec SyncWorld Fault β} (hx : Quiet x) (hf : ∀ a, Quiet (f a)) :
    Quiet (x >>= f) := fun m synced => (hx m synced).bind fun a => hf a m synced

theorem Quiet.pure (a : α) : Quiet (Pure.pure a : Exec SyncWorld Fault α) :=
  fun _ _ => Keeps.pure a

theorem Quiet.fail (e : Fault) : Quiet (Exec.fail e : Exec SyncWorld Fault α) :=
  fun _ _ => Keeps.fail e

theorem Quiet.reads (f : SyncWorld → α) : Quiet (Exec.reads f : Exec SyncWorld Fault α) :=
  fun _ _ => Keeps.reads f

theorem Quiet.attempt (hx : Quiet x) : Quiet (Exec.attempt x) :=
  fun m synced => (hx m synced).attempt

theorem Quiet.unwrapOr (hx : Quiet x) (a : α) : Quiet (unwrapOr x a) := by
  refine hx.attempt.bind fun r => ?_
  match r with
  | .ok a => exact .pure a
  | .error (.err _) => exact .pure _
  | .error .panic => exact .fail _
  | .error .fuel => exact .fail _

end Rules

/-! ## The calls -/

namespace SyncEnv

variable (env : SyncEnv) {m : Contents SyncSide SyncPath Bytes} {synced : RamTreeState}

/-- The record is written. -/
theorem sync_triple {fails : Fault → SyncWorld → Prop} (f : RamTreeState → RamTreeState) :
    Triple (fun w : SyncWorld => w.Is m synced) (sync f) (fun _ w => w.Is m (f synced)) fails :=
  Triple.update fun _ hw => ⟨hw.contents, by rw [← hw.synced]⟩

/-- The record is read. -/
theorem reads_triple {α : Type} {fails : Fault → SyncWorld → Prop} (f : RamTreeState → α) :
    Triple (fun w : SyncWorld => w.Is m synced) (Exec.reads fun w => f w.synced)
      (fun a w => w.Is m synced ∧ a = f synced) fails :=
  Triple.reads fun _ hw => ⟨hw, by rw [hw.synced]⟩

theorem quiet_look {α : Type} (s : SyncSide) (f : SyncTree → Result α) : Quiet (env.look s f) := by
  intro m synced w hw
  rcases hx : env.look s f w with ⟨_ | _, w'⟩ <;>
  · obtain rfl := congrArg Prod.snd hx
    exact ⟨hw.contents, hw.synced⟩

theorem quiet_fileExists (s : SyncSide) (p : SyncPath) : Quiet (env.fileExists s p) :=
  match s with
  | .onLocal => .reads _
  | .onRemote => env.quiet_look .onRemote fun t => .ok (t.has p)

/-- A call that changes a tree, by what it makes of the contents of the tree. -/
theorem change_triple {s : SyncSide} {f : ℤ → SyncTree → Result SyncTree}
    {G : (SyncPath → Option Bytes) → Prop}
    (h : ∀ now t t', t.content = m s → f now t = .ok t' → G t'.content) :
    Triple (fun w : SyncWorld => w.Is m synced) (env.change s f)
      (fun _ w => ∃ g, G g ∧ w.Is (Function.update m s g) synced)
      fun _ w => w.Is m synced := by
  intro w hw
  unfold change
  cases hf : if env.fails w.calls then protocolErr "call failed" else f (env.now w.calls) (w.trees s)
  with
  | error e => exact ⟨hw.contents, hw.synced⟩
  | ok t =>
      have ht : f (env.now w.calls) (w.trees s) = .ok t := by
        split at hf
        · cases hf
        · exact hf
      refine ⟨t.content, h _ _ _ (congrFun hw.contents s) ht, ?_, hw.synced⟩
      funext s' p
      by_cases hs : s' = s
      · subst hs
        simp [SyncWorld.contents, SyncWorld.contentAt, SyncWorld.fileAt, SyncTree.content]
      · rw [Function.update_of_ne hs, ← hw.contents]
        simp [SyncWorld.contents, SyncWorld.contentAt, SyncWorld.fileAt, hs]

/-- A call that changes no file. -/
theorem quiet_change {s : SyncSide} {f : ℤ → SyncTree → Result SyncTree}
    (h : ∀ now t t', f now t = .ok t' → t'.content = t.content) : Quiet (env.change s f) := by
  intro m synced
  refine (env.change_triple (G := fun g => g = m s) fun now t t' ht hf => ?_).mono
    (fun _ hw => hw) ?_ fun _ _ hw => hw
  · rw [h now t t' hf, ht]
  · rintro _ w ⟨_, rfl, hw⟩
    rwa [Function.update_eq_self] at hw

theorem quiet_mkdirs (s : SyncSide) (p : SyncPath) : Quiet (env.mkdirs s p) :=
  env.quiet_change fun _ _ _ => SyncTree.content_mkdirs

theorem quiet_setModificationTime (s : SyncSide) (p : SyncPath) (time : ℤ) :
    Quiet (env.setModificationTime s p time) :=
  match s with
  | .onLocal => env.quiet_change fun _ _ _ => SyncTree.content_setModificationTime
  | .onRemote => .pure ()

theorem quiet_lookAt {α : Type} (s : SyncSide) (p : SyncPath) (f : SyncedFile → Result α) :
    Quiet (env.lookAt s p f) := by
  unfold lookAt
  exact env.quiet_look s _

theorem read_triple (s : SyncSide) (p : SyncPath) :
    Triple (fun w : SyncWorld => w.Is m synced) (env.read s p)
      (fun data w => w.Is m synced ∧ m s p = some data) fun _ w => w.Is m synced := by
  intro w hw
  have hsame : ({ w with calls := w.calls + 1 } : SyncWorld).Is m synced := ⟨hw.contents, hw.synced⟩
  unfold read lookAt look
  dsimp only
  split
  · rename_i data w' hrun
    obtain ⟨hval, rfl⟩ := Prod.mk.inj hrun
    refine ⟨hsame, ?_⟩
    split at hval
    · cases hval
    · split at hval
      · cases hval
      · rename_i f hf
        cases hval
        rw [← congrFun (congrFun hw.contents s) p]
        show ((w.trees s).file p).map _ = _
        rw [hf, Option.map_some]
  · rename_i e w' hrun
    obtain ⟨-, rfl⟩ := Prod.mk.inj hrun
    exact hsame

/-- A write on the disk, over what was at the path. -/
theorem write_local_triple (p : SyncPath) (data : Bytes) :
    Triple (fun w : SyncWorld => w.Is m synced) (env.write .onLocal p data)
      (fun _ w => w.Is
        (set m .onLocal p (some (writeAllAt ((m .onLocal p).getD []) 0 data))) synced)
      fun _ w => w.Is m synced := by
  refine (env.change_triple (G := fun g => g = Function.update (m .onLocal) p
    (some (writeAllAt ((m .onLocal p).getD []) 0 data))) fun now t t' ht hf => ?_).mono
    (fun _ hw => hw) ?_ fun _ _ hw => hw
  · rw [SyncTree.content_write_local hf, ht]
  · rintro _ w ⟨_, rfl, hw⟩
    exact hw

/-- What a file in Peergos takes the place of is lost with all that is below. -/
theorem replace_triple {f : ℤ → SyncTree → Result SyncTree} (p : SyncPath) (data : Bytes)
    (h : ∀ now t t', f now t = .ok t' →
      t'.content = Function.update (cut t.content p) p (some data))
    (hbelow : ∀ q, p <+: q → q ≠ p → m .onRemote q = none) :
    Triple (fun w : SyncWorld => w.Is m synced) (env.change .onRemote f)
      (fun _ w => w.Is (set m .onRemote p (some data)) synced) fun _ w => w.Is m synced := by
  refine (env.change_triple (G := fun g => g = Function.update (m .onRemote) p (some data))
    fun now t t' ht hf => ?_).mono (fun _ hw => hw) ?_ fun _ _ hw => hw
  · rw [h now t t' hf, ht, cut_eq_update hbelow, Function.update_idem]
  · rintro _ w ⟨_, rfl, hw⟩
    exact hw

theorem moveTo_triple (s : SyncSide) {src target : SyncPath} (hne : src ≠ target) :
    Triple (fun w : SyncWorld => w.Is m synced) (env.moveTo s src target)
      (fun _ w => ∃ d, m s src = some d ∧
        w.Is (set (set m s src none) s target (some d)) synced) fun _ w => w.Is m synced := by
  refine (env.change_triple (G := fun g => ∃ d, m s src = some d ∧
    g = Function.update (Function.update (m s) src none) target (some d))
    fun now t t' ht hf => ?_).mono (fun _ hw => hw) ?_ fun _ _ hw => hw
  · rw [← ht]
    exact SyncTree.content_moveTo hne hf
  · rintro _ w ⟨_, ⟨d, hd, rfl⟩, hw⟩
    refine ⟨d, hd, ?_⟩
    rwa [Replicas.set, Replicas.set, Function.update_self, Function.update_idem]

/-- A file is deleted alone; a directory takes with it what is below. -/
theorem delete_triple (s : SyncSide) (p : SyncPath) :
    Triple (fun w : SyncWorld => w.Is m synced) (env.delete s p)
      (fun _ w => w.Is (Function.update m s (cut (m s) p)) synced) fun _ w => w.Is m synced := by
  refine (env.change_triple (G := fun g => g = cut (m s) p) fun now t t' ht hf => ?_).mono
    (fun _ hw => hw) ?_ fun _ _ hw => hw
  · rw [SyncTree.content_delete hf, ht]
  · rintro _ w ⟨_, rfl, hw⟩
    exact hw

/-- A file is copied to the disk. -/
theorem copyFile_remote_triple (p : SyncPath) :
    Triple (fun w : SyncWorld => w.Is m synced) (env.copyFile .onRemote p)
      (fun _ w => ∃ d, m .onRemote p = some d ∧
        w.Is (set m .onLocal p (some (writeAllAt ((m .onLocal p).getD []) 0 d))) synced)
      fun _ w => w.Is m synced := by
  have hcopy : Triple (fun w : SyncWorld => w.Is m synced)
      (env.read .onRemote p >>= env.write .onLocal p)
      (fun _ w => ∃ d, m .onRemote p = some d ∧
        w.Is (set m .onLocal p (some (writeAllAt ((m .onLocal p).getD []) 0 d))) synced)
      fun _ w => w.Is m synced := by
    refine (env.read_triple .onRemote p).bind fun d => Triple.of_fact fun hd => ?_
    exact (env.write_local_triple p d).mono (fun _ hw => hw) (fun _ w hw => ⟨d, hd, hw⟩)
      fun _ _ hw => hw
  unfold copyFile
  dsimp only
  split
  · exact Triple.bind (env.quiet_mkdirs _ _ m synced) fun _ => hcopy
  · exact hcopy

/-- A file is copied to Peergos, where nothing is below its path. -/
theorem copyFile_local_triple (p : SyncPath)
    (hbelow : m .onLocal p ≠ none → ∀ q, p <+: q → q ≠ p → m .onRemote q = none) :
    Triple (fun w : SyncWorld => w.Is m synced) (env.copyFile .onLocal p)
      (fun _ w => ∃ d, m .onLocal p = some d ∧ w.Is (set m .onRemote p (some d)) synced)
      fun _ w => w.Is m synced := by
  have hcopy : Triple (fun w : SyncWorld => w.Is m synced)
      (env.read .onLocal p >>= env.write .onRemote p)
      (fun _ w => ∃ d, m .onLocal p = some d ∧ w.Is (set m .onRemote p (some d)) synced)
      fun _ w => w.Is m synced := by
    refine (env.read_triple .onLocal p).bind fun d => Triple.of_fact fun hd => ?_
    exact (env.replace_triple p d (fun _ _ _ => SyncTree.content_write_remote)
      (hbelow (by simp [hd]))).mono (fun _ hw => hw) (fun _ w hw => ⟨d, hd, hw⟩) fun _ _ hw => hw
  unfold copyFile
  dsimp only
  split
  · exact Triple.bind (env.quiet_mkdirs _ _ m synced) fun _ => hcopy
  · exact hcopy

end SyncEnv

end Peergos
