import PeergosClient.Fs.ParallelHash
import PeergosClient.Lib.FileTree
import PeergosClient.Sync.FileSystems

/-!
# Synced trees

A sync keeps two trees of files alike, one on the local disk and one in Peergos, and remembers what
they had in common the last time.  Both sides are driven through the same calls, but they do not do
the same: a file that is written in Peergos takes the place of a directory, and on the disk it is
written over the beginning of the file that is there; only the disk has names that a walk passes
over.

A call reads or changes its tree, or fails and changes nothing; what is outside the program, which
calls fail and the time a write gives a file among them, is a function of how many calls have been
made.  Paths are normal: no name is a dot.
-/

namespace Peergos

/-! ## States -/

/-- The two sides of a sync. -/
inductive SyncSide where
  | onLocal
  | onRemote
  deriving DecidableEq, Repr

/-- The side across. -/
def SyncSide.other : SyncSide → SyncSide
  | onLocal => onRemote
  | onRemote => onLocal

@[simp] theorem SyncSide.other_other (s : SyncSide) : s.other.other = s := by cases s <;> rfl

@[simp] theorem SyncSide.other_ne (s : SyncSide) : s.other ≠ s := by cases s <;> decide

theorem SyncSide.eq_or_eq_other (s s' : SyncSide) : s' = s ∨ s' = s.other := by
  cases s <;> cases s' <;> decide

/-- `FileState::equals_ignore_modtime`. -/
def FileState.equalsIgnoreModtime (f f' : FileState) : Bool :=
  f.relPath = f'.relPath ∧ f.size = f'.size ∧ f.hash = f'.hash

/-- `RamTreeState`.  The paths of one hash are in the order in which they were added last, as the
files are here. -/
structure RamTreeState where
  files : InsertionMap SyncPath FileState
  keyed : ∀ p f, files.get p = some f → f.relPath = p
  dirs : List SyncPath
  /-- `local_deletes` and `remote_deletes`. -/
  deletes : SyncSide → Finset SyncPath

namespace RamTreeState

/-- `RamTreeState::new`. -/
def new : RamTreeState := ⟨∅, by simp, [], fun _ => ∅⟩

/-- `all_file_paths`. -/
def allFilePaths (t : RamTreeState) : List SyncPath := t.files.keys

/-- `add`. -/
def add (t : RamTreeState) (f : FileState) : RamTreeState where
  files := t.files.insert f.relPath f
  keyed := by
    intro p f' h
    rw [InsertionMap.get_insert] at h
    split at h
    · cases h
      exact Eq.symm ‹_›
    · exact t.keyed p f' h
  dirs := t.dirs
  deletes := t.deletes

/-- `remove`. -/
def remove (t : RamTreeState) (p : SyncPath) : RamTreeState where
  files := t.files.erase p
  keyed := by
    intro q f h
    rw [InsertionMap.get_erase] at h
    split at h
    · cases h
    · exact t.keyed q f h
  dirs := t.dirs
  deletes := t.deletes

/-- `by_path`. -/
def byPath (t : RamTreeState) (p : SyncPath) : Option FileState := t.files.get p

/-- `by_hash`. -/
def byHash (t : RamTreeState) (hash : Bytes) : List FileState :=
  t.files.values.filter fun f => f.hash = hash

/-- `add_dir`. -/
def addDir (t : RamTreeState) (p : SyncPath) : RamTreeState :=
  { t with dirs := if p ∈ t.dirs then t.dirs else t.dirs ++ [p] }

/-- `remove_dir`. -/
def removeDir (t : RamTreeState) (p : SyncPath) : RamTreeState :=
  { t with dirs := t.dirs.filter (· ≠ p) }

/-- `has_dir`. -/
def hasDir (t : RamTreeState) (p : SyncPath) : Bool := p ∈ t.dirs

/-- `add_local_delete` and `add_remote_delete`. -/
def addDelete (t : RamTreeState) (s : SyncSide) (p : SyncPath) : RamTreeState :=
  { t with deletes := Function.update t.deletes s (insert p (t.deletes s)) }

/-- `remove_local_delete` and `remove_remote_delete`. -/
def removeDelete (t : RamTreeState) (s : SyncSide) (p : SyncPath) : RamTreeState :=
  { t with deletes := Function.update t.deletes s ((t.deletes s).erase p) }

/-- `has_local_delete` and `has_remote_delete`. -/
def hasDelete (t : RamTreeState) (s : SyncSide) (p : SyncPath) : Bool := p ∈ t.deletes s

end RamTreeState

/-- A file of a synced tree.  The chunk size is that of a file in Peergos. -/
structure SyncedFile where
  content : Bytes
  modificationTime : ℤ
  chunkSize : ℕ
  deriving DecidableEq, Repr

/-- Whether a name can stand on a path. -/
def notDot (name : String) : Bool := name ≠ "."

/-- A synced tree. -/
abbrev SyncTree := FileTree notDot SyncedFile

/-- What a sync works on. -/
structure SyncWorld where
  trees : SyncSide → SyncTree
  synced : RamTreeState
  /-- How many calls have been made. -/
  calls : ℕ

/-- The file at a path of one side. -/
def SyncWorld.fileAt (w : SyncWorld) (s : SyncSide) (p : SyncPath) : Option SyncedFile :=
  (w.trees s).file p

/-- The content at a path of one side. -/
def SyncWorld.contentAt (w : SyncWorld) (s : SyncSide) (p : SyncPath) : Option Bytes :=
  (w.fileAt s p).map (·.content)

/-- `is_ignored`. -/
def isIgnored (name : String) : Bool := name = ".DS_Store"

/-- Whether the walk of a side comes by a path: on the disk names that start with a dot are passed
over, with what is below them. -/
def walked (s : SyncSide) (p : SyncPath) : Bool :=
  match s with
  | .onLocal => p.all fun name => !name.startsWith "."
  | .onRemote => true

/-! ## Changes of a tree -/

namespace SyncTree

/-- The tree that a change makes, if it can be made. -/
def orErr (msg : String) : Option SyncTree → Result SyncTree
  | some t => .ok t
  | none => protocolErr msg

/-- `mkdirs`.  In Peergos a file at the end of the path is as good as a directory. -/
def mkdirs (s : SyncSide) (p : SyncPath) (t : SyncTree) : Result SyncTree :=
  orErr "not a directory" (t.makeDirs (s = .onRemote) [] p)

/-- The tree with a file, in the place of what was at its path and below. -/
def replace (p : SyncPath) (f : SyncedFile) (t : SyncTree) : Result SyncTree :=
  orErr "not a directory" ((t.remove p).put p (.file f))

/-- `write` at offset 0, at a time. -/
def write (s : SyncSide) (p : SyncPath) (data : Bytes) (now : ℤ) (t : SyncTree) :
    Result SyncTree :=
  match s with
  | .onLocal => do
      let t ← mkdirs .onLocal p.dropLast t
      let old := (t.file p).getD ⟨[], now, chunkSizeForNewFiles⟩
      orErr "is a directory"
        (t.put p (.file ⟨writeAllAt old.content 0 data, now, old.chunkSize⟩))
  | .onRemote =>
      if t.isDir (parentPath p) then replace p ⟨data, now, chunkSizeForNewFiles⟩ t
      else protocolErr "parent not found"

/-- What is right below a directory is files that are never synced. -/
def onlyIgnored (p : SyncPath) (t : SyncTree) : Bool :=
  t.nodes.keys.all fun q =>
    q.dropLast ≠ p || ((t.file q).isSome && isIgnored (q.getLast?.getD ""))

/-- `delete`. -/
def delete (s : SyncSide) (p : SyncPath) (t : SyncTree) : Result SyncTree :=
  if !t.has p then protocolErr "not found"
  else
    match s with
    | .onLocal =>
        if t.isDir p ∧ !onlyIgnored p t then protocolErr "dir not empty" else .ok (t.remove p)
    | .onRemote =>
        if t.isDir (parentPath p) then .ok (t.remove p) else protocolErr "parent not found"

/-- The directories that a `move_to` makes.  In Peergos a file is first moved to another directory
under its name, if that is not taken. -/
def makeWay (s : SyncSide) (src target : SyncPath) (t : SyncTree) : Result SyncTree :=
  match s with
  | .onLocal => mkdirs .onLocal target.dropLast t
  | .onRemote =>
      if src.dropLast = target.dropLast then .ok t
      else do
        let t ← mkdirs .onRemote target.dropLast t
        if t.has (target.dropLast ++ [src.getLast?.getD ""]) then
          protocolErr "target already has a child"
        else pure t

/-- `move_to`, of a file.  On the disk the target may be another file. -/
def moveTo (s : SyncSide) (src target : SyncPath) (t : SyncTree) : Result SyncTree :=
  if s = .onRemote ∧ src = target then .ok t
  else do
    let t ← makeWay s src target t
    match t.file src with
    | none => protocolErr "not found"
    | some f =>
        if s = .onRemote ∧ t.has target then protocolErr "already exists"
        else orErr "is a directory" ((t.remove src).put target (.file f))

/-- `set_modification_time` of the disk, to a full second that is not before the epoch. -/
def setModificationTime (p : SyncPath) (time : ℤ) (t : SyncTree) : Result SyncTree :=
  match t.file p with
  | some f =>
      orErr "not found" (t.put p (.file { f with modificationTime := max time 0 / 1000 * 1000 }))
  | none => if t.has p then .ok t else protocolErr "not found"

end SyncTree

/-! ## Calls -/

/-- What is outside the program. -/
structure SyncEnv where
  overflow : Overflow
  /-- How long the search for a free name goes on. -/
  fuel : ℕ
  /-- Which calls fail. -/
  fails : ℕ → Bool
  /-- The time that a write gives a file. -/
  now : ℕ → ℤ
  /-- The hash functions of the crypto library. -/
  hasher : ContentHasher
  /-- The order in which a directory is walked or a hash map listed. -/
  arrange : ℕ → List SyncPath → List SyncPath
  perm : ∀ n l, (arrange n l).Perm l

namespace SyncEnv

variable (env : SyncEnv)

/-- A call that looks at a side. -/
def look {α : Type} (s : SyncSide) (f : SyncTree → Result α) : Exec SyncWorld Fault α := fun w =>
  (if env.fails w.calls then protocolErr "call failed" else f (w.trees s),
    { w with calls := w.calls + 1 })

/-- A call that changes a side. -/
def change (s : SyncSide) (f : ℤ → SyncTree → Result SyncTree) : Exec SyncWorld Fault Unit :=
  fun w =>
    match if env.fails w.calls then protocolErr "call failed"
      else f (env.now w.calls) (w.trees s) with
    | .ok t => (.ok (), { w with trees := Function.update w.trees s t, calls := w.calls + 1 })
    | .error e => (.error e, { w with calls := w.calls + 1 })

/-- Change the synced state. -/
def sync (f : RamTreeState → RamTreeState) : Exec SyncWorld Fault Unit :=
  Exec.update fun w => { w with synced := f w.synced }

/-- `exists`.  It fails only where it has to ask a server, and then as if nothing were there. -/
def fileExists (s : SyncSide) (p : SyncPath) : Exec SyncWorld Fault Bool :=
  match s with
  | .onLocal => Exec.reads fun w => (w.trees .onLocal).has p
  | .onRemote => env.look .onRemote fun t => .ok (t.has p)

/-- `mkdirs`. -/
def mkdirs (s : SyncSide) (p : SyncPath) : Exec SyncWorld Fault Unit :=
  env.change s fun _ => SyncTree.mkdirs s p

/-- `delete`. -/
def delete (s : SyncSide) (p : SyncPath) : Exec SyncWorld Fault Unit :=
  env.change s fun _ => SyncTree.delete s p

/-- `move_to`. -/
def moveTo (s : SyncSide) (src target : SyncPath) : Exec SyncWorld Fault Unit :=
  env.change s fun _ => SyncTree.moveTo s src target

/-- What is read of a file, if there is one. -/
def lookAt {α : Type} (s : SyncSide) (p : SyncPath) (f : SyncedFile → Result α) :
    Exec SyncWorld Fault α :=
  env.look s fun t =>
    match t.file p with
    | none => protocolErr "not found"
    | some file => f file

/-- `get_last_modified`. -/
def getLastModified (s : SyncSide) (p : SyncPath) : Exec SyncWorld Fault ℤ :=
  env.lookAt s p fun f => .ok f.modificationTime

/-- `set_modification_time`.  In Peergos it does nothing. -/
def setModificationTime (s : SyncSide) (p : SyncPath) (time : ℤ) : Exec SyncWorld Fault Unit :=
  match s with
  | .onLocal => env.change .onLocal fun _ => SyncTree.setModificationTime p time
  | .onRemote => pure ()

/-- `read`. -/
def read (s : SyncSide) (p : SyncPath) : Exec SyncWorld Fault Bytes :=
  env.lookAt s p fun f => .ok f.content

/-- `write` at offset 0. -/
def write (s : SyncSide) (p : SyncPath) (data : Bytes) : Exec SyncWorld Fault Unit :=
  env.change s fun now => SyncTree.write s p data now

/-- The hash of a file and its chunk size.  A file in Peergos is hashed at its own chunk size. -/
def hashOf (s : SyncSide) (chunkSize : ℕ) (f : SyncedFile) : Result (Bytes × ℕ) := do
  let chunkSize := match s with
    | .onLocal => chunkSize
    | .onRemote => f.chunkSize
  let root ← contentRootHash env.hasher f.content chunkSize
  if root.hash.length = 32 then pure (root.hash, chunkSize) else .error .panic

/-- `hash_file`. -/
def hashFile (s : SyncSide) (p : SyncPath) (chunkSize : ℕ) : Exec SyncWorld Fault (Bytes × ℕ) :=
  env.lookAt s p (env.hashOf s chunkSize)

/-- `upload_subtree` of Peergos, one file after the other. -/
def uploadSubtree (files : List (SyncPath × Bytes)) : Exec SyncWorld Fault Unit :=
  Exec.forEach files fun file => do
    env.mkdirs .onRemote file.1.dropLast
    env.change .onRemote fun now => SyncTree.replace file.1 ⟨file.2, now, chunkSizeForNewFiles⟩

/-- `bulk_delete` of Peergos. -/
def bulkDelete (dir : SyncPath) (children : List String) : Exec SyncWorld Fault Unit :=
  Exec.forEach children fun child => env.delete .onRemote (dir ++ [child])

/-- What a rename uses of a side. -/
def filesystem (s : SyncSide) : SyncFilesystem SyncWorld :=
  ⟨env.fileExists s, env.moveTo s, env.getLastModified s⟩

end SyncEnv

end Peergos
