import PeergosClient.Core.Storage
import PeergosClient.Lib.Exec
import PeergosClient.Lib.PathMap

/-!
# The folders of the email app

`FileWrapper` as the email code uses it: a handle is the path of a file or folder below the home
folder, and the calls read and change the map from paths to files.  `child` looks for one entry by
its name, whatever characters the name has; `get_by_path` and `get_or_mkdirs` take a path apart at
its slashes first.
-/

namespace Peergos

/-- What stands at a path. -/
inductive FileNode where
  | file (bytes : Bytes)
  | directory
  deriving DecidableEq

/-- The files and folders below the home folder. -/
abbrev Files := PathMap String FileNode

/-- The path of a `FileWrapper`. -/
abbrev FolderPath := List String

/-- Calls that read or change the files. -/
abbrev FileCall := Exec Files Fault

/-- `path.trim_matches('/').split('/').filter(|s| !s.is_empty())`.  The empty parts go, so trimming
them off first makes no difference. -/
def components (path : String) : List String :=
  ((path.toList.splitOn '/').filter fun part => part ≠ []).map String.ofList

/-- The handle is a folder's; the home folder has no entry of its own. -/
def Files.isDirectory (fs : Files) (p : FolderPath) : Prop :=
  p = [] ∨ fs.get p = some .directory

instance (fs : Files) (p : FolderPath) : Decidable (fs.isDirectory p) :=
  inferInstanceAs (Decidable (_ ∨ _))

namespace FileWrapper

/-- `FileWrapper::child`. -/
def child (dir : FolderPath) (name : String) : FileCall (Option FolderPath) :=
  Exec.query fun fs =>
    if fs.isDirectory dir then
      .ok (if (fs.get (dir ++ [name])).isSome then some (dir ++ [name]) else none)
    else protocolErr "capability points to a file, not a directory"

/-- `FileWrapper::get_by_path`, from the components of the path. -/
def walk : FolderPath → List String → FileCall (Option FolderPath)
  | cur, [] => pure (some cur)
  | cur, comp :: rest => do
      match ← child cur comp with
      | some next => walk next rest
      | none => pure none

/-- `FileWrapper::get_by_path`. -/
def getByPath (dir : FolderPath) (path : String) : FileCall (Option FolderPath) :=
  walk dir (components path)

/-- `FileWrapper::read`. -/
def read (p : FolderPath) : FileCall Bytes :=
  Exec.query fun fs =>
    match fs.get p with
    | some (.file bytes) => .ok bytes
    | some .directory => protocolErr "cannot read a directory"
    | none => protocolErr "map key not found in tree"

/-- `FileWrapper::children`, with their names and contents. -/
def children (dir : FolderPath) : FileCall (List (String × FileNode)) :=
  Exec.query fun fs =>
    if fs.isDirectory dir then .ok (PathMap.children fs dir) else protocolErr "not a directory"

/-- Link a new entry into a folder, in place of one of its name. -/
def link (dir : FolderPath) (name : String) (node : FileNode) : FileCall FolderPath :=
  Exec.ofExcept fun fs =>
    if fs.isDirectory dir then .ok (dir ++ [name], fs.put (dir ++ [name]) node)
    else protocolErr "capability is not a directory"

/-- `FileWrapper::mkdir`. -/
def mkdir (dir : FolderPath) (name : String) : FileCall FolderPath := link dir name .directory

/-- `FileWrapper::upload`. -/
def upload (dir : FolderPath) (name : String) (data : Bytes) : FileCall FolderPath :=
  link dir name (.file data)

/-- One step of `FileWrapper::get_or_mkdirs`. -/
def childOrMkdir (cur : FolderPath) (comp : String) : FileCall FolderPath := do
  match ← child cur comp with
  | some c => pure c
  | none => mkdir cur comp

/-- `FileWrapper::get_or_mkdirs`, from the components of the path. -/
def ensure : FolderPath → List String → FileCall FolderPath
  | cur, [] => pure cur
  | cur, comp :: rest => do
      let next ← childOrMkdir cur comp
      ensure next rest

/-- `FileWrapper::get_or_mkdirs`. -/
def getOrMkdirs (dir : FolderPath) (path : String) : FileCall FolderPath :=
  ensure dir (components path)

/-- `FileWrapper::remove_child`. -/
def removeChild (dir : FolderPath) (name : String) : FileCall Unit :=
  Exec.ofExcept fun fs =>
    if fs.isDirectory dir then
      if (fs.get (dir ++ [name])).isSome then .ok ((), fs.remove (dir ++ [name]))
      else protocolErr ("no such child: " ++ name)
    else protocolErr "capability is not a directory"

/-- A folder that has to be there (`child(..).ok_or_else(..)`). -/
def childOr (dir : FolderPath) (name missing : String) : FileCall FolderPath := do
  match ← child dir name with
  | some f => pure f
  | none => Exec.lift (protocolErr missing)

end FileWrapper

/-! ## The components of a path -/

theorem components_append_slash (a b : String) :
    components (a ++ "/" ++ b) = components a ++ components b := by
  have hsplit : (a ++ "/" ++ b).toList.splitOn '/' = a.toList.splitOn '/' ++ b.toList.splitOn '/' := by
    rw [String.toList_append, String.toList_append, List.append_assoc]
    exact List.splitOn_append_cons_self _ _
  rw [components, hsplit, List.filter_append, List.map_append]
  rfl

/-- A name without a slash is its own only component. -/
theorem components_name {name : String} (hne : name ≠ "") (h : '/' ∉ name.toList) :
    components name = [name] := by
  have hsplit : name.toList.splitOn '/' = [name.toList] := by
    exact List.splitOn_eq_singleton h
  have hl : name.toList ≠ [] := by simpa using hne
  simp [components, hsplit, hl]

/-! ## What the calls do -/

namespace Files

/-- Every step of the way from `dir` along the components is there, and each but the last is a
folder. -/
def Reaches (fs : Files) : FolderPath → List String → Prop
  | _, [] => True
  | dir, name :: rest =>
      fs.isDirectory dir ∧ (fs.get (dir ++ [name])).isSome ∧ Reaches fs (dir ++ [name]) rest

variable {fs : Files} {dir : FolderPath}

theorem Reaches.append {comps more : List String} (h : fs.Reaches dir comps)
    (h' : fs.Reaches (dir ++ comps) more) : fs.Reaches dir (comps ++ more) := by
  induction comps generalizing dir with
  | nil => simpa using h'
  | cons name rest ih =>
      refine ⟨h.1, h.2.1, ih h.2.2 ?_⟩
      simpa using h'

theorem Reaches.isDirectory {comps more : List String} {name : String}
    (h : fs.Reaches dir (comps ++ name :: more)) : fs.isDirectory (dir ++ comps) := by
  induction comps generalizing dir with
  | nil => simpa using h.1
  | cons a rest ih => simpa using ih h.2.2

theorem Reaches.isSome {comps more : List String} {name : String}
    (h : fs.Reaches dir (comps ++ name :: more)) : (fs.get (dir ++ comps ++ [name])).isSome := by
  induction comps generalizing dir with
  | nil => simpa using h.2.1
  | cons a rest ih => simpa using ih h.2.2

/-- A folder stays one when something is put elsewhere. -/
theorem isDirectory_put {p q : FolderPath} {node : FileNode} (h : fs.isDirectory q)
    (hpq : ¬ p <+: q) : Files.isDirectory (fs.put p node) q := by
  rcases h with h | h
  · exact .inl h
  · right
    rw [PathMap.get_put_of_not_prefix _ _ hpq, h]

/-- The way stays there when something is put off it. -/
theorem Reaches.put {comps : List String} {p : FolderPath} {node : FileNode}
    (h : fs.Reaches dir comps) (hp : ¬ p <+: dir ++ comps) :
    Files.Reaches (fs.put p node) dir comps := by
  induction comps generalizing dir with
  | nil => trivial
  | cons name rest ih =>
      have hname : ¬ p <+: dir ++ [name] := fun hpre =>
        hp (hpre.trans (by simp))
      refine ⟨isDirectory_put h.1 fun hpre => hp (hpre.trans (List.prefix_append _ _)), ?_,
        ih h.2.2 (by simpa using hp)⟩
      rw [PathMap.get_put_of_not_prefix _ _ hname]
      exact h.2.1

/-- The way from the home folder does not pass where nothing is. -/
theorem Reaches.not_prefix {comps : List String} {p : FolderPath} (h : fs.Reaches [] comps)
    (hne : p ≠ []) (hp : fs.get p = none) : ¬ p <+: comps := by
  rintro ⟨more, rfl⟩
  rcases List.eq_nil_or_concat p with rfl | ⟨q, a, rfl⟩
  · exact hne rfl
  · rw [List.concat_eq_append, List.append_assoc] at h
    have hsome := h.isSome
    simp only [List.nil_append] at hsome
    rw [List.concat_eq_append] at hp
    rw [hp] at hsome
    cases hsome

end Files

namespace FileWrapper

variable {fs fs' : Files} {dir : FolderPath} {name : String}

theorem child_of_isSome (hdir : fs.isDirectory dir) (h : (fs.get (dir ++ [name])).isSome) :
    child dir name fs = (.ok (some (dir ++ [name])), fs) := by
  simp [child, hdir, h]

theorem child_of_none (hdir : fs.isDirectory dir) (h : fs.get (dir ++ [name]) = none) :
    child dir name fs = (.ok none, fs) := by
  simp [child, hdir, h]

theorem childOr_of_isSome {missing : String} (hdir : fs.isDirectory dir)
    (h : (fs.get (dir ++ [name])).isSome) :
    childOr dir name missing fs = (.ok (dir ++ [name]), fs) :=
  Exec.bind_of_ok (child_of_isSome hdir h)

theorem childOr_of_none {missing : String} (hdir : fs.isDirectory dir)
    (h : fs.get (dir ++ [name]) = none) :
    childOr dir name missing fs = (protocolErr missing, fs) :=
  Exec.bind_of_ok (child_of_none hdir h)

theorem link_of_isDirectory {node : FileNode} (hdir : fs.isDirectory dir) :
    link dir name node fs = (.ok (dir ++ [name]), fs.put (dir ++ [name]) node) := by
  simp [link, Exec.ofExcept, hdir]

theorem upload_of_isDirectory {data : Bytes} (hdir : fs.isDirectory dir) :
    upload dir name data fs = (.ok (dir ++ [name]), fs.put (dir ++ [name]) (.file data)) :=
  link_of_isDirectory hdir

theorem read_of_file {p : FolderPath} {bytes : Bytes} (h : fs.get p = some (.file bytes)) :
    read p fs = (.ok bytes, fs) := by
  simp [read, h]

theorem walk_of_reaches {comps : List String} (h : fs.Reaches dir comps) :
    walk dir comps fs = (.ok (some (dir ++ comps)), fs) := by
  induction comps generalizing dir with
  | nil => simp [walk]
  | cons name rest ih =>
      rw [walk, Exec.bind_of_ok (child_of_isSome h.1 h.2.1)]
      simpa using ih h.2.2

theorem ensure_of_reaches {comps : List String} (h : fs.Reaches dir comps) :
    ensure dir comps fs = (.ok (dir ++ comps), fs) := by
  induction comps generalizing dir with
  | nil => simp [ensure]
  | cons name rest ih =>
      have hstep : childOrMkdir dir name fs = (.ok (dir ++ [name]), fs) :=
        Exec.bind_of_ok (child_of_isSome h.1 h.2.1)
      rw [ensure, Exec.bind_of_ok hstep]
      simpa using ih h.2.2

/-- One step of `get_or_mkdirs` finds the folder or makes it. -/
theorem childOrMkdir_eq_ok {next : FolderPath} (hdir : fs.Reaches [] dir)
    (h : childOrMkdir dir name fs = (.ok next, fs')) :
    next = dir ++ [name] ∧ fs'.Reaches [] (dir ++ [name]) ∧
    (∀ way, fs.Reaches [] way → fs'.Reaches [] way) ∧
    ∀ q, fs.get q = none → q ≠ dir ++ [name] → fs'.get q = none := by
  obtain ⟨found, fs₁, hchild, hnext⟩ := Exec.bind_eq_ok h
  by_cases hd : fs.isDirectory dir
  · cases hget : fs.get (dir ++ [name]) with
    | some node =>
        have hsome : (fs.get (dir ++ [name])).isSome := by simp [hget]
        rw [child_of_isSome hd hsome] at hchild
        cases hchild
        cases hnext
        exact ⟨rfl, hdir.append ⟨by simpa using hd, by simpa using hsome, trivial⟩,
          fun way hway => hway, fun q hq _ => hq⟩
    | none =>
        rw [child_of_none hd hget] at hchild
        cases hchild
        have hnext' : mkdir dir name fs = (.ok next, fs') := hnext
        rw [mkdir, link_of_isDirectory hd] at hnext'
        cases hnext'
        have hways : ∀ way, fs.Reaches [] way →
            Files.Reaches (fs.put (dir ++ [name]) .directory) [] way := by
          intro way hway
          exact hway.put (hway.not_prefix (by simp) hget)
        have hd' : ¬ dir ++ [name] <+: dir := fun hpre => by
          have := hpre.length_le
          simp at this
        refine ⟨rfl, (hways dir hdir).append ⟨?_, ?_, trivial⟩, hways, ?_⟩
        · simpa using Files.isDirectory_put hd hd'
        · simp [PathMap.get_put_self]
        · intro q hq hne
          rw [PathMap.get_put, if_neg hne, hq]
          simp
  · simp [child, hd, protocolErr] at hchild

/-- What `get_or_mkdirs` leaves behind: the way it was asked for, and all ways from home that were
there.  It makes nothing off its way. -/
theorem ensure_eq_ok {comps : List String} {p : FolderPath} (hdir : fs.Reaches [] dir)
    (h : ensure dir comps fs = (.ok p, fs')) :
    p = dir ++ comps ∧ fs'.Reaches [] (dir ++ comps) ∧
    (∀ way, fs.Reaches [] way → fs'.Reaches [] way) ∧
    ∀ q, fs.get q = none → (∀ k < comps.length, q ≠ dir ++ comps.take (k + 1)) →
      fs'.get q = none := by
  induction comps generalizing dir fs with
  | nil =>
      cases h
      simpa using hdir
  | cons name rest ih =>
      obtain ⟨next, fs₁, hnext, hrest⟩ := Exec.bind_eq_ok h
      obtain ⟨rfl, hreach, hways, hnone⟩ := childOrMkdir_eq_ok hdir hnext
      obtain ⟨rfl, hreach', hways', hnone'⟩ := ih hreach hrest
      refine ⟨by simp, by simpa using hreach', fun way hway => hways' way (hways way hway), ?_⟩
      intro q hq hoff
      refine hnone' q (hnone q hq ?_) fun k hk => ?_
      · simpa using hoff 0 (by simp)
      · simpa using hoff (k + 1) (by simpa using hk)

/-- `get_or_mkdirs` makes no file. -/
theorem ensure_keeps_files (q : FolderPath) (bytes : Bytes) (φ : Prop) (dir : FolderPath)
    (comps : List String) :
    Exec.Keeps (fun fs : Files => fs.get q = some (.file bytes) → φ) (ensure dir comps) := by
  have hmkdir : ∀ dir name, Exec.Keeps (fun fs : Files => fs.get q = some (.file bytes) → φ)
      (mkdir dir name) := by
    intro dir name fs hfs
    by_cases hd : fs.isDirectory dir
    · rw [mkdir, link_of_isDirectory hd]
      intro hq
      rw [PathMap.get_put] at hq
      split at hq
      · cases hq
      · split at hq
        · cases hq
        · exact hfs hq
    · simpa [mkdir, link, Exec.ofExcept, hd, protocolErr] using hfs
  induction comps generalizing dir with
  | nil => exact Exec.Keeps.pure dir
  | cons name rest ih =>
      refine Exec.Keeps.bind (Exec.Keeps.bind (Exec.Keeps.query _) fun found => ?_) ih
      cases found with
      | some c => exact Exec.Keeps.pure c
      | none => exact hmkdir dir name

end FileWrapper

end Peergos
