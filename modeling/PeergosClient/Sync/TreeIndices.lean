import PeergosClient.Sync.Trees

/-!
# The two indices of a tree state

A tree state files its files twice, by path and by hash, in two maps that are written one after the
other.  Everywhere else one map stands for both of them (`RamTreeState.files`), listed in the order
in which the paths were added.  Here the two maps are those of the source, and they agree with the
one after any run of additions and removals.
-/

namespace Peergos

/-! ## The model -/

/-- `files_by_path` and `files_by_hash` of `RamTreeState`. -/
structure TreeIndices where
  filesByPath : InsertionMap SyncPath FileState
  filesByHash : InsertionMap Bytes (List SyncPath)

/-- A write to a tree state. -/
inductive TreeWrite where
  | add (fs : FileState)
  | remove (path : SyncPath)

namespace TreeIndices

/-- `RamTreeState::new`. -/
def new : TreeIndices := ⟨∅, ∅⟩

/-- A path is taken off the list of a hash, and the list off the map if it is empty then. -/
def dropPath (byHash : InsertionMap Bytes (List SyncPath)) (hash : Bytes) (path : SyncPath) :
    InsertionMap Bytes (List SyncPath) :=
  match byHash.get hash with
  | some paths =>
      let paths := paths.filter (· ≠ path)
      if paths = [] then byHash.erase hash else byHash.insert hash paths
  | none => byHash

/-- `RamTreeState::remove`. -/
def remove (t : TreeIndices) (path : SyncPath) : TreeIndices :=
  match t.filesByPath.get path with
  | some fs => ⟨t.filesByPath.erase path, dropPath t.filesByHash fs.hash path⟩
  | none => t

/-- `RamTreeState::add`: the entry that the path has is removed first. -/
def add (t : TreeIndices) (fs : FileState) : TreeIndices :=
  let rel := fs.relPath
  let t : TreeIndices :=
    match t.filesByPath.get rel with
    | some old => ⟨t.filesByPath.erase rel, dropPath t.filesByHash old.hash rel⟩
    | none => t
  ⟨t.filesByPath.insert rel fs,
    t.filesByHash.insert fs.hash ((t.filesByHash.get fs.hash).getD [] ++ [rel])⟩

/-- `RamTreeState::by_hash`. -/
def byHash (t : TreeIndices) (hash : Bytes) : List FileState :=
  ((t.filesByHash.get hash).map fun paths => paths.filterMap t.filesByPath.get).getD []

/-- One write. -/
def write (t : TreeIndices) : TreeWrite → TreeIndices
  | .add fs => t.add fs
  | .remove path => t.remove path

/-- A sequence of writes. -/
def run (writes : List TreeWrite) : TreeIndices := writes.foldl write new

end TreeIndices

/-- One write to the state that has one map. -/
def RamTreeState.write (s : RamTreeState) : TreeWrite → RamTreeState
  | .add fs => s.add fs
  | .remove path => s.remove path

/-- The paths of a hash, in order. -/
def RamTreeState.pathsOf (s : RamTreeState) (hash : Bytes) : List SyncPath :=
  (s.files.entries.filter fun e => e.2.hash = hash).map Prod.fst

/-- A list, unless it is empty. -/
def unlessEmpty {α : Type} [DecidableEq α] (l : List α) : Option (List α) :=
  if l = [] then none else some l

@[simp] theorem unlessEmpty_nil {α : Type} [DecidableEq α] : unlessEmpty ([] : List α) = none := rfl

theorem unlessEmpty_of_ne {α : Type} [DecidableEq α] {l : List α} (h : l ≠ []) :
    unlessEmpty l = some l := if_neg h

theorem getD_unlessEmpty {α : Type} [DecidableEq α] (l : List α) :
    (unlessEmpty l).getD [] = l := by
  by_cases h : l = [] <;> simp [unlessEmpty, h]

/-! ## The one map -/

section OneMap

variable (s : RamTreeState) {path : SyncPath} {hash : Bytes}

theorem RamTreeState.mem_pathsOf :
    path ∈ s.pathsOf hash ↔ ∃ f, s.byPath path = some f ∧ f.hash = hash := by
  rw [pathsOf, List.mem_map]
  constructor
  · rintro ⟨⟨p, f⟩, hmem, rfl⟩
    obtain ⟨hmem, hhash⟩ := List.mem_filter.1 hmem
    exact ⟨f, InsertionMap.get_eq_some.2 hmem, by simpa using hhash⟩
  · rintro ⟨f, hf, hhash⟩
    exact ⟨(path, f), List.mem_filter.2 ⟨InsertionMap.get_eq_some.1 hf, by simpa using hhash⟩, rfl⟩

theorem RamTreeState.nodup_pathsOf (hash : Bytes) : (s.pathsOf hash).Nodup :=
  (List.filter_sublist.map _).nodup s.files.nodup

theorem RamTreeState.pathsOf_remove (path : SyncPath) (hash : Bytes) :
    (s.remove path).pathsOf hash = (s.pathsOf hash).filter (· ≠ path) := by
  show (((s.files.entries.filter fun e => e.1 ≠ path).filter fun e => e.2.hash = hash)).map _ = _
  rw [pathsOf, List.filter_map, List.filter_comm]
  rfl

theorem RamTreeState.pathsOf_add (f : FileState) (hash : Bytes) :
    (s.add f).pathsOf hash =
      (s.pathsOf hash).filter (· ≠ f.relPath) ++ if f.hash = hash then [f.relPath] else [] := by
  rw [← s.pathsOf_remove f.relPath hash]
  show ((((s.remove f.relPath).files.entries ++ [(f.relPath, f)]).filter fun e =>
    e.2.hash = hash)).map _ = _
  rw [List.filter_append, List.map_append]
  by_cases h : f.hash = hash <;> simp [h, pathsOf]

/-- A path without a file is in no list. -/
theorem RamTreeState.filter_pathsOf_of_none (hnone : s.byPath path = none) (hash : Bytes) :
    (s.pathsOf hash).filter (· ≠ path) = s.pathsOf hash := by
  rw [List.filter_eq_self]
  intro p hp
  rw [decide_eq_true_iff]
  rintro rfl
  obtain ⟨f, hf, -⟩ := s.mem_pathsOf.1 hp
  rw [hnone] at hf
  cases hf

/-- A path with a file is in the list of no other hash. -/
theorem RamTreeState.filter_pathsOf_of_ne {f : FileState} (hf : s.byPath path = some f)
    (hne : f.hash ≠ hash) : (s.pathsOf hash).filter (· ≠ path) = s.pathsOf hash := by
  rw [List.filter_eq_self]
  intro p hp
  rw [decide_eq_true_iff]
  rintro rfl
  obtain ⟨f', hf', hhash⟩ := s.mem_pathsOf.1 hp
  rw [hf] at hf'
  cases hf'
  exact hne hhash

/-- The files of a hash are those of its paths. -/
theorem RamTreeState.filterMap_pathsOf (hash : Bytes) :
    (s.pathsOf hash).filterMap s.byPath = s.byHash hash := by
  have hget : ∀ e ∈ s.files.entries, s.byPath e.1 = some e.2 :=
    fun e he => InsertionMap.get_eq_some.2 he
  rw [pathsOf, byHash, InsertionMap.values, List.filterMap_map, List.filter_map]
  generalize s.files.entries = l at hget
  induction l with
  | nil => rfl
  | cons e l ih =>
      have ih := ih fun e' he' => hget e' (List.mem_cons_of_mem _ he')
      have he := hget e List.mem_cons_self
      by_cases hhash : e.2.hash = hash <;> simp_all

end OneMap

/-! ## The two maps refine it -/

namespace TreeIndices

/-- The two maps hold what the one map holds. -/
structure Represents (t : TreeIndices) (s : RamTreeState) : Prop where
  byPath : ∀ path, t.filesByPath.get path = s.byPath path
  paths : ∀ hash, t.filesByHash.get hash = unlessEmpty (s.pathsOf hash)

variable {t : TreeIndices} {s : RamTreeState}

theorem represents_new : Represents new .new := ⟨fun _ => rfl, fun _ => rfl⟩

/-- The list of a hash loses a path. -/
theorem get_dropPath (h : Represents t s) (hash path) (hash' : Bytes) :
    (dropPath t.filesByHash hash path).get hash' =
      if hash' = hash then unlessEmpty ((s.pathsOf hash).filter (· ≠ path))
      else unlessEmpty (s.pathsOf hash') := by
  unfold dropPath
  rw [h.paths hash]
  by_cases hempty : s.pathsOf hash = []
  · rw [hempty, unlessEmpty_nil, h.paths hash']
    split
    · rename_i hh
      rw [hh, hempty]
      rfl
    · rfl
  · rw [unlessEmpty_of_ne hempty]
    dsimp only
    split
    · rename_i hnil
      rw [InsertionMap.get_erase, hnil, h.paths hash']
      rfl
    · rename_i hne
      rw [InsertionMap.get_insert, h.paths hash', unlessEmpty_of_ne hne]

theorem Represents.remove (h : Represents t s) (path : SyncPath) :
    Represents (t.remove path) (s.remove path) := by
  have hpath : ∀ p, (s.remove path).byPath p = if p = path then none else s.byPath p :=
    fun p => InsertionMap.get_erase _ _ _
  unfold TreeIndices.remove
  cases hget : t.filesByPath.get path with
  | none =>
      have hnone : s.byPath path = none := (h.byPath path).symm.trans hget
      refine ⟨fun p => ?_, fun hash => ?_⟩
      · rw [hpath, h.byPath]
        split
        · rename_i hp
          rw [hp, hnone]
        · rfl
      · rw [h.paths, s.pathsOf_remove, s.filter_pathsOf_of_none hnone]
  | some fs =>
      have hsome : s.byPath path = some fs := (h.byPath path).symm.trans hget
      refine ⟨fun p => ?_, fun hash => ?_⟩
      · rw [hpath]
        show (t.filesByPath.erase path).get p = _
        rw [InsertionMap.get_erase, h.byPath]
      · show (dropPath t.filesByHash fs.hash path).get hash = _
        rw [get_dropPath h, s.pathsOf_remove]
        split
        · rename_i hhash
          rw [hhash]
        · rename_i hhash
          rw [s.filter_pathsOf_of_ne hsome (Ne.symm hhash)]

theorem add_eq (t : TreeIndices) (fs : FileState) :
    t.add fs = ⟨(t.remove fs.relPath).filesByPath.insert fs.relPath fs,
      (t.remove fs.relPath).filesByHash.insert fs.hash
        (((t.remove fs.relPath).filesByHash.get fs.hash).getD [] ++ [fs.relPath])⟩ := rfl

theorem Represents.add (h : Represents t s) (fs : FileState) :
    Represents (t.add fs) (s.add fs) := by
  have hremoved := h.remove fs.relPath
  rw [add_eq]
  refine ⟨fun p => ?_, fun hash => ?_⟩
  · show ((t.remove fs.relPath).filesByPath.insert fs.relPath fs).get p =
      (s.files.insert fs.relPath fs).get p
    rw [InsertionMap.get_insert, InsertionMap.get_insert, hremoved.byPath]
    split
    · rfl
    · rename_i hp
      exact InsertionMap.get_erase_of_ne _ hp
  · rw [s.pathsOf_add, ← s.pathsOf_remove, InsertionMap.get_insert, hremoved.paths,
      hremoved.paths]
    by_cases hhash : hash = fs.hash
    · subst hhash
      rw [if_pos rfl, if_pos rfl, getD_unlessEmpty, unlessEmpty_of_ne (by simp)]
    · rw [if_neg hhash, if_neg (Ne.symm hhash), List.append_nil]

/-- After any writes the two maps hold what the one map holds after them. -/
theorem represents_run (writes : List TreeWrite) :
    Represents (run writes) (writes.foldl RamTreeState.write .new) := by
  have hfold : ∀ {t s}, Represents t s →
      Represents (writes.foldl write t) (writes.foldl RamTreeState.write s) := by
    induction writes with
    | nil => exact fun h => h
    | cons w writes ih =>
        intro t s h
        cases w with
        | add fs => exact ih (h.add fs)
        | remove path => exact ih (h.remove path)
  exact hfold represents_new

/-- The files of a hash come in the order in which the one map lists them. -/
theorem Represents.byHash_eq (h : Represents t s) (hash : Bytes) : t.byHash hash = s.byHash hash := by
  have hget : t.filesByPath.get = s.byPath := funext h.byPath
  rw [byHash, h.paths, hget, ← s.filterMap_pathsOf]
  by_cases hempty : s.pathsOf hash = []
  · rw [hempty]
    rfl
  · rw [unlessEmpty_of_ne hempty]
    rfl

/-- What the map of hashes holds for one hash: the paths of the files with that hash, each once. -/
structure ListsPaths (t : TreeIndices) (hash : Bytes) (paths : List SyncPath) : Prop where
  nodup : paths.Nodup
  mem_iff : ∀ path, path ∈ paths ↔ ∃ f, t.filesByPath.get path = some f ∧ f.hash = hash

/-- After any run of additions and removals the map of hashes has a list just for the hashes that
files have, which is not empty and has the paths of these files, each once; and `by_hash` gives the
files, each once. -/
theorem indices_agree (writes : List TreeWrite) (hash : Bytes) :
    (match (run writes).filesByHash.get hash with
      | some paths => paths ≠ [] ∧ ListsPaths (run writes) hash paths
      | none => ListsPaths (run writes) hash []) ∧
      ((run writes).byHash hash).Nodup ∧
      ∀ f, f ∈ (run writes).byHash hash ↔
        (run writes).filesByPath.get f.relPath = some f ∧ f.hash = hash := by
  have h := represents_run writes
  generalize run writes = t at h
  generalize writes.foldl RamTreeState.write .new = s at h
  have hlists : ListsPaths t hash (s.pathsOf hash) := by
    refine ⟨s.nodup_pathsOf hash, fun path => ?_⟩
    rw [s.mem_pathsOf, h.byPath]
  refine ⟨?_, ?_, fun f => ?_⟩
  · rw [h.paths]
    by_cases hempty : s.pathsOf hash = []
    · rw [hempty, unlessEmpty_nil]
      exact hempty ▸ hlists
    · rw [unlessEmpty_of_ne hempty]
      exact ⟨hempty, hlists⟩
  · rw [h.byHash_eq]
    refine List.Nodup.filter _ (List.Nodup.of_map FileState.relPath ?_)
    have hkeys : s.files.values.map FileState.relPath = s.files.keys := by
      rw [InsertionMap.values, InsertionMap.keys, List.map_map]
      refine List.map_congr_left fun e he => ?_
      exact s.keyed e.1 e.2 (InsertionMap.get_eq_some.2 he)
    rw [hkeys]
    exact s.files.nodup
  · rw [h.byHash_eq, h.byPath, RamTreeState.byHash, List.mem_filter, decide_eq_true_iff,
      InsertionMap.mem_values]
    refine and_congr_left fun _ => ⟨?_, fun hf => ⟨_, hf⟩⟩
    rintro ⟨p, hp⟩
    rw [s.keyed p f hp]
    exact hp

end TreeIndices

end Peergos
