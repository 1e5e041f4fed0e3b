import PeergosClient.Fs.Cryptree

/-!
# The public filesystem

What a user has published is a map from paths to capabilities, kept as a filesystem of numbered
inodes: a champ from inodes to directories, where a directory lists its children as an inline list
while it is small and in an inner champ once it has grown.  A child is an inode, with a capability
if it is published itself.

The champs are the maps they refine: the outer one a function from inodes, the inner one a list of
children with distinct names.  A stored value is the object itself instead of its CBOR form.
-/

namespace Peergos

/-- `Inode`: a numbered, named node. -/
structure Inode where
  inode : ℕ
  name : String
  deriving DecidableEq, Repr

/-- `Inode::root`. -/
def Inode.root : Inode := ⟨0, ""⟩

/-- `PublishedLink`. -/
structure PublishedLink where
  label : Int64
  linkPassword : String
  deriving DecidableEq, Repr

/-- `InodeCap`: a child, with its capability if it is published. -/
structure InodeCap where
  inode : Inode
  cap : Option AbsoluteCapability
  link : Option PublishedLink
  deriving DecidableEq, Repr

/-- `MAX_CHILDREN_INLINED`. -/
def maxChildrenInlined : ℕ := 32

/-! ## Children of a directory -/

/-- The inner champ of a directory: its children by name. -/
abbrev NameMap := List InodeCap

namespace NameMap

/-- `Champ::get`. -/
def get (m : NameMap) (name : String) : Option InodeCap := m.find? fun c => c.inode.name = name

/-- The children of other names. -/
def without (m : NameMap) (name : String) : NameMap := m.filter fun c => c.inode.name ≠ name

/-- `Champ::put`: a compare-and-swap, unless the name is new. -/
def put (m : NameMap) (expected : Option InodeCap) (child : InodeCap) : Result NameMap :=
  match m.get child.inode.name with
  | some current =>
      if expected = some current then .ok (m.without child.inode.name ++ [child])
      else protocolErr "champ CAS failed"
  | none => .ok (m ++ [child])

end NameMap

/-- `DirectoryInode`. -/
inductive DirectoryInode where
  | inline (list : List InodeCap)
  | champ (children : NameMap)
  deriving DecidableEq, Repr

namespace DirectoryInode

/-- `DirectoryInode::default`. -/
def default : DirectoryInode := .inline []

/-- The children, in either form. -/
def children : DirectoryInode → NameMap
  | .inline list => list
  | .champ children => children

/-- `DirectoryInode::get_child`. -/
def getChild (d : DirectoryInode) (name : String) : Option InodeCap :=
  match d with
  | .inline list => list.find? fun c => c.inode.name = name
  | .champ children => children.get name

/-- `DirectoryInode::child_count`. -/
def childCount : DirectoryInode → ℕ
  | .inline list => list.length
  | .champ children => children.length

/-- `DirectoryInode::add_child`. -/
def addChild (d : DirectoryInode) (child : InodeCap) : Result DirectoryInode :=
  match d with
  | .inline list =>
      if (list.any fun c => c.inode.name = child.inode.name) ∨ list.length < maxChildrenInlined then
        pure (.inline ((list.filter fun c => c.inode.name ≠ child.inode.name) ++ [child]))
      else do
        -- the inline list is moved to a champ, the new child with it
        let champ ← (list ++ [child]).foldlM (fun champ c => NameMap.put champ none c) []
        pure (.champ champ)
  | .champ children => do
      let expected := children.get child.inode.name
      let champ ← children.put expected child
      pure (.champ champ)

/-- `DirectoryInode::remove_child`. -/
def removeChild (d : DirectoryInode) (name : String) : DirectoryInode :=
  match d with
  | .inline list => .inline (list.filter fun c => c.inode.name ≠ name)
  | .champ children =>
      match children.get name with
      | none => .champ children
      | some _ => .champ (children.without name)

/-! ### What the operations do to the children -/

/-- The children have distinct names. -/
def Distinct (d : DirectoryInode) : Prop := (d.children.map fun c => c.inode.name).Nodup

theorem getChild_eq (d : DirectoryInode) (name : String) : d.getChild name = d.children.get name := by
  cases d <;> rfl

theorem childCount_eq (d : DirectoryInode) : d.childCount = d.children.length := by
  cases d <;> rfl

theorem name_of_getChild {d : DirectoryInode} {name : String} {c : InodeCap}
    (h : d.getChild name = some c) : c.inode.name = name := by
  rw [getChild_eq] at h
  simpa using List.find?_some h

theorem distinct_default : default.Distinct := List.nodup_nil

@[simp] theorem getChild_default (name : String) : default.getChild name = none := rfl

end DirectoryInode

namespace NameMap

theorem get_without (m : NameMap) (name other : String) :
    (m.without name).get other = if other = name then none else m.get other := by
  unfold get without
  rw [List.find?_filter]
  split
  · next heq =>
      subst heq
      refine List.find?_eq_none.2 fun c _ => ?_
      simp
  · next hne =>
      congr 1
      funext c
      by_cases hc : c.inode.name = other
      · simp [hc, hne]
      · simp [hc]

theorem get_append_singleton {m : NameMap} {c : InodeCap} (h : m.get c.inode.name = none)
    (other : String) :
    NameMap.get (m ++ [c]) other = if other = c.inode.name then some c else m.get other := by
  unfold get at h ⊢
  rw [List.find?_append]
  split
  · next heq =>
      subst heq
      rw [h]
      simp
  · next hne =>
      have : List.find? (fun c : InodeCap => decide (c.inode.name = other)) [c] = none := by
        simp [Ne.symm hne]
      rw [this, Option.or_none]

theorem get_eq_none {m : NameMap} {name : String} :
    m.get name = none ↔ name ∉ m.map fun c => c.inode.name := by
  unfold get
  rw [List.find?_eq_none]
  simp

theorem nodup_without {m : NameMap} (h : (m.map fun c => c.inode.name).Nodup) (name : String) :
    ((m.without name).map fun c => c.inode.name).Nodup :=
  h.sublist (List.filter_sublist.map _)

theorem nodup_append_singleton {m : NameMap} (h : (m.map fun c => c.inode.name).Nodup)
    {c : InodeCap} (hc : m.get c.inode.name = none) :
    ((m ++ [c]).map fun c => c.inode.name).Nodup := by
  rw [List.map_append, List.map_singleton, ← List.concat_eq_append]
  exact List.Nodup.concat (get_eq_none.1 hc) h

theorem nodup_replace {m : NameMap} (h : (m.map fun c => c.inode.name).Nodup) (c : InodeCap) :
    ((m.without c.inode.name ++ [c]).map fun c => c.inode.name).Nodup :=
  nodup_append_singleton (nodup_without h _) (by rw [get_without, if_pos rfl])

theorem get_replace (m : NameMap) (c : InodeCap) (other : String) :
    NameMap.get (m.without c.inode.name ++ [c]) other =
      if other = c.inode.name then some c else m.get other := by
  rw [get_append_singleton (by rw [get_without, if_pos rfl]), get_without]
  split <;> rfl

/-- Filling a champ with children of distinct names. -/
theorem foldlM_put {l m : NameMap} (h : ((m ++ l).map fun c => c.inode.name).Nodup) :
    l.foldlM (fun champ c => NameMap.put champ none c) m = (.ok (m ++ l) : Result NameMap) := by
  induction l generalizing m with
  | nil => rw [List.append_nil]; rfl
  | cons c l ih =>
      have hassoc : m ++ c :: l = m ++ [c] ++ l := by simp
      have hc : m.get c.inode.name = none := by
        rw [List.map_append, List.map_cons] at h
        exact get_eq_none.2 fun hmem => (List.nodup_append.1 h).2.2 _ hmem _ List.mem_cons_self rfl
      have hput : NameMap.put m none c = .ok (m ++ [c]) := by rw [put, hc]
      rw [List.foldlM_cons, hput, ok_bind, hassoc]
      exact ih (hassoc ▸ h)

end NameMap

namespace DirectoryInode

/-- A child is added, or replaces the one of its name. -/
theorem addChild_ok {d : DirectoryInode} (h : d.Distinct) (c : InodeCap) :
    ∃ d', d.addChild c = .ok d' ∧ d'.Distinct ∧
      ∀ name, d'.getChild name = if name = c.inode.name then some c else d.getChild name := by
  cases d with
  | inline list =>
      unfold addChild
      dsimp only
      split
      · refine ⟨_, rfl, NameMap.nodup_replace h c, fun name => ?_⟩
        exact NameMap.get_replace list c name
      · next hfull =>
          have hnew : NameMap.get list c.inode.name = none := by
            refine List.find?_eq_none.2 fun x hx hname => hfull (Or.inl ?_)
            exact List.any_eq_true.2 ⟨x, hx, hname⟩
          have hnodup : ((list ++ [c]).map fun c => c.inode.name).Nodup :=
            NameMap.nodup_append_singleton h hnew
          rw [show (list ++ [c]).foldlM _ [] = (.ok (list ++ [c]) : Result NameMap) from
            NameMap.foldlM_put (m := []) hnodup]
          refine ⟨_, rfl, hnodup, fun name => ?_⟩
          exact NameMap.get_append_singleton hnew name
  | champ children =>
      unfold addChild NameMap.put
      dsimp only
      split
      · rw [if_pos (by assumption)]
        refine ⟨_, rfl, NameMap.nodup_replace h c, fun name => ?_⟩
        exact NameMap.get_replace children c name
      · next hnew =>
          refine ⟨_, rfl, NameMap.nodup_append_singleton h hnew, fun name => ?_⟩
          exact NameMap.get_append_singleton hnew name

/-- Removing a child drops the children of that name. -/
theorem children_removeChild (d : DirectoryInode) (name : String) :
    (d.removeChild name).children = d.children.without name := by
  cases d with
  | inline list => rfl
  | champ children =>
      unfold removeChild
      dsimp only
      split
      · next hnone =>
          refine (List.filter_eq_self.2 fun c hc => ?_).symm
          simpa using (List.find?_eq_none.1 hnone) c hc
      · rfl

theorem distinct_removeChild {d : DirectoryInode} (h : d.Distinct) (name : String) :
    (d.removeChild name).Distinct := by
  unfold Distinct
  rw [children_removeChild]
  exact NameMap.nodup_without h name

theorem getChild_removeChild (d : DirectoryInode) (name other : String) :
    (d.removeChild name).getChild other = if other = name then none else d.getChild other := by
  rw [getChild_eq, getChild_eq, children_removeChild, NameMap.get_without]

/-- A directory with one child is empty without it. -/
theorem getChild_removeChild_of_single {d : DirectoryInode} {name : String} {c : InodeCap}
    (h : d.getChild name = some c) (hcount : d.childCount ≤ 1) (other : String) :
    (d.removeChild name).getChild other = none := by
  rw [getChild_removeChild]
  split
  · rfl
  · next hne =>
      rw [getChild_eq] at h ⊢
      rw [childCount_eq] at hcount
      have hmem := List.mem_of_find?_eq_some h
      have hname : c.inode.name = name := by simpa using List.find?_some h
      obtain ⟨x, hx⟩ := List.length_eq_one_iff.1 (le_antisymm hcount (List.length_pos_of_mem hmem))
      rw [hx] at hmem ⊢
      obtain rfl := List.mem_singleton.1 hmem
      simp [NameMap.get, hname, Ne.symm hne]

/-- An empty directory has no child. -/
theorem getChild_of_childCount_zero {d : DirectoryInode} (h : d.childCount = 0) (name : String) :
    d.getChild name = none := by
  rw [childCount_eq] at h
  rw [getChild_eq, List.eq_nil_of_length_eq_zero h]
  rfl

end DirectoryInode

/-! ## The filesystem -/

/-- `InodeFileSystem`. -/
structure InodeFileSystem where
  inodeCount : ℕ
  champ : Inode → Option DirectoryInode

/-- `canonical_elements`. -/
def canonicalElements (path : String) : List String :=
  let trimmed := ((path.toList.dropWhile (· = '/')).reverse.dropWhile (· = '/')).reverse
  ((trimmed.splitOn '/').filter (· ≠ [])).map String.ofList

/-- A directory on the way to a path, with the child the path goes on with. -/
structure ChainLink where
  key : Inode
  dir : DirectoryInode
  child : InodeCap
  hadOther : Bool

namespace InodeFileSystem

/-- `InodeFileSystem::create_empty`. -/
def createEmpty : InodeFileSystem := ⟨0, fun _ => none⟩

/-- `InodeFileSystem::get_value`. -/
def getValue (fs : InodeFileSystem) (inode : Inode) : Option DirectoryInode := fs.champ inode

/-- `InodeFileSystem::put_value`. -/
def putValue (fs : InodeFileSystem) (inode : Inode) (dir : DirectoryInode) : InodeFileSystem :=
  ⟨if (fs.champ inode).isNone then fs.inodeCount + 1 else fs.inodeCount,
    Function.update fs.champ inode (some dir)⟩

/-- A directory that is missing is made, as `add_cap` does for the root and on its way. -/
def ensureDir (fs : InodeFileSystem) (inode : Inode) : InodeFileSystem :=
  if (fs.getValue inode).isNone then fs.putValue inode .default else fs

/-- The loop of `add_cap`, from the directory `parentKey` on. -/
def addCapLoop (cap : AbsoluteCapability) (link : Option PublishedLink) :
    List String → InodeFileSystem → Inode → Result InodeFileSystem
  | [], fs, _ => pure fs
  | name :: rest, fs, parentKey =>
      match fs.getValue parentKey with
      | none => protocolErr "directory inode vanished"
      | some parentDir =>
          let existing := parentDir.getChild name
          let childKey := (existing.map InodeCap.inode).getD ⟨fs.inodeCount, name⟩
          if rest.isEmpty then do
            let dir ← parentDir.addChild ⟨childKey, some cap, link⟩
            pure (fs.putValue parentKey dir)
          else do
            let fs := fs.ensureDir childKey
            let fs ←
              if existing.isNone then do
                let dir ← parentDir.addChild ⟨childKey, none, none⟩
                pure (fs.putValue parentKey dir)
              else pure fs
            addCapLoop cap link rest fs childKey

/-- `InodeFileSystem::add_cap`. -/
def addCap (fs : InodeFileSystem) (path : String) (cap : AbsoluteCapability)
    (link : Option PublishedLink) : Result InodeFileSystem :=
  let elements := canonicalElements path
  if elements.length < 2 then protocolErr "cannot publish the root directory"
  else addCapLoop cap link elements (fs.ensureDir .root) .root

/-- The walk of `remove_cap`: the directories down to the last element, or nothing if one is not
there. -/
def walkChain (fs : InodeFileSystem) :
    List String → Inode → DirectoryInode → Option (List ChainLink)
  | [], _, _ => some []
  | name :: rest, key, dir =>
      match dir.getChild name with
      | none => none
      | some child =>
          let link : ChainLink := ⟨key, dir, child, 1 < dir.childCount⟩
          if rest.isEmpty then some [link]
          else
            match fs.getValue child.inode with
            | none => none
            | some childDir => (walkChain fs rest child.inode childDir).map (link :: ·)

/-- The loop at the end of `remove_cap`: ancestors left without a child are dropped, up to one that
is published itself. -/
def pruneLoop (fs : InodeFileSystem) (prune : Bool) : List ChainLink → InodeFileSystem
  | [] => fs
  | link :: links =>
      if !prune || link.child.cap.isSome then fs
      else
        pruneLoop (fs.putValue link.key (link.dir.removeChild link.child.inode.name))
          (!link.hadOther) links

/-- `leaf_has_descendants` in `remove_cap`. -/
def hasDescendants (fs : InodeFileSystem) (inode : Inode) : Bool :=
  match fs.getValue inode with
  | some d => 0 < d.childCount
  | none => false

/-- `InodeFileSystem::remove_cap`. -/
def removeCap (fs : InodeFileSystem) (path : String) : Result InodeFileSystem :=
  let elements := canonicalElements path
  if elements.isEmpty then pure fs
  else
    match fs.getValue .root with
    | none => pure fs
    | some rootDir =>
        match fs.walkChain elements .root rootDir with
        | none => pure fs
        | some chain =>
            match chain.reverse with
            | [] => .error .panic
            | leaf :: above =>
                if fs.hasDescendants leaf.child.inode then do
                  let dir ← leaf.dir.addChild ⟨leaf.child.inode, none, none⟩
                  pure (fs.putValue leaf.key dir)
                else
                  let fs := fs.putValue leaf.key (leaf.dir.removeChild leaf.child.inode.name)
                  pure (fs.pruneLoop (!leaf.hadOther) above)

/-- The loop of `get_published`. -/
def getPublishedLoop (fs : InodeFileSystem) : List String → Inode → Option InodeCap
  | [], _ => none
  | name :: rest, current =>
      match fs.getValue current with
      | none => none
      | some dir =>
          match dir.getChild name with
          | none => none
          | some child => if child.cap.isSome then some child else getPublishedLoop fs rest child.inode

/-- `InodeFileSystem::get_published`. -/
def getPublished (fs : InodeFileSystem) (path : String) : Option InodeCap :=
  fs.getPublishedLoop (canonicalElements path) .root

/-- The loop of `published_at`. -/
def publishedAtLoop (fs : InodeFileSystem) :
    List String → Inode → Option InodeCap → Option InodeCap
  | [], _, found => found
  | name :: rest, current, _ =>
      match fs.getValue current with
      | none => none
      | some dir =>
          match dir.getChild name with
          | none => none
          | some child => publishedAtLoop fs rest child.inode (some child)

/-- `InodeFileSystem::published_at`. -/
def publishedAt (fs : InodeFileSystem) (path : String) : Option InodeCap :=
  fs.publishedAtLoop (canonicalElements path) .root none

end InodeFileSystem

end Peergos
