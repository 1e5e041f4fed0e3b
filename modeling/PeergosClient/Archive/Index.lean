import PeergosClient.Archive.Names
import PeergosClient.Lib.ParentTree
import PeergosClient.Lib.SortedMap

/-!
# The listing of an archive

The central directory lists entries in any order, often without the directories they are in.
`ZipIndex::build` files them by path, adds the directories that the paths imply, and files each entry
under its parent.  The result is a tree: the walk from the root comes by every entry once.  A look up
normalises the path it is given, which finds every entry again unless its path has a drive.

A hash map is the map it represents and the order in which it lists its values.
-/

namespace Peergos

/-- `ZipEntry`. -/
structure ZipEntry where
  path : EntryName
  isDirectory : Bool
  size : ℕ
  compressedSize : ℕ
  compressionMethod : ℕ
  crc32 : ℕ
  localHeaderOffset : ℤ
  modifiedMillis : ℤ
  flags : ℕ
  deriving DecidableEq

/-- `STORED`. -/
def methodStored : ℕ := 0

/-- `ZipEntry::implicit_directory`. -/
def ZipEntry.implicitDirectory (path : EntryName) (modifiedMillis : ℤ) : ZipEntry :=
  ⟨path, true, 0, 0, methodStored, 0, -1, modifiedMillis, 0⟩

/-- An order in which a hash map lists its values. -/
structure HashOrder where
  arrange : List ZipEntry → List ZipEntry
  perm : ∀ l, (arrange l).Perm l

/-- The order in which the values are. -/
def HashOrder.asIs : HashOrder := ⟨id, fun l => .refl l⟩

/-- The entries by path. -/
abbrev PathEntries := SortedMap EntryName ZipEntry

/-- `ZipIndex`. -/
structure ZipIndex where
  entries : List ZipEntry
  byPath : PathEntries
  children : EntryName → List ZipEntry
  rejected : ℕ

namespace ZipIndex

/-- One round of the first loop of `ZipIndex::build`: a later duplicate wins, unless it would hide a
directory. -/
def addParsed (acc : PathEntries × List EntryName) (entry : ZipEntry) :
    PathEntries × List EntryName :=
  match acc.1.get entry.path with
  | some existing =>
      if existing.isDirectory then acc else (acc.1.insert entry.path entry, acc.2)
  | none => (acc.1.insert entry.path entry, acc.2 ++ [entry.path])

/-- The inner loop of `ZipIndex::build` from `parent` up.  A parent is shorter than its child, so the
length of the path is fuel enough. -/
def addParents (millis : ℤ) : ℕ → PathEntries → EntryName → PathEntries
  | 0, byPath, _ => byPath
  | fuel + 1, byPath, parent =>
      if parent = [] then byPath
      else if (byPath.get parent).any (·.isDirectory) then byPath
      else addParents millis fuel (byPath.insert parent (.implicitDirectory parent millis))
        (entryParentPath parent)

/-- One round of the second loop of `ZipIndex::build`. -/
def addImplied (byPath : PathEntries) (path : EntryName) : Result PathEntries :=
  match byPath.get path with
  | none => .error .panic
  | some entry => .ok (addParents entry.modifiedMillis path.length byPath (entryParentPath entry.path))

section

variable (order : HashOrder) (toLowercase : EntryName → EntryName)

/-- How siblings are ordered: directories first, then by name. -/
def compareSiblings (a b : ZipEntry) : Ordering :=
  (compare b.isDirectory a.isDirectory).then
    (compare (toLowercase (baseName a.path)) (toLowercase (baseName b.path)))

/-- The children of a path: the values with that parent, sorted. -/
def childrenOf (values : List ZipEntry) (path : EntryName) : List ZipEntry :=
  (values.filter fun e => entryParentPath e.path = path).mergeSort
    fun a b => compareSiblings toLowercase a b != .gt

/-- `ZipIndex::build`. -/
def build (parsed : List ZipEntry) (rejected : ℕ) : Result ZipIndex := do
  let (byPath, paths) := parsed.foldl addParsed (∅, [])
  let byPath ← paths.foldlM addImplied byPath
  let values := order.arrange byPath.values
  pure ⟨values.mergeSort fun a b => compare a.path b.path != .gt, byPath,
    childrenOf toLowercase values, rejected⟩

end

/-- `ZipIndex::get`. -/
def get (idx : ZipIndex) (path : EntryName) : Option ZipEntry :=
  (normalisePath path).bind idx.byPath.get

/-- `ZipIndex::is_directory`. -/
def isDirectory (idx : ZipIndex) (path : EntryName) : Bool := (idx.get path).any (·.isDirectory)

/-- `ZipIndex::list_directory`. -/
def listDirectory (idx : ZipIndex) (path : EntryName) : Result (List ZipEntry) :=
  match normalisePath path with
  | none => protocolErr s!"Invalid path: {String.ofList path}"
  | some dir =>
      if dir ≠ [] ∧ !idx.isDirectory dir then
        protocolErr s!"Not a directory in this archive: {String.ofList path}"
      else .ok (idx.children dir)

/-- The walk from a path on, into every directory. -/
def walk (idx : ZipIndex) : ℕ → EntryName → List ZipEntry :=
  ParentTree.walk idx.children (·.path) (·.isDirectory)

/-! ## The first loop -/

/-- A path that an entry can have. -/
def IsEntryPath (path : EntryName) : Prop := path ≠ [] ∧ ∃ raw, normalisePath raw = some path

/-- Every entry is filed under its path. -/
def KeyedByPath (m : PathEntries) : Prop := ∀ p e, m.get p = some e → e.path = p

/-- The path is one of a directory. -/
def HasDirectory (m : PathEntries) (p : EntryName) : Prop :=
  ∃ e, m.get p = some e ∧ e.isDirectory = true

variable {m m' : PathEntries} {p : EntryName}

theorem KeyedByPath.insert (h : KeyedByPath m) {e : ZipEntry} (he : e.path = p) :
    KeyedByPath (m.insert p e) := by
  intro p' e' hp'
  rw [SortedMap.get_insert] at hp'
  split at hp'
  · rename_i heq
    cases hp'
    rw [he, heq]
  · exact h p' e' hp'

/-- The first loop files what was parsed, and lists the paths. -/
structure Files (parsed : List ZipEntry) (acc : PathEntries × List EntryName) : Prop where
  keyed : KeyedByPath acc.1
  listed : ∀ p, p ∈ acc.2 ↔ acc.1.get p ≠ none
  paths : ∀ p, acc.1.get p ≠ none ↔ ∃ e ∈ parsed, e.path = p
  origin : ∀ p e, acc.1.get p = some e → e ∈ parsed

theorem files_foldl (parsed : List ZipEntry) : Files parsed (parsed.foldl addParsed (∅, [])) := by
  induction parsed using List.reverseRecOn with
  | nil =>
      refine ⟨?_, ?_, ?_, ?_⟩
      · intro p e hp
        cases hp
      · simp
      · simp
      · intro p e hp
        cases hp
  | append_singleton parsed entry ih =>
      rw [List.foldl_append, List.foldl_cons, List.foldl_nil]
      generalize parsed.foldl addParsed (∅, []) = acc at ih ⊢
      have hpaths : ∀ p, (∃ e ∈ parsed ++ [entry], e.path = p) ↔
          acc.1.get p ≠ none ∨ p = entry.path := by
        intro p
        rw [ih.paths]
        simp [or_and_right, exists_or, eq_comm]
      have hinsert : ∀ p e, (acc.1.insert entry.path entry).get p = some e →
          e ∈ parsed ++ [entry] := by
        intro p e hp
        rw [SortedMap.get_insert] at hp
        split at hp
        · cases hp
          simp
        · exact List.mem_append_left _ (ih.origin p e hp)
      unfold addParsed
      cases hget : acc.1.get entry.path with
      | none =>
          refine ⟨ih.keyed.insert rfl, ?_, ?_, hinsert⟩
          · intro p
            rw [List.mem_append, List.mem_singleton, ih.listed, SortedMap.get_insert]
            by_cases hp : p = entry.path <;> simp [hp]
          · intro p
            rw [hpaths, SortedMap.get_insert]
            by_cases hp : p = entry.path <;> simp [hp]
      | some existing =>
          have hmem : ∀ p, acc.1.get p ≠ none ↔ acc.1.get p ≠ none ∨ p = entry.path := by
            intro p
            refine ⟨Or.inl, fun h => h.elim id ?_⟩
            rintro rfl
            simp [hget]
          dsimp only
          split
          · exact ⟨ih.keyed, ih.listed, fun p => (hmem p).trans (hpaths p).symm,
              fun p e hp => List.mem_append_left _ (ih.origin p e hp)⟩
          · refine ⟨ih.keyed.insert rfl, ?_, ?_, hinsert⟩
            · intro p
              rw [ih.listed, SortedMap.get_insert, hmem]
              by_cases hp : p = entry.path <;> simp [hp]
            · intro p
              rw [hpaths, SortedMap.get_insert]
              by_cases hp : p = entry.path <;> simp [hp]

/-! ## The second loop -/

/-- The parent of the path, if it is not the root, is a directory. -/
def Anchored (m : PathEntries) (p : EntryName) : Prop :=
  entryParentPath p = [] ∨ HasDirectory m (entryParentPath p)

/-- What adding the parents of a path does: directories stay as they are, and whatever changes is
anchored. -/
structure Extends (m m' : PathEntries) : Prop where
  keyed : KeyedByPath m'
  directories : ∀ p, HasDirectory m p → m'.get p = m.get p
  present : ∀ p, m.get p ≠ none → m'.get p ≠ none
  anchored : ∀ p, m'.get p ≠ m.get p → Anchored m' p
  paths : ∀ p, m'.get p ≠ none → m.get p ≠ none ∨ p ≠ []
  origin : ∀ p e, m'.get p = some e → m.get p = some e ∨ e.isDirectory = true

theorem Extends.hasDirectory (h : Extends m m') (hp : HasDirectory m p) : HasDirectory m' p := by
  obtain ⟨e, he, hdir⟩ := hp
  exact ⟨e, (h.directories p ⟨e, he, hdir⟩).trans he, hdir⟩

theorem Extends.anchored_of (h : Extends m m') (hp : Anchored m p) : Anchored m' p :=
  hp.imp id h.hasDirectory

/-- Every path above is a directory in the end, and the new paths meet any condition that parents
inherit. -/
theorem addParents_spec (millis : ℤ) (cond : EntryName → Prop)
    (hcond : ∀ p, cond p → cond (entryParentPath p)) {fuel : ℕ} {parent : EntryName}
    (hfuel : parent.length ≤ fuel) (hkeyed : KeyedByPath m) (hparent : cond parent) :
    Extends m (addParents millis fuel m parent) ∧
      (parent = [] ∨ HasDirectory (addParents millis fuel m parent) parent) ∧
      ∀ p, (addParents millis fuel m parent).get p ≠ none → m.get p ≠ none ∨ cond p := by
  have hsame : Extends m m := ⟨hkeyed, fun _ _ => rfl, fun _ h => h, fun _ h => absurd rfl h,
    fun _ h => Or.inl h, fun _ _ h => Or.inl h⟩
  induction fuel generalizing m parent with
  | zero =>
      exact ⟨hsame, Or.inl (List.length_eq_zero_iff.1 (Nat.le_zero.1 hfuel)), fun _ h => Or.inl h⟩
  | succ fuel ih =>
      rw [addParents]
      by_cases hroot : parent = []
      · rw [if_pos hroot]
        exact ⟨hsame, Or.inl hroot, fun _ h => Or.inl h⟩
      · rw [if_neg hroot]
        by_cases hdir : ((m.get parent).any (·.isDirectory)) = true
        · rw [if_pos hdir]
          obtain ⟨e, he, hedir⟩ := (Option.any_eq_true _ _).1 hdir
          exact ⟨hsame, Or.inr ⟨e, he, hedir⟩, fun _ h => Or.inl h⟩
        · rw [if_neg hdir]
          have hlen := length_entryParentPath_lt hroot
          have hkeyed₁ : KeyedByPath (m.insert parent (.implicitDirectory parent millis)) :=
            hkeyed.insert rfl
          have hget : ∀ p, p ≠ parent →
              (m.insert parent (.implicitDirectory parent millis)).get p = m.get p :=
            fun p hp => SortedMap.get_insert_of_ne _ hp _
          have hself : (m.insert parent (.implicitDirectory parent millis)).get parent =
              some (.implicitDirectory parent millis) := SortedMap.get_insert_self _ _ _
          obtain ⟨hext, habove, hpaths⟩ := ih (by omega) hkeyed₁ (hcond parent hparent)
            ⟨hkeyed₁, fun _ _ => rfl, fun _ h => h, fun _ h => absurd rfl h, fun _ h => Or.inl h,
              fun _ _ h => Or.inl h⟩
          have hnotdir : ∀ p, HasDirectory m p → p ≠ parent := by
            rintro p ⟨e, he, hedir⟩ rfl
            exact hdir ((Option.any_eq_true _ _).2 ⟨e, he, hedir⟩)
          refine ⟨⟨hext.keyed, ?_, ?_, ?_, ?_, ?_⟩, Or.inr ?_, ?_⟩
          · intro p hp
            have hne := hnotdir p hp
            obtain ⟨e, he, hedir⟩ := hp
            rw [← hget p hne]
            exact hext.directories p ⟨e, (hget p hne).trans he, hedir⟩
          · intro p hp
            refine hext.present p ?_
            by_cases hne : p = parent
            · rw [hne, hself]
              simp
            · rw [hget p hne]
              exact hp
          · intro p hp
            by_cases hne : p = parent
            · rw [hne]
              exact habove
            · rw [← hget p hne] at hp
              exact hext.anchored p hp
          · intro p hp
            by_cases hne : p = parent
            · exact Or.inr (hne ▸ hroot)
            · rcases hext.paths p hp with h | h
              · exact Or.inl (hget p hne ▸ h)
              · exact Or.inr h
          · intro p e hp
            rcases hext.origin p e hp with h | h
            · by_cases hne : p = parent
              · rw [hne, hself] at h
                cases h
                exact Or.inr rfl
              · exact Or.inl (hget p hne ▸ h)
            · exact Or.inr h
          · exact hext.hasDirectory ⟨_, hself, rfl⟩
          · intro p hp
            by_cases hne : p = parent
            · exact Or.inr (hne ▸ hparent)
            · rcases hpaths p hp with h | h
              · exact Or.inl (hget p hne ▸ h)
              · exact Or.inr h

/-- The second loop anchors every path and adds only parents. -/
theorem foldlM_addImplied (cond : EntryName → Prop) (hcond : ∀ p, cond p → cond (entryParentPath p))
    {rest : List EntryName} (hkeyed : KeyedByPath m) (hrest : ∀ p ∈ rest, m.get p ≠ none)
    (hanchored : ∀ p, m.get p ≠ none → Anchored m p ∨ p ∈ rest)
    (hpaths : ∀ p, m.get p ≠ none → cond p ∧ p ≠ []) :
    ∃ m', rest.foldlM addImplied m = .ok m' ∧ KeyedByPath m' ∧
      (∀ p, m.get p ≠ none → m'.get p ≠ none) ∧ (∀ p, m'.get p ≠ none → Anchored m' p) ∧
      (∀ p, m'.get p ≠ none → cond p ∧ p ≠ []) ∧
      ∀ p e, m'.get p = some e → m.get p = some e ∨ e.isDirectory = true := by
  induction rest generalizing m with
  | nil =>
      refine ⟨m, rfl, hkeyed, fun _ h => h, fun p hp => ?_, hpaths, fun _ _ h => Or.inl h⟩
      exact (hanchored p hp).resolve_right List.not_mem_nil
  | cons path rest ih =>
      obtain ⟨entry, hentry⟩ := Option.ne_none_iff_exists'.1 (hrest path List.mem_cons_self)
      have hpath : entry.path = path := hkeyed path entry hentry
      obtain ⟨hcondpath, hne⟩ := hpaths path (hrest path List.mem_cons_self)
      have hlen := length_entryParentPath_lt hne
      obtain ⟨hext, habove, hnew⟩ := addParents_spec entry.modifiedMillis cond hcond
        (show (entryParentPath path).length ≤ path.length by omega) hkeyed (hcond path hcondpath)
      have hstep : addImplied m path =
          .ok (addParents entry.modifiedMillis path.length m (entryParentPath path)) := by
        rw [addImplied, hentry]
        dsimp only
        rw [hpath]
      rw [List.foldlM_cons, hstep]
      dsimp only [bind, Except.bind]
      generalize addParents entry.modifiedMillis path.length m (entryParentPath path) = m₁ at *
      have hanchored₁ : ∀ p, m₁.get p ≠ none → Anchored m₁ p ∨ p ∈ rest := by
        intro p hp
        by_cases hchanged : m₁.get p = m.get p
        · rw [hchanged] at hp
          rcases hanchored p hp with h | h
          · exact Or.inl (hext.anchored_of h)
          · rcases List.mem_cons.1 h with rfl | h
            · exact Or.inl habove
            · exact Or.inr h
        · exact Or.inl (hext.anchored p hchanged)
      have hpaths₁ : ∀ p, m₁.get p ≠ none → cond p ∧ p ≠ [] := by
        intro p hp
        rcases hnew p hp with h | h
        · exact hpaths p h
        · refine ⟨h, ?_⟩
          rcases hext.paths p hp with hold | hne'
          · exact (hpaths p hold).2
          · exact hne'
      obtain ⟨m', hm', hkeyed', hpresent, hanchored', hpaths', horigin⟩ := ih hext.keyed
        (fun p hp => hext.present p (hrest p (List.mem_cons_of_mem _ hp))) hanchored₁ hpaths₁
      refine ⟨m', hm', hkeyed', fun p hp => hpresent p (hext.present p hp), hanchored', hpaths', ?_⟩
      intro p e hp
      rcases horigin p e hp with h | h
      · exact hext.origin p e h
      · exact Or.inr h

/-! ## The built index -/

variable {order : HashOrder} {toLowercase : EntryName → EntryName} {parsed : List ZipEntry}
  {rejected : ℕ} {idx : ZipIndex}

/-- What `ZipIndex::build` makes of entries whose paths are in normal form. -/
structure IsBuilt (parsed : List ZipEntry) (idx : ZipIndex) : Prop where
  keyed : KeyedByPath idx.byPath
  anchored : ∀ p, idx.byPath.get p ≠ none → Anchored idx.byPath p
  parsed_present : ∀ e ∈ parsed, idx.byPath.get e.path ≠ none
  normal : ∀ p, idx.byPath.get p ≠ none → IsNormal p ∧ p ≠ []
  drives : (∀ e ∈ parsed, hasDrive e.path = false) →
    ∀ p, idx.byPath.get p ≠ none → hasDrive p = false
  entries : idx.entries.Perm idx.byPath.values
  mem_children : ∀ k e, e ∈ idx.children k ↔ e ∈ idx.byPath.values ∧ entryParentPath e.path = k
  nodup_children : ∀ k, idx.byPath.values.Nodup → (idx.children k).Nodup
  origin : ∀ p e, idx.byPath.get p = some e → e ∈ parsed ∨ e.isDirectory = true

theorem IsEntryPath.isNormal (h : IsEntryPath p) : IsNormal p := by
  obtain ⟨raw, hraw⟩ := h.2
  exact isNormal_of_normalisePath hraw

theorem mem_childrenOf {values : List ZipEntry} {k : EntryName} {e : ZipEntry} :
    e ∈ childrenOf toLowercase values k ↔ e ∈ values ∧ entryParentPath e.path = k := by
  rw [childrenOf, List.mem_mergeSort, List.mem_filter, decide_eq_true_iff]

variable (order toLowercase rejected) in
/-- Building an index never fails. -/
theorem exists_build (h : ∀ e ∈ parsed, IsEntryPath e.path) :
    ∃ idx, build order toLowercase parsed rejected = .ok idx ∧ IsBuilt parsed idx := by
  have hfiles := files_foldl parsed
  rcases hacc : parsed.foldl addParsed (∅, []) with ⟨m, paths⟩
  rw [hacc] at hfiles
  have hnormal : ∀ p, m.get p ≠ none → IsNormal p ∧ p ≠ [] := by
    intro p hp
    obtain ⟨e, he, rfl⟩ := (hfiles.paths p).1 hp
    exact ⟨(h e he).isNormal, (h e he).1⟩
  -- what the paths above inherit: normal form, and to have no drive if no parsed path has one
  obtain ⟨m', hm', hkeyed, hpresent, hanchored, hpaths, horigin⟩ := foldlM_addImplied
    (fun p => IsNormal p ∧ ((∀ e ∈ parsed, hasDrive e.path = false) → hasDrive p = false))
    (by
      rintro p ⟨hp, hdrive⟩
      refine ⟨hp.entryParentPath, fun hall => ?_⟩
      rw [← Bool.not_eq_true]
      intro hparent
      rw [hasDrive_of_entryParentPath hparent] at hdrive
      exact absurd (hdrive hall) (by decide))
    hfiles.keyed (show ∀ p ∈ paths, m.get p ≠ none from fun p hp => (hfiles.listed p).1 hp)
    (fun p hp => Or.inr ((hfiles.listed p).2 hp))
    (by
      intro p hp
      obtain ⟨e, he, rfl⟩ := (hfiles.paths p).1 hp
      exact ⟨⟨(hnormal _ hp).1, fun hall => hall e he⟩, (hnormal _ hp).2⟩)
  refine ⟨⟨(order.arrange m'.values).mergeSort fun a b => compare a.path b.path != .gt, m',
    childrenOf toLowercase (order.arrange m'.values), rejected⟩, ?_, ?_⟩
  · unfold build
    rw [hacc]
    dsimp only
    rw [hm']
    rfl
  · refine ⟨hkeyed, hanchored, ?_, fun p hp => ⟨(hpaths p hp).1.1, (hpaths p hp).2⟩,
      fun hall p hp => (hpaths p hp).1.2 hall, ?_, ?_, ?_,
      fun p e hp => (horigin p e hp).imp (hfiles.origin p e) id⟩
    · exact fun e he => hpresent _ ((hfiles.paths e.path).2 ⟨e, he, rfl⟩)
    · exact (List.mergeSort_perm _ _).trans (order.perm _)
    · intro k e
      show e ∈ childrenOf toLowercase (order.arrange m'.values) k ↔ _
      rw [mem_childrenOf, (order.perm m'.values).mem_iff]
    · intro k hnodup
      have hvalues := (order.perm m'.values).nodup_iff.2 hnodup
      exact (List.mergeSort_perm _ _).nodup_iff.2 (hvalues.filter _)

/-! ## The tree -/

/-- Every ancestor of an entry is a directory, and the walk from the root, if it goes deep enough,
comes by every entry once. -/
structure IsTreeIndex (idx : ZipIndex) : Prop where
  ancestors : ∀ e ∈ idx.entries, ∀ q, q ≠ [] → q <+: partsOf e.path → q ≠ partsOf e.path →
    ∃ d ∈ idx.entries, d.path = joinParts q ∧ d.isDirectory = true
  nodup : idx.entries.Nodup
  walk : ∀ n, (∀ e ∈ idx.entries, e.path.length ≤ n) → (idx.walk n []).Perm idx.entries

/-- Every listed entry is found under its path, and every listed directory can be listed. -/
structure FindsEntries (idx : ZipIndex) : Prop where
  get : ∀ e ∈ idx.entries, idx.get e.path = some e
  listDirectory : ∀ e ∈ idx.entries, e.isDirectory = true →
    idx.listDirectory e.path = .ok (idx.children e.path)

namespace IsBuilt

theorem mem_entries (h : IsBuilt parsed idx) {e : ZipEntry} :
    e ∈ idx.entries ↔ idx.byPath.get e.path = some e := by
  rw [h.entries.mem_iff, SortedMap.mem_values]
  constructor
  · rintro ⟨p, hp⟩
    rw [h.keyed p e hp]
    exact hp
  · exact fun he => ⟨e.path, he⟩

theorem present (h : IsBuilt parsed idx) {e : ZipEntry} (he : e ∈ idx.entries) :
    idx.byPath.get e.path ≠ none := by
  rw [h.mem_entries.1 he]
  simp

theorem nodup_values (h : IsBuilt parsed idx) : idx.byPath.values.Nodup := by
  have hkeys : idx.byPath.values.map (·.path) = idx.byPath.keys := by
    rw [SortedMap.values, SortedMap.keys, List.map_map]
    refine List.map_congr_left fun kv hkv => ?_
    exact h.keyed kv.1 kv.2 (SortedMap.mem_entries.1 hkv)
  refine List.Nodup.of_map (·.path) ?_
  rw [hkeys]
  exact idx.byPath.sorted.nodup_keys

theorem isTree (h : IsBuilt parsed idx) :
    ParentTree.IsTree idx.entries idx.children (·.path) (·.isDirectory) partsOf := by
  refine ⟨fun k => h.nodup_children k h.nodup_values, ?_, ?_, ?_⟩
  · intro k v
    rw [h.mem_children, ← h.entries.mem_iff]
    refine and_congr_right fun hv => ?_
    obtain ⟨hnormal, hne⟩ := h.normal v.path (h.present hv)
    have hparts : partsOf v.path ≠ [] := by
      intro hnil
      exact hne (partsOf_injective (by rw [hnil]; rfl))
    constructor
    · rintro rfl
      exact ⟨hparts, (partsOf_entryParentPath hnormal).symm⟩
    · rintro ⟨-, hk⟩
      exact partsOf_injective ((partsOf_entryParentPath hnormal).trans hk)
  · intro v hv w hw hplace
    have hpath := partsOf_injective hplace
    have hv' := h.mem_entries.1 hv
    rw [hpath, h.mem_entries.1 hw] at hv'
    exact (Option.some.inj hv').symm
  · intro v hv
    have hnormal := (h.normal v.path (h.present hv)).1
    rw [← partsOf_entryParentPath hnormal]
    rcases h.anchored v.path (h.present hv) with hroot | ⟨d, hd, hdir⟩
    · rw [hroot]
      exact Or.inl rfl
    · have hpath := h.keyed _ d hd
      refine Or.inr ⟨d, h.mem_entries.2 (hpath ▸ hd), ?_, hdir⟩
      rw [hpath]

theorem isTreeIndex (h : IsBuilt parsed idx) : IsTreeIndex idx := by
  have hnodup : idx.entries.Nodup := h.entries.nodup_iff.2 h.nodup_values
  refine ⟨?_, hnodup, ?_⟩
  · intro e he q hne hinit hproper
    obtain ⟨d, hd, hplace, hdir⟩ := h.isTree.ancestor he hne hinit hproper
    refine ⟨d, hd, ?_, hdir⟩
    rw [← hplace, joinParts_partsOf]
  · intro n hn
    refine h.isTree.walk_perm hnodup rfl fun e he => ?_
    obtain ⟨hnormal, hne⟩ := h.normal e.path (h.present he)
    refine ⟨fun hnil => hne (partsOf_injective (by rw [hnil]; rfl)), ?_⟩
    have hlen := length_parts_le hnormal
    rw [joinParts_partsOf] at hlen
    exact hlen.trans (hn e he)

/-- A look up finds the entries again just if no path has a drive. -/
theorem findsEntries_iff (h : IsBuilt parsed idx) :
    FindsEntries idx ↔ ∀ e ∈ parsed, hasDrive e.path = false := by
  constructor
  · intro hfinds e he
    obtain ⟨e', he'⟩ := Option.ne_none_iff_exists'.1 (h.parsed_present e he)
    have hpath := h.keyed _ _ he'
    have hget := hfinds.get e' (h.mem_entries.2 (hpath ▸ he'))
    obtain ⟨p, hp, hbyPath⟩ := Option.bind_eq_some_iff.1 hget
    rw [← h.keyed p e' hbyPath] at hp
    rw [← hpath, ← Bool.not_eq_true]
    intro hdrive
    have hnormal := (h.normal e'.path (hpath ▸ h.parsed_present e he)).1
    exact normalisePath_ne_of_hasDrive hnormal.not_mem_backslash hdrive hp rfl
  · intro hall
    have hget : ∀ e ∈ idx.entries, normalisePath e.path = some e.path ∧ idx.get e.path = some e := by
      intro e he
      have hself := normalisePath_of_isNormal (h.normal e.path (h.present he)).1
        (h.drives hall e.path (h.present he))
      refine ⟨hself, ?_⟩
      rw [get, hself]
      exact h.mem_entries.1 he
    refine ⟨fun e he => (hget e he).2, fun e he hdir => ?_⟩
    unfold listDirectory isDirectory
    rw [(hget e he).1]
    dsimp only
    rw [(hget e he).2, if_neg (by simp [hdir])]

end IsBuilt

/-- **The index is a tree.**  Whatever entries are parsed, the index is built, every ancestor of an
entry is a directory, and the walk from the root comes by every entry once.  Entries are found again
under their paths, and a normal name stays as it is, just if no normal name has a drive. -/
theorem build_isTreeIndex_iff (order : HashOrder) (toLowercase : EntryName → EntryName)
    (parsed : List ZipEntry) (rejected : ℕ) (raw : EntryName)
    (h : ∀ e ∈ parsed, IsEntryPath e.path) :
    ∃ idx, build order toLowercase parsed rejected = .ok idx ∧ IsTreeIndex idx ∧
      ((FindsEntries idx ∧ ∀ name, normalisePath raw = some name →
          normalisePath name = some name) ↔
        (∀ e ∈ parsed, hasDrive e.path = false) ∧
          ∀ name, normalisePath raw = some name → hasDrive name = false) := by
  obtain ⟨idx, hidx, hbuilt⟩ := exists_build order toLowercase rejected h
  refine ⟨idx, hidx, hbuilt.isTreeIndex, and_congr hbuilt.findsEntries_iff ?_⟩
  exact forall₂_congr fun name hname => normalisePath_idempotent_iff hname

/-! ## A drive behind a slash -/

/-- A file with nothing in it. -/
def emptyFile (path : String) : ZipEntry := ⟨path.toList, false, 0, 0, 0, 0, 0, 0, 0⟩

theorem build_isTreeIndex_two_files :
    ∃ idx, build .asIs id [emptyFile "a/b", emptyFile "a"] 0 = .ok idx ∧ IsTreeIndex idx ∧
      FindsEntries idx := by
  obtain ⟨idx, hidx, htree, hiff⟩ := build_isTreeIndex_iff .asIs id
    [emptyFile "a/b", emptyFile "a"] 0 [] (by
      intro e he
      rcases List.mem_cons.1 he with rfl | he
      · exact ⟨by decide, "a/b".toList, by decide⟩
      · cases List.mem_singleton.1 he
        exact ⟨by decide, "a".toList, by decide⟩)
  exact ⟨idx, hidx, htree, (hiff.2 ⟨by decide, by decide⟩).1⟩

/-- `/C:/x` is listed as `C:/x`, and a look up of that asks for `x`. -/
theorem drive_behind_slash_not_found :
    normalisePath "/C:/x".toList = some "C:/x".toList ∧
      normalisePath "C:/x".toList = some "x".toList ∧
      ∃ idx, build .asIs id [emptyFile "C:/x"] 0 = .ok idx ∧ emptyFile "C:/x" ∈ idx.entries ∧
        idx.get "C:/x".toList = none := by
  have hparsed : ∀ e ∈ [emptyFile "C:/x"], IsEntryPath e.path := by
    intro e he
    cases List.mem_singleton.1 he
    exact ⟨by decide, "/C:/x".toList, by decide⟩
  obtain ⟨idx, hidx, hbuilt⟩ := exists_build .asIs id 0 hparsed
  have hbyPath : ((build .asIs id [emptyFile "C:/x"] 0).map fun idx =>
      (idx.byPath.get "C:/x".toList, idx.byPath.get "x".toList)) =
        .ok (some (emptyFile "C:/x"), none) := by decide +kernel
  rw [hidx] at hbyPath
  have hgets := Except.ok.inj hbyPath
  refine ⟨by decide, by decide, idx, hidx, hbuilt.mem_entries.2 (congrArg Prod.fst hgets), ?_⟩
  have hnormal : normalisePath "C:/x".toList = some "x".toList := by decide
  rw [get, hnormal]
  exact congrArg Prod.snd hgets

end ZipIndex

end Peergos
