import Mathlib.Data.List.Infix
import PeergosClient.Lib.InsertionMap

/-!
# Trees of files

A tree has files and directories at paths.  Whatever is at a path has a directory above it, up to
the root, which is always there and a directory; so nothing is below a file, or below a path with
nothing at it.  The names on all paths are legal.
-/

/-- What is at a path. -/
inductive FileTree.Node (F : Type*) where
  | file (f : F)
  | dir
  deriving DecidableEq, Repr

/-- The file that a node is. -/
def FileTree.Node.asFile {F : Type*} : FileTree.Node F → Option F
  | file f => some f
  | dir => none

/-- Whether a node is a directory. -/
def FileTree.Node.isDir {F : Type*} : FileTree.Node F → Bool
  | file _ => false
  | dir => true

/-- A tree of files. -/
structure FileTree {N : Type*} [DecidableEq N] (legal : N → Bool) (F : Type*) where
  nodes : InsertionMap (List N) (FileTree.Node F)
  closed : ∀ e ∈ nodes.entries, e.1 ≠ [] ∧ e.1.all legal ∧
    (e.1.dropLast = [] ∨ (nodes.get e.1.dropLast).any FileTree.Node.isDir)

namespace FileTree

variable {N F : Type*} [DecidableEq N] {legal : N → Bool}

theorem any_isDir {o : Option (Node F)} : o.any Node.isDir ↔ o = some .dir := by
  rcases o with _ | _ | _ <;> simp [Node.isDir]

/-! ## Looking -/

section Looking

variable (t : FileTree legal F) (p : List N)

/-- What is at a path below the root. -/
def get : Option (Node F) := t.nodes.get p

/-- The file at a path. -/
def file : Option F := (t.get p).bind Node.asFile

/-- Whether there is a directory at a path. -/
def isDir : Bool := p.isEmpty || (t.get p).any Node.isDir

/-- Whether there is something at a path. -/
def has : Bool := p.isEmpty || (t.get p).isSome

/-- The paths of all files. -/
def filePaths : List (List N) := t.nodes.keys.filter fun p => (t.file p).isSome

/-- The paths of all directories below the root. -/
def dirPaths : List (List N) := t.nodes.keys.filter fun p => (t.get p).any Node.isDir

end Looking

variable {t t' : FileTree legal F} {p q : List N} {f : F} {e : Node F}

theorem file_eq_some : t.file p = some f ↔ t.get p = some (.file f) := by
  rcases h : t.get p with _ | _ | _ <;> simp [file, h, Node.asFile]

theorem isDir_iff : t.isDir p ↔ p = [] ∨ t.get p = some .dir := by
  rw [isDir, Bool.or_eq_true, List.isEmpty_iff, any_isDir]

theorem has_iff : t.has p ↔ p = [] ∨ t.get p ≠ none := by
  rw [has, Bool.or_eq_true, List.isEmpty_iff, Option.isSome_iff_ne_none]

theorem mem_filePaths : p ∈ t.filePaths ↔ t.file p ≠ none := by
  rw [filePaths, List.mem_filter, InsertionMap.mem_keys, Option.isSome_iff_ne_none]
  refine and_iff_right_of_imp fun h hnone => h ?_
  rw [file, get, hnone, Option.bind_none]

/-- What a path with something at it is like. -/
theorem get_spec (h : t.get p ≠ none) : p ≠ [] ∧ p.all legal ∧ t.isDir p.dropLast := by
  obtain ⟨e, he⟩ := Option.ne_none_iff_exists'.1 h
  obtain ⟨hne, hlegal, hdir⟩ := t.closed (p, e) (InsertionMap.get_eq_some.1 he)
  exact ⟨hne, hlegal, isDir_iff.2 (hdir.imp_right any_isDir.1)⟩

/-- All that is above something is a directory. -/
theorem isDir_of_prefix (h : t.get q ≠ none) (hp : p <+: q) (hne : q ≠ p) : t.isDir p := by
  induction q using List.reverseRecOn with
  | nil => exact absurd (List.prefix_nil.1 hp).symm hne
  | append_singleton q n ih =>
      have hdir := (get_spec h).2.2
      rw [List.dropLast_concat] at hdir
      rcases List.prefix_concat_iff.1 hp with rfl | hp
      · exact absurd rfl hne
      · by_cases hq : q = p
        · exact hq ▸ hdir
        · rcases isDir_iff.1 hdir with rfl | hget
          · exact absurd (List.prefix_nil.1 hp).symm hq
          · exact ih (by simp [hget]) hp hq

/-- Nothing is below what is not a directory. -/
theorem get_below (h : t.isDir p = false) (hp : p <+: q) (hne : q ≠ p) : t.get q = none := by
  by_contra hq
  simpa [h] using isDir_of_prefix hq hp hne

theorem isDir_of_file (h : t.file p ≠ none) : t.isDir p = false := by
  obtain ⟨f, hf⟩ := Option.ne_none_iff_exists'.1 h
  rw [file_eq_some] at hf
  have hne : p ≠ [] := (get_spec (t := t) (by simp [hf])).1
  rw [← Bool.not_eq_true, isDir_iff]
  simp [hne, hf]

/-- Nothing is below a file. -/
theorem file_below (h : t.file p ≠ none) (hp : p <+: q) (hne : q ≠ p) : t.file q = none := by
  rw [file, get_below (isDir_of_file h) hp hne, Option.bind_none]

/-! ## Changing -/

/-- Whether a node can be put at a path: its directory is there, and it does not take the place of
a directory. -/
def CanHold (t : FileTree legal F) (p : List N) : Prop :=
  p.all legal ∧ t.isDir p.dropLast ∧ ¬t.isDir p

instance (t : FileTree legal F) (p : List N) : Decidable (t.CanHold p) :=
  inferInstanceAs (Decidable (_ ∧ _))

theorem CanHold.ne_nil (h : t.CanHold p) : p ≠ [] := by
  rintro rfl
  exact h.2.2 rfl

theorem CanHold.closed (h : t.CanHold p) (e : Node F) : ∀ x ∈ (t.nodes.insert p e).entries,
    x.1 ≠ [] ∧ x.1.all legal ∧
      (x.1.dropLast = [] ∨ ((t.nodes.insert p e).get x.1.dropLast).any Node.isDir) := by
  have hkept : ∀ q, q ≠ p → t.isDir q → q = [] ∨ ((t.nodes.insert p e).get q).any Node.isDir := by
    intro q hq hdir
    rw [InsertionMap.get_insert_of_ne _ hq, any_isDir]
    exact isDir_iff.1 hdir
  rintro ⟨q, x⟩ hx
  have hget := InsertionMap.get_eq_some.2 hx
  rw [InsertionMap.get_insert] at hget
  dsimp only
  split at hget
  · rename_i hq
    subst hq
    refine ⟨h.ne_nil, h.1, hkept _ (fun heq => ?_) h.2.1⟩
    have := congrArg List.length heq
    have := List.length_pos_iff.2 h.ne_nil
    simp at *
    omega
  · obtain ⟨hne, hlegal, hdir⟩ := get_spec (t := t) (p := q) (by rw [get, hget]; simp)
    refine ⟨hne, hlegal, hkept _ (fun heq => ?_) hdir⟩
    exact h.2.2 (heq ▸ hdir)

/-- The tree with a node at a path, in the place of what was there. -/
def put (t : FileTree legal F) (p : List N) (e : Node F) : Option (FileTree legal F) :=
  if h : t.CanHold p then some ⟨t.nodes.insert p e, h.closed e⟩ else none

theorem get_of_put (h : t.put p e = some t') (q : List N) :
    t'.get q = if q = p then some e else t.get q := by
  unfold put at h
  split at h
  · cases h
    exact InsertionMap.get_insert _ _ _ _
  · cases h

theorem closed_eraseWhere (t : FileTree legal F) (p : List N) :
    ∀ x ∈ (t.nodes.eraseWhere fun q => p.isPrefixOf q).entries, x.1 ≠ [] ∧ x.1.all legal ∧
      (x.1.dropLast = [] ∨
        ((t.nodes.eraseWhere fun q => p.isPrefixOf q).get x.1.dropLast).any Node.isDir) := by
  rintro ⟨q, x⟩ hx
  have hget := InsertionMap.get_eq_some.2 hx
  rw [InsertionMap.get_eraseWhere] at hget
  split at hget
  · cases hget
  · rename_i hprefix
    obtain ⟨hne, hlegal, hdir⟩ := get_spec (t := t) (p := q) (by rw [get, hget]; simp)
    refine ⟨hne, hlegal, (isDir_iff.1 hdir).imp_right fun hdir => ?_⟩
    rw [InsertionMap.get_eraseWhere, if_neg, any_isDir]
    · exact hdir
    · rw [List.isPrefixOf_iff_prefix] at hprefix ⊢
      exact fun h => hprefix (h.trans (List.dropLast_prefix q))

/-- The tree without what is at a path and below. -/
def remove (t : FileTree legal F) (p : List N) : FileTree legal F :=
  ⟨t.nodes.eraseWhere fun q => p.isPrefixOf q, t.closed_eraseWhere p⟩

theorem get_remove (t : FileTree legal F) (p q : List N) :
    (t.remove p).get q = if p <+: q then none else t.get q := by
  rw [get, remove, InsertionMap.get_eraseWhere]
  simp only [List.isPrefixOf_iff_prefix]
  rfl

/-- The tree with the directories on the way down from `base`.  With `overFile` the way may end at
a file. -/
def makeDirs (overFile : Bool) (t : FileTree legal F) (base : List N) :
    List N → Option (FileTree legal F)
  | [] => some t
  | n :: rest =>
      match t.get (base ++ [n]) with
      | some .dir => makeDirs overFile t (base ++ [n]) rest
      | some (.file _) => if overFile && rest.isEmpty then some t else none
      | none => do
          let t ← t.put (base ++ [n]) .dir
          makeDirs overFile t (base ++ [n]) rest

theorem file_of_put (h : t.put p e = some t') (q : List N) :
    t'.file q = if q = p then e.asFile else t.file q := by
  rw [file, get_of_put h]
  split <;> rfl

theorem file_remove (t : FileTree legal F) (p q : List N) :
    (t.remove p).file q = if p <+: q then none else t.file q := by
  rw [file, get_remove]
  split <;> rfl

/-- Making directories leaves the files. -/
theorem file_of_makeDirs {overFile : Bool} {base rest : List N}
    (h : makeDirs overFile t base rest = some t') (q : List N) : t'.file q = t.file q := by
  induction rest generalizing base t with
  | nil =>
      cases h
      rfl
  | cons n rest ih =>
      unfold makeDirs at h
      split at h
      · exact ih h
      · split at h
        · cases h
          rfl
        · cases h
      · rename_i hnone
        obtain ⟨t₁, hput, h⟩ := Option.bind_eq_some_iff.1 h
        rw [ih h, file_of_put hput]
        split
        · rename_i hq
          rw [hq, file, hnone]
          rfl
        · rfl

end FileTree
