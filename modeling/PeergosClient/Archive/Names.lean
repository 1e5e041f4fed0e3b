import PeergosClient.Core.Storage

/-!
# Names of archive entries

An archive is written by anybody, so the names in it are brought into one form before they are used
as paths: components without a slash, none empty, `.` or `..`, joined by slashes.  A drive in front
of the name is dropped first, and a leading slash afterwards; a name with both can come out with a
drive in front, which dropping it once more would take away.
-/

namespace Peergos

/-- A name, as its characters. -/
abbrev EntryName := List Char

/-! ## Normal forms -/

/-- A Windows drive, `name[1] == ':'`: the byte before the colon is then a character. -/
def hasDrive : EntryName → Bool
  | first :: ':' :: _ => decide (first.toNat < 0x80)
  | _ => false

/-- `name[2..]`, if the name has a drive. -/
def dropDrive (name : EntryName) : EntryName := if hasDrive name then name.drop 2 else name

/-- The loop over the components: `None` if there is a `..`. -/
def keptParts : List EntryName → Option (List EntryName)
  | [] => some []
  | c :: rest =>
      if c = [] ∨ c = ['.'] then keptParts rest
      else if c = ['.', '.'] then none
      else (keptParts rest).map (c :: ·)

/-- `Vec::join`. -/
def joinParts (parts : List EntryName) : EntryName := ['/'].intercalate parts

/-- `normalise_path`. -/
def normalisePath (raw : EntryName) : Option EntryName :=
  let name := dropDrive (raw.map fun c => if c = '\\' then '/' else c)
  (keptParts (name.splitOn '/')).map joinParts

/-! ## Components -/

/-- What a component of a normal name is. -/
structure IsPart (c : EntryName) : Prop where
  ne_nil : c ≠ []
  ne_dot : c ≠ ['.']
  ne_dots : c ≠ ['.', '.']
  no_slash : '/' ∉ c
  no_backslash : '\\' ∉ c

/-- The components of a normal name. -/
def partsOf (name : EntryName) : List EntryName := if name = [] then [] else name.splitOn '/'

/-- The name is in normal form. -/
def IsNormal (name : EntryName) : Prop := ∀ c ∈ partsOf name, IsPart c

theorem joinParts_eq_nil {parts : List EntryName} (h : ∀ c ∈ parts, IsPart c) :
    joinParts parts = [] ↔ parts = [] := by
  cases parts with
  | nil => simp [joinParts]
  | cons c rest =>
      have hc := (h c List.mem_cons_self).ne_nil
      cases rest <;> simp [joinParts, List.intercalate, hc]

/-- A name has as many characters as components at least. -/
theorem length_parts_le {parts : List EntryName} (h : ∀ c ∈ parts, IsPart c) :
    parts.length ≤ (joinParts parts).length := by
  induction parts with
  | nil => exact Nat.zero_le _
  | cons p rest ih =>
      have hp := List.length_pos_iff.2 (h p List.mem_cons_self).ne_nil
      have hrest := ih fun c hc => h c (List.mem_cons_of_mem _ hc)
      cases rest with
      | nil =>
          simp only [joinParts, List.intercalate_singleton, List.length_singleton]
          exact hp
      | cons q rest =>
          have hjoin : joinParts (p :: q :: rest) = p ++ '/' :: joinParts (q :: rest) := by
            simp [joinParts, List.intercalate]
          rw [hjoin, List.length_append, List.length_cons, List.length_cons (a := '/')]
          omega

/-- Components are read back from the name they are joined to. -/
theorem partsOf_joinParts {parts : List EntryName} (h : ∀ c ∈ parts, IsPart c) :
    partsOf (joinParts parts) = parts := by
  unfold partsOf
  split
  · rename_i hnil
    exact ((joinParts_eq_nil h).1 hnil).symm
  · rename_i hne
    refine List.splitOn_intercalate '/' (fun c hc => (h c hc).no_slash) ?_
    rintro rfl
    exact hne rfl

theorem joinParts_partsOf (name : EntryName) : joinParts (partsOf name) = name := by
  unfold partsOf
  split
  · rename_i hnil
    rw [hnil]
    rfl
  · exact List.intercalate_splitOn '/'

theorem isNormal_joinParts {parts : List EntryName} (h : ∀ c ∈ parts, IsPart c) :
    IsNormal (joinParts parts) := by
  unfold IsNormal
  rw [partsOf_joinParts h]
  exact h

/-- Normal names differ if their components do. -/
theorem partsOf_injective {a b : EntryName} (h : partsOf a = partsOf b) : a = b := by
  rw [← joinParts_partsOf a, h, joinParts_partsOf]

/-! ## What normalising gives -/

theorem keptParts_eq_some {l parts : List EntryName} (h : keptParts l = some parts) :
    ∀ c ∈ parts, c ∈ l ∧ c ≠ [] ∧ c ≠ ['.'] ∧ c ≠ ['.', '.'] := by
  induction l generalizing parts with
  | nil =>
      cases h
      intro c hc
      cases hc
  | cons a l ih =>
      unfold keptParts at h
      split_ifs at h with hskip hdots
      · exact fun c hc => ⟨List.mem_cons_of_mem _ (ih h c hc).1, (ih h c hc).2⟩
      · obtain ⟨rest, hrest, rfl⟩ := Option.map_eq_some_iff.1 h
        rw [not_or] at hskip
        rintro c (_ | ⟨_, hc⟩)
        · exact ⟨List.mem_cons_self, hskip.1, hskip.2, hdots⟩
        · exact ⟨List.mem_cons_of_mem _ (ih hrest c hc).1, (ih hrest c hc).2⟩

/-- Nothing is dropped from components of normal names. -/
theorem keptParts_of_isPart {parts : List EntryName} (h : ∀ c ∈ parts, IsPart c) :
    keptParts parts = some parts := by
  induction parts with
  | nil => rfl
  | cons c rest ih =>
      have hc := h c List.mem_cons_self
      have hskip : ¬ (c = [] ∨ c = ['.']) := by simp [hc.ne_nil, hc.ne_dot]
      rw [keptParts, if_neg hskip, if_neg hc.ne_dots, ih fun c' hc' => h c' (List.mem_cons_of_mem _ hc')]
      rfl

/-- A part of a split has characters of the list only, and not the one it is split at. -/
theorem mem_of_mem_splitOn {l part : EntryName} {d c : Char} (hpart : part ∈ l.splitOn d)
    (hc : c ∈ part) : c ∈ l ∧ c ≠ d := by
  induction l generalizing part with
  | nil =>
      rw [List.splitOn_nil, List.mem_singleton] at hpart
      rw [hpart] at hc
      cases hc
  | cons a l ih =>
      rw [List.splitOn_cons_eq_if_modifyHead] at hpart
      split at hpart
      · rcases List.mem_cons.1 hpart with rfl | hpart
        · cases hc
        · exact ⟨List.mem_cons_of_mem _ (ih hpart hc).1, (ih hpart hc).2⟩
      · rename_i hne
        obtain ⟨first, rest, hsplit⟩ := List.exists_cons_of_ne_nil (List.splitOn_ne_nil d l)
        rw [hsplit, List.modifyHead_cons] at hpart
        rw [hsplit] at ih
        rcases List.mem_cons.1 hpart with rfl | hpart
        · rcases List.mem_cons.1 hc with rfl | hc
          · exact ⟨List.mem_cons_self, by simpa using hne⟩
          · have hmem := ih List.mem_cons_self hc
            exact ⟨List.mem_cons_of_mem _ hmem.1, hmem.2⟩
        · have hmem := ih (List.mem_cons_of_mem _ hpart) hc
          exact ⟨List.mem_cons_of_mem _ hmem.1, hmem.2⟩

theorem isNormal_of_normalisePath {raw name : EntryName} (h : normalisePath raw = some name) :
    IsNormal name := by
  obtain ⟨parts, hparts, rfl⟩ := Option.map_eq_some_iff.1 h
  refine isNormal_joinParts fun c hc => ?_
  obtain ⟨hmem, hnil, hdot, hdots⟩ := keptParts_eq_some hparts c hc
  refine ⟨hnil, hdot, hdots, ?_, ?_⟩
  · exact fun hslash => (mem_of_mem_splitOn hmem hslash).2 rfl
  · intro hback
    have hin := (mem_of_mem_splitOn hmem hback).1
    have hmap : '\\' ∈ raw.map fun c => if c = '\\' then '/' else c := by
      unfold dropDrive at hin
      split at hin
      · exact List.mem_of_mem_drop hin
      · exact hin
    obtain ⟨c', -, hc'⟩ := List.mem_map.1 hmap
    split at hc'
    · exact absurd hc' (by decide)
    · rename_i hne
      exact hne hc'

/-- A character of a joined name, other than the slash, is one of a component. -/
theorem count_joinParts {c : Char} (hc : c ≠ '/') (parts : List EntryName) :
    (joinParts parts).count c = (parts.map (List.count c)).sum := by
  induction parts with
  | nil => rfl
  | cons p rest ih =>
      cases rest with
      | nil => simp [joinParts]
      | cons q rest =>
          have hjoin : joinParts (p :: q :: rest) = p ++ '/' :: joinParts (q :: rest) := by
            simp [joinParts, List.intercalate]
          rw [hjoin, List.count_append, List.count_cons_of_ne hc.symm, ih]
          rfl

theorem sum_count_keptParts {l parts : List EntryName} (h : keptParts l = some parts) (c : Char) :
    (parts.map (List.count c)).sum ≤ (l.map (List.count c)).sum := by
  induction l generalizing parts with
  | nil =>
      cases h
      exact le_rfl
  | cons a l ih =>
      unfold keptParts at h
      rw [List.map_cons, List.sum_cons]
      split_ifs at h
      · exact (ih h).trans (Nat.le_add_left _ _)
      · obtain ⟨rest, hrest, rfl⟩ := Option.map_eq_some_iff.1 h
        rw [List.map_cons, List.sum_cons]
        exact Nat.add_le_add_left (ih hrest) _

/-- A normal name has no backslash. -/
theorem IsNormal.not_mem_backslash {name : EntryName} (h : IsNormal name) : '\\' ∉ name := by
  rw [← List.count_eq_zero, ← joinParts_partsOf name, count_joinParts (by decide),
    List.sum_eq_zero_iff]
  intro n hn
  obtain ⟨part, hpart, rfl⟩ := List.mem_map.1 hn
  exact List.count_eq_zero.2 (h part hpart).no_backslash

theorem map_backslash {name : EntryName} (h : '\\' ∉ name) :
    (name.map fun c => if c = '\\' then '/' else c) = name := by
  conv_rhs => rw [← List.map_id name]
  refine List.map_congr_left fun c hc => ?_
  have hne : c ≠ '\\' := by
    rintro rfl
    exact h hc
  simp [hne]

/-- A normal name without a drive is left as it is. -/
theorem normalisePath_of_isNormal {name : EntryName} (h : IsNormal name)
    (hdrive : hasDrive name = false) : normalisePath name = some name := by
  unfold normalisePath
  rw [map_backslash h.not_mem_backslash, dropDrive, hdrive]
  simp only [Bool.false_eq_true, if_false]
  by_cases hnil : name = []
  · rw [hnil]
    rfl
  · have hparts : partsOf name = name.splitOn '/' := by rw [partsOf, if_neg hnil]
    rw [← hparts, keptParts_of_isPart h, Option.map_some, joinParts_partsOf]

/-- A drive is dropped, and with it a colon that nothing brings back. -/
theorem normalisePath_ne_of_hasDrive {name other : EntryName} (hback : '\\' ∉ name)
    (hdrive : hasDrive name = true) (h : normalisePath name = some other) : other ≠ name := by
  unfold normalisePath at h
  rw [map_backslash hback, dropDrive, if_pos hdrive] at h
  obtain ⟨parts, hparts, rfl⟩ := Option.map_eq_some_iff.1 h
  have hcolon : (joinParts parts).count ':' ≤ (name.drop 2).count ':' := by
    have hsplit : joinParts ((name.drop 2).splitOn '/') = name.drop 2 := List.intercalate_splitOn '/'
    rw [count_joinParts (by decide)]
    conv_rhs => rw [← hsplit, count_joinParts (by decide)]
    exact sum_count_keptParts hparts ':'
  have hfront : (name.drop 2).count ':' < name.count ':' := by
    unfold hasDrive at hdrive
    split at hdrive
    · rename_i first rest
      rw [List.drop_succ_cons, List.drop_succ_cons, List.drop_zero, List.count_cons,
        List.count_cons_self]
      omega
    · cases hdrive
  intro heq
  rw [heq] at hcolon
  omega

/-- Normalising again changes nothing just if the normal name has no drive. -/
theorem normalisePath_idempotent_iff {raw name : EntryName} (h : normalisePath raw = some name) :
    normalisePath name = some name ↔ hasDrive name = false := by
  have hnormal := isNormal_of_normalisePath h
  constructor
  · intro hagain
    by_contra hdrive
    exact normalisePath_ne_of_hasDrive hnormal.not_mem_backslash (by simpa using hdrive) hagain rfl
  · exact normalisePath_of_isNormal hnormal

/-! ## Parents -/

/-- `rsplit_once('/')`. -/
def rsplitSlash : EntryName → Option (EntryName × EntryName)
  | [] => none
  | c :: s =>
      match rsplitSlash s with
      | some (a, b) => some (c :: a, b)
      | none => if c = '/' then some ([], s) else none

/-- `ZipEntry::parent_path`. -/
def entryParentPath (path : EntryName) : EntryName := ((rsplitSlash path).map Prod.fst).getD []

/-- `ZipEntry::name`. -/
def baseName (path : EntryName) : EntryName := ((rsplitSlash path).map Prod.snd).getD path

theorem rsplitSlash_eq_none {s : EntryName} (h : '/' ∉ s) : rsplitSlash s = none := by
  induction s with
  | nil => rfl
  | cons c s ih =>
      rw [List.mem_cons, not_or] at h
      rw [rsplitSlash, ih h.2]
      simp [Ne.symm h.1]

theorem rsplitSlash_append {s : EntryName} (h : '/' ∉ s) (front : EntryName) :
    rsplitSlash (front ++ '/' :: s) = some (front, s) := by
  induction front with
  | nil =>
      rw [List.nil_append, rsplitSlash, rsplitSlash_eq_none h]
      simp
  | cons c front ih => rw [List.cons_append, rsplitSlash, ih]

theorem rsplitSlash_eq_some {s front last : EntryName} (h : rsplitSlash s = some (front, last)) :
    s = front ++ '/' :: last := by
  induction s generalizing front with
  | nil => cases h
  | cons c s ih =>
      rw [rsplitSlash] at h
      cases hs : rsplitSlash s with
      | none =>
          rw [hs] at h
          dsimp only at h
          split_ifs at h with hc
          cases h
          rw [hc]
          rfl
      | some r =>
          rw [hs] at h
          cases h
          rw [ih hs]
          rfl

/-- A parent is a proper front of the path. -/
theorem entryParentPath_eq {path : EntryName} (h : entryParentPath path ≠ []) :
    ∃ last, path = entryParentPath path ++ '/' :: last := by
  unfold entryParentPath at h ⊢
  cases hs : rsplitSlash path with
  | none =>
      rw [hs] at h
      exact absurd rfl h
  | some r => exact ⟨r.2, rsplitSlash_eq_some hs⟩

theorem length_entryParentPath_lt {path : EntryName} (h : path ≠ []) :
    (entryParentPath path).length < path.length := by
  by_cases hparent : entryParentPath path = []
  · rw [hparent]
    exact List.length_pos_iff.2 h
  · obtain ⟨last, hlast⟩ := entryParentPath_eq hparent
    have hlen := congrArg List.length hlast
    rw [List.length_append, List.length_cons] at hlen
    omega

/-- Where the parent has a drive the path has the same. -/
theorem hasDrive_of_entryParentPath {path : EntryName} (h : hasDrive (entryParentPath path) = true) :
    hasDrive path = true := by
  have hne : entryParentPath path ≠ [] := by
    intro hnil
    rw [hnil] at h
    cases h
  obtain ⟨last, hlast⟩ := entryParentPath_eq hne
  generalize entryParentPath path = front at h hlast
  rw [hlast]
  unfold hasDrive at h
  split at h
  · exact h
  · cases h

theorem joinParts_concat {parts : List EntryName} (hne : parts ≠ []) (last : EntryName) :
    joinParts (parts ++ [last]) = joinParts parts ++ '/' :: last := by
  induction parts with
  | nil => exact absurd rfl hne
  | cons p rest ih =>
      cases rest with
      | nil => simp [joinParts, List.intercalate]
      | cons q rest =>
          have hfront : ∀ l : List EntryName, joinParts (p :: q :: l) =
              p ++ '/' :: joinParts (q :: l) := fun l => by simp [joinParts, List.intercalate]
          rw [List.cons_append, List.cons_append, hfront, ← List.cons_append, ih (by simp), hfront]
          simp

/-- The parent has the components but the last. -/
theorem partsOf_entryParentPath {name : EntryName} (h : IsNormal name) :
    partsOf (entryParentPath name) = (partsOf name).dropLast := by
  rcases List.eq_nil_or_concat' (partsOf name) with hnil | ⟨parts, last, hparts⟩
  · have hname : name = [] := by rw [← joinParts_partsOf name, hnil]; rfl
    rw [hname]
    rfl
  · have hall : ∀ c ∈ parts, IsPart c := by
      intro c hc
      exact h c (by rw [hparts]; exact List.mem_append_left _ hc)
    have hlast : '/' ∉ last := (h last (by rw [hparts]; simp)).no_slash
    have hname : name = joinParts (parts ++ [last]) := by rw [← hparts, joinParts_partsOf]
    rw [hparts, List.dropLast_concat]
    by_cases hne : parts = []
    · rw [hname, hne, entryParentPath, List.nil_append, joinParts, List.intercalate_singleton,
        rsplitSlash_eq_none hlast]
      rfl
    · rw [hname, entryParentPath, joinParts_concat hne, rsplitSlash_append hlast]
      exact partsOf_joinParts hall

/-- The parent of a normal name is normal. -/
theorem IsNormal.entryParentPath {name : EntryName} (h : IsNormal name) :
    IsNormal (Peergos.entryParentPath name) := by
  unfold IsNormal
  rw [partsOf_entryParentPath h]
  exact fun c hc => h c (List.mem_of_mem_dropLast hc)

end Peergos
