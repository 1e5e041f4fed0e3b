import PeergosClient.Fs.File
import PeergosClient.Lib.Blake3
import PeergosClient.Lib.Sha256

/-!
# The root of a file's hash tree as a BLAKE3 hash

A file that is not of the legacy chunk size keeps the chaining values of its chunks, 1024 to a list,
and merges list by list and level by level.  The root is the same as that of all the chaining values
merged at once.  Where the chunks are a power of two of BLAKE3's own chunks, each is an aligned
subtree of the file, and the root is the BLAKE3 hash of the file.

The functions of the BLAKE3 library are parameters: the two that join a left and a right chaining
value, the hash of an input, and the chaining value of a piece of a larger one.
-/

namespace Peergos

open LeftComplete Chunks

/-- `blake3::hazmat::ChainingValue`, and `blake3::Hash`. -/
abbrev ChainingValue := {b : Bytes // b.length = 32}

/-- `blake3::hazmat`. -/
structure Blake3Hazmat where
  mergeSubtreesNonRoot : ChainingValue → ChainingValue → ChainingValue
  mergeSubtreesRoot : ChainingValue → ChainingValue → ChainingValue

namespace Blake3Hazmat

variable (B : Blake3Hazmat)

/-- `to_cv`. -/
def toCv (cv : Bytes) : Result ChainingValue :=
  if h : cv.length = 32 then .ok ⟨cv, h⟩ else .error .panic

/-- `blake3_merge_non_root`. -/
def blake3MergeNonRoot (left right : Bytes) : Result Bytes := do
  let left ← toCv left
  let right ← toCv right
  pure (B.mergeSubtreesNonRoot left right).1

/-- `blake3_merge_root`. -/
def blake3MergeRoot (left right : Bytes) : Result Bytes := do
  let left ← toCv left
  let right ← toCv right
  pure (B.mergeSubtreesRoot left right).1

/-- `blake3_merge_subtree`. -/
def blake3MergeSubtree (cvs : List Bytes) : Result Bytes :=
  match cvs with
  | [] => .error .panic
  | [cv] => .ok cv
  | a :: b :: rest => do
      let left ← blake3MergeSubtree ((a :: b :: rest).take (leftCount (rest.length + 2)))
      let right ← blake3MergeSubtree ((a :: b :: rest).drop (leftCount (rest.length + 2)))
      B.blake3MergeNonRoot left right
termination_by cvs.length
decreasing_by
  · have := leftCount_lt (show 2 ≤ rest.length + 2 by omega)
    simp only [List.length_take, List.length_cons]
    omega
  · have := leftCount_pos (rest.length + 2)
    simp only [List.length_drop, List.length_cons]
    omega

/-- `blake3_merge_as_root`. -/
def blake3MergeAsRoot (cvs : List Bytes) : Result Bytes :=
  if cvs.length < 2 then .error .panic
  else do
    let left ← B.blake3MergeSubtree (cvs.take (leftCount cvs.length))
    let right ← B.blake3MergeSubtree (cvs.drop (leftCount cvs.length))
    B.blake3MergeRoot left right

theorem toCv_val (v : ChainingValue) : toCv v.1 = .ok v := dif_pos v.2

/-- The chaining values as bytes. -/
abbrev bytesOf (vs : List ChainingValue) : List Bytes := vs.map Subtype.val

/-- A subtree of chaining values is the left-complete tree over them. -/
theorem blake3MergeSubtree_eq {vs : List ChainingValue} {v : ChainingValue}
    (h : merge B.mergeSubtreesNonRoot vs = some v) :
    B.blake3MergeSubtree (bytesOf vs) = .ok v.1 := by
  induction hlen : vs.length using Nat.strong_induction_on generalizing vs v with
  | _ n ih =>
      match vs with
      | [] =>
          rw [merge] at h
          cases h
      | [a] =>
          rw [merge_singleton] at h
          cases h
          rw [bytesOf, List.map_singleton, blake3MergeSubtree]
      | a :: b :: rest =>
          have hlt := leftCount_lt (show 2 ≤ rest.length + 2 by omega)
          have hpos := leftCount_pos (rest.length + 2)
          have hcount : (a :: b :: rest).length = rest.length + 2 := rfl
          rw [merge_split (by simp), hcount] at h
          rw [hcount] at hlen
          obtain ⟨x, hx, h⟩ := Option.bind_eq_some_iff.1 h
          obtain ⟨y, hy, h⟩ := Option.bind_eq_some_iff.1 h
          cases h
          have hleft := ih _ (by rw [List.length_take, hcount]; omega) hx rfl
          have hright := ih _ (by rw [List.length_drop, hcount]; omega) hy rfl
          rw [bytesOf, List.map_take, List.map_cons, List.map_cons] at hleft
          rw [bytesOf, List.map_drop, List.map_cons, List.map_cons] at hright
          rw [bytesOf, List.map_cons, List.map_cons, blake3MergeSubtree, List.length_map, hleft,
            ok_bind, hright, ok_bind, blake3MergeNonRoot, toCv_val, ok_bind, toCv_val, ok_bind]
          rfl

theorem blake3MergeAsRoot_eq {vs : List ChainingValue} (hn : 2 ≤ vs.length) {v : ChainingValue}
    (h : mergeRoot B.mergeSubtreesNonRoot B.mergeSubtreesRoot vs = some v) :
    B.blake3MergeAsRoot (bytesOf vs) = .ok v.1 := by
  obtain ⟨x, hx, h⟩ := Option.bind_eq_some_iff.1 h
  obtain ⟨y, hy, h⟩ := Option.bind_eq_some_iff.1 h
  cases h
  have hleft := B.blake3MergeSubtree_eq hx
  have hright := B.blake3MergeSubtree_eq hy
  rw [bytesOf, List.map_take] at hleft
  rw [bytesOf, List.map_drop] at hright
  rw [blake3MergeAsRoot, if_neg (by rw [List.length_map]; omega), List.length_map, hleft, ok_bind,
    hright, ok_bind, blake3MergeRoot, toCv_val, ok_bind, toCv_val, ok_bind]
  rfl

theorem exists_mergeRoot {vs : List ChainingValue} (hn : 2 ≤ vs.length) :
    ∃ v, mergeRoot B.mergeSubtreesNonRoot B.mergeSubtreesRoot vs = some v := by
  have hlt := leftCount_lt hn
  have hpos := leftCount_pos vs.length
  have hleft : (merge B.mergeSubtreesNonRoot (vs.take (leftCount vs.length))).isSome :=
    merge_isSome (List.ne_nil_of_length_pos (by rw [List.length_take]; omega))
  have hright : (merge B.mergeSubtreesNonRoot (vs.drop (leftCount vs.length))).isSome :=
    merge_isSome (List.ne_nil_of_length_pos (by rw [List.length_drop]; omega))
  obtain ⟨x, hx⟩ := Option.isSome_iff_exists.1 hleft
  obtain ⟨y, hy⟩ := Option.isSome_iff_exists.1 hright
  exact ⟨_, by rw [mergeRoot, hx, hy]; rfl⟩

end Blake3Hazmat

/-! ## The levels -/

/-- The hasher's merges are those of the source, wherever these return. -/
structure ContentHasher.Merges (H : ContentHasher) (B : Blake3Hazmat) : Prop where
  subtree : ∀ cvs v, B.blake3MergeSubtree cvs = .ok v → H.blake3MergeSubtree cvs = v
  asRoot : ∀ cvs v, B.blake3MergeAsRoot cvs = .ok v → H.blake3MergeAsRoot cvs = v

namespace ContentHasher

variable {H : ContentHasher} {B : Blake3Hazmat} {vs : List ChainingValue}

open Blake3Hazmat

theorem length_buildLevel (hashes : List Bytes) :
    (buildLevel hashes).length = (hashes.length + 1024 - 1) / 1024 := by
  rw [buildLevel, List.length_map, length_toChunks (by norm_num)]

/-- A list of values of 32 bytes holds those values. -/
theorem hashes_flatten {group : List Bytes} (h : ∀ cv ∈ group, cv.length = 32) :
    (ChunkHashList.mk group.flatten).hashes = group :=
  toChunks_flatten (by norm_num) h

theorem length_of_mem_bytesOf {cv : Bytes} (h : cv ∈ bytesOf vs) : cv.length = 32 := by
  obtain ⟨v, -, rfl⟩ := List.mem_map.1 h
  exact v.2

theorem map_eq_of_map_some {α β γ : Type} {f : α → Option β} {g : α → γ} {val : β → γ} {l : List α}
    {bs : List β} (h : l.map f = bs.map some) (hg : ∀ a b, f a = some b → g a = val b) :
    l.map g = bs.map val := by
  induction l generalizing bs with
  | nil =>
      obtain rfl : bs = [] := List.map_eq_nil_iff.1 h.symm
      rfl
  | cons a l ih =>
      cases bs with
      | nil => cases h
      | cons b bs =>
          rw [List.map_cons, List.map_cons, List.cons.injEq] at h
          rw [List.map_cons, List.map_cons, hg a b h.1, ih h.2]

/-- The merges of a level are the values of its groups. -/
theorem mergeBlobs_buildLevel (hH : H.Merges B) {groups : List ChainingValue}
    (h : GroupsOf B.mergeSubtreesNonRoot 10 vs groups) :
    H.mergeBlobs (buildLevel (bytesOf vs)) = bytesOf groups := by
  have hblob : ∀ g : List ChainingValue, ∀ v,
      merge B.mergeSubtreesNonRoot g = some v →
        H.blake3MergeSubtree (ChunkHashList.mk (bytesOf g).flatten).hashes = v.1 := by
    intro g v hv
    rw [hashes_flatten fun cv hcv => length_of_mem_bytesOf hcv]
    exact hH.subtree _ _ (B.blake3MergeSubtree_eq hv)
  have hlevel : H.mergeBlobs (buildLevel (bytesOf vs)) = (vs.toChunks 1024).map fun g =>
      H.blake3MergeSubtree (ChunkHashList.mk (bytesOf g).flatten).hashes := by
    rw [mergeBlobs, buildLevel, bytesOf, toChunks_map (by norm_num), List.map_map, List.map_map]
    rfl
  rw [hlevel]
  exact map_eq_of_map_some h hblob

/-- The root of the tree is the merge of all the values at once, up to the size the tree is limited
to; beyond it there is no tree. -/
theorem buildBlake3_root (hH : H.Merges B) (hn : 2 ≤ vs.length) (hmax : vs.length ≤ 1024 ^ 3)
    {root : ChainingValue}
    (hroot : mergeRoot B.mergeSubtreesNonRoot B.mergeSubtreesRoot vs = some root) :
    ∃ tree, H.buildBlake3 (bytesOf vs) = .ok tree ∧ tree.rootHash = ⟨root.1⟩ := by
  obtain ⟨vs₂, h₂⟩ := exists_groupsOf B.mergeSubtreesNonRoot 10 vs
  obtain ⟨vs₃, h₃⟩ := exists_groupsOf B.mergeSubtreesNonRoot 10 vs₂
  have hlen₂ : vs₂.length = (vs.length + 1024 - 1) / 1024 := h₂.length_eq
  have hlen₃ : vs₃.length = (vs₂.length + 1024 - 1) / 1024 := h₃.length_eq
  have hbytes : ∀ us : List ChainingValue, (bytesOf us).length = us.length := fun us =>
    List.length_map _
  have hcvs₂ := mergeBlobs_buildLevel hH h₂
  have hcvs₃ := mergeBlobs_buildLevel hH h₃
  simp only [buildBlake3, hcvs₂, hcvs₃, length_buildLevel, hbytes]
  rw [if_neg (by omega)]
  by_cases hone : (vs.length + 1024 - 1) / 1024 = 1
  · rw [if_pos hone]
    exact ⟨_, rfl, by rw [hH.asRoot _ _ (B.blake3MergeAsRoot_eq hn hroot)]⟩
  · have hlong : 2 ^ 10 < vs.length := by omega
    have hroot₂ : mergeRoot B.mergeSubtreesNonRoot B.mergeSubtreesRoot vs₂ = some root := by
      rw [mergeRoot_groups hlong h₂, hroot]
    have htwo₂ := h₂.two_le hlong
    rw [if_neg hone]
    by_cases htwo : (vs₂.length + 1024 - 1) / 1024 = 1
    · rw [if_pos htwo]
      exact ⟨_, rfl, by rw [hH.asRoot _ _ (B.blake3MergeAsRoot_eq htwo₂ hroot₂)]⟩
    · have hlong₂ : 2 ^ 10 < vs₂.length := by omega
      have hroot₃ : mergeRoot B.mergeSubtreesNonRoot B.mergeSubtreesRoot vs₃ = some root := by
        rw [mergeRoot_groups hlong₂ h₃, hroot₂]
      have hthree : (vs₃.length + 1024 - 1) / 1024 = 1 := by omega
      rw [if_neg htwo, if_pos hthree]
      exact ⟨_, rfl, by rw [hH.asRoot _ _ (B.blake3MergeAsRoot_eq (h₃.two_le hlong₂) hroot₃)]⟩

/-- Beyond 1024 to the third chunks there is no tree. -/
theorem buildBlake3_too_long {cvs : List Bytes} (hlong : 1024 ^ 3 < cvs.length) :
    H.buildBlake3 cvs =
      protocolErr "Files bigger than 4 EiB are not supported in HashTree!" := by
  have hmerge : ∀ level : List ChunkHashList, (H.mergeBlobs level).length = level.length :=
    fun level => List.length_map _
  simp only [buildBlake3, length_buildLevel, hmerge]
  rw [if_neg (by omega), if_neg (by omega), if_neg (by omega), if_neg (by omega)]

end ContentHasher

/-- Values of 32 bytes are chaining values. -/
theorem exists_bytesOf {cvs : List Bytes} (h : ∀ cv ∈ cvs, cv.length = 32) :
    ∃ vs : List ChainingValue, Blake3Hazmat.bytesOf vs = cvs := by
  refine ⟨cvs.attach.map fun cv => ⟨cv.1, h cv.1 cv.2⟩, ?_⟩
  rw [Blake3Hazmat.bytesOf, List.map_map]
  exact List.attach_map_subtype_val cvs

theorem Blake3Hazmat.exists_flat_root (B : Blake3Hazmat) {cvs : List Bytes}
    (hcvs : ∀ cv ∈ cvs, cv.length = 32) (hn : 2 ≤ cvs.length) :
    ∃ root, B.blake3MergeAsRoot cvs = .ok root := by
  obtain ⟨vs, rfl⟩ := exists_bytesOf hcvs
  rw [List.length_map] at hn
  obtain ⟨root, hroot⟩ := B.exists_mergeRoot hn
  exact ⟨root.1, B.blake3MergeAsRoot_eq hn hroot⟩

/-! ## The hash of a file -/

/-- What the BLAKE3 library hashes is the tree over the chunks of the input, whatever the values of
these are.  The chaining value of a piece is asked for where the piece is an aligned subtree, or the
last piece of the input and shorter than that. -/
structure ContentHasher.IsBlake3 (H : ContentHasher) (B : Blake3Hazmat)
    (leaf : Bytes → ℕ → ChainingValue) : Prop where
  hash : ∀ data v, Blake3.treeRoot leaf B.mergeSubtreesNonRoot B.mergeSubtreesRoot data = some v →
    H.blake3 data = v.1
  chainingValue : ∀ j k piece v, piece.length ≤ 2 ^ j * 1024 →
    Blake3.subtree leaf B.mergeSubtreesNonRoot (k * 2 ^ j) piece = some v →
      H.blake3ChainingValue piece (k * 2 ^ j) = v.1

namespace ContentHasher

variable {H : ContentHasher} {B : Blake3Hazmat} {leaf : Bytes → ℕ → ChainingValue} {j : ℕ}
  {data : Bytes} {values : List ChainingValue}

/-- The legacy chunk size is not a power of two. -/
theorem usesBlake3_power (j : ℕ) : usesBlake3 (2 ^ j * 1024) = true := by
  have hne : 2 ^ j * 1024 ≠ legacyChunkSize := by
    intro h
    have hodd : 2 ^ j = 5 * 1024 := by
      unfold legacyChunkSize at h
      omega
    have hfive : 5 ∣ 2 ^ j := ⟨1024, hodd⟩
    have := (Nat.prime_five.dvd_of_dvd_pow hfive)
    omega
  simp [usesBlake3, hne]

/-- The chaining values of a file's chunks are those of its pieces. -/
theorem chunkHashes_eq (hlib : H.IsBlake3 B leaf)
    (hvalues : Blake3.pieces leaf B.mergeSubtreesNonRoot j 0 data = values.map some)
    (hn : chunkCount data.length (2 ^ j * 1024) ≠ 1) :
    ((List.range (chunkCount data.length (2 ^ j * 1024))).map fun i =>
      H.chunkHash (chunkAt (2 ^ j * 1024) i data) i (2 ^ j * 1024)
        (chunkCount data.length (2 ^ j * 1024) = 1)) = Blake3Hazmat.bytesOf values := by
  have hsize : 0 < 2 ^ j * 1024 := by positivity
  have hcount : chunkCount data.length (2 ^ j * 1024) = (data.toChunks (2 ^ j * 1024)).length := by
    unfold chunkCount at hn ⊢
    rw [length_toChunks hsize]
    omega
  have hlen : values.length = (data.toChunks (2 ^ j * 1024)).length := by
    simpa [Blake3.pieces] using (congrArg List.length hvalues).symm
  refine List.ext_getElem (by simp [hcount, hlen]) fun i hi hi' => ?_
  have hi₁ : i < values.length := by simpa using hi'
  have hpiece : Blake3.subtree leaf B.mergeSubtreesNonRoot (i * 2 ^ j)
      (chunkAt (2 ^ j * 1024) i data) = some values[i] := by
    have hget := List.getElem_of_eq hvalues (i := i) (by simp [Blake3.pieces, ← hlen, hi₁])
    simpa [Blake3.pieces, getElem_toChunks hsize] using hget
  have hshort : (chunkAt (2 ^ j * 1024) i data).length ≤ 2 ^ j * 1024 := by
    rw [length_chunkAt]
    omega
  simp only [List.getElem_map, List.getElem_range, chunkHash, usesBlake3_power, hn, decide_false,
    Bool.not_true, Bool.false_eq_true, if_false, blake3ChunkLen]
  rw [Nat.mul_div_cancel _ (by norm_num)]
  exact hlib.chainingValue j i _ _ hshort hpiece

/-- The root of the tree of a file is the BLAKE3 hash of the file. -/
theorem contentTree_root (hH : H.Merges B) (hlib : H.IsBlake3 B leaf)
    (hmax : chunkCount data.length (2 ^ j * 1024) ≤ 1024 ^ 3) :
    ∃ tree, contentTree H (2 ^ j * 1024) data = .ok tree ∧
      tree.rootHash.hash = H.blake3 data := by
  have hsize : 0 < 2 ^ j * 1024 := by positivity
  by_cases hone : chunkCount data.length (2 ^ j * 1024) = 1
  · -- the value of an only chunk is the hash itself
    have hshort : data.length ≤ 2 ^ j * 1024 := by
      unfold chunkCount at hone
      have := Nat.div_add_mod (data.length + 2 ^ j * 1024 - 1) (2 ^ j * 1024)
      have := Nat.mod_lt (data.length + 2 ^ j * 1024 - 1) hsize
      by_contra hlong
      have : 2 ≤ (data.length + 2 ^ j * 1024 - 1) / (2 ^ j * 1024) := by
        rw [Nat.le_div_iff_mul_le hsize]
        omega
      omega
    refine ⟨⟨⟨H.blake3 data⟩, buildLevel [H.blake3 data], [], []⟩, ?_, rfl⟩
    have hchunk : chunkAt (2 ^ j * 1024) 0 data = data := by
      rw [chunkAt, Nat.zero_mul, List.drop_zero, List.take_of_length_le hshort]
    simp [contentTree, hone, buildTree, buildBlake3, chunkHash, usesBlake3_power, hchunk]
  · obtain ⟨values, hvalues⟩ :=
      Blake3.exists_pieces leaf B.mergeSubtreesNonRoot j 0 data
    have hhashes := chunkHashes_eq hlib hvalues hone
    have hlen : values.length = chunkCount data.length (2 ^ j * 1024) := by
      simpa using (congrArg List.length hhashes).symm
    have hpos : 0 < chunkCount data.length (2 ^ j * 1024) := by
      unfold chunkCount
      omega
    have hlong : 2 ^ j * 1024 < data.length := by
      by_contra hshort
      refine hone ?_
      unfold chunkCount
      have : (data.length + 2 ^ j * 1024 - 1) / (2 ^ j * 1024) < 2 := by
        rw [Nat.div_lt_iff_lt_mul hsize]
        omega
      omega
    obtain ⟨root, hroot⟩ := B.exists_mergeRoot (show 2 ≤ values.length by omega)
    obtain ⟨tree, hbuild, hhash⟩ :=
      buildBlake3_root hH (by omega) (by rw [hlen]; exact hmax) hroot
    rw [Blake3.mergeRoot_pieces hlong hvalues] at hroot
    refine ⟨tree, ?_, by rw [hhash, hlib.hash data root hroot]⟩
    have hne : Blake3Hazmat.bytesOf values ≠ [] := by
      rw [Ne, List.map_eq_nil_iff, ← List.length_eq_zero_iff]
      omega
    rw [contentTree, hhashes, buildTree, if_neg hne, if_pos (usesBlake3_power j), hbuild]

end ContentHasher

/-- The root the levels of lists give is `blake3_merge_as_root` of the flat list of chaining values,
for as many chunks as a hash tree can have; for more there is an error.  So where the chunks of a
file are a power of two of BLAKE3's, its root is the BLAKE3 hash of the file. -/
theorem buildBlake3_eq_flat {H : ContentHasher} {B : Blake3Hazmat} (hH : H.Merges B) :
    (∀ cvs : List Bytes, (∀ cv ∈ cvs, cv.length = 32) → 2 ≤ cvs.length →
      (cvs.length ≤ 1024 ^ 3 → ∃ root tree, B.blake3MergeAsRoot cvs = .ok root ∧
        H.buildBlake3 cvs = .ok tree ∧ tree.rootHash.hash = root) ∧
      (1024 ^ 3 < cvs.length → H.buildBlake3 cvs =
        protocolErr "Files bigger than 4 EiB are not supported in HashTree!")) ∧
    ∀ leaf, H.IsBlake3 B leaf → ∀ (j : ℕ) (data : Bytes),
      chunkCount data.length (2 ^ j * 1024) ≤ 1024 ^ 3 →
        ∃ tree, contentTree H (2 ^ j * 1024) data = .ok tree ∧
          tree.rootHash.hash = H.blake3 data := by
  refine ⟨fun cvs hcvs hn => ⟨fun hmax => ?_, ContentHasher.buildBlake3_too_long⟩,
    fun leaf hlib j data hmax => ContentHasher.contentTree_root hH hlib hmax⟩
  obtain ⟨vs, rfl⟩ := exists_bytesOf hcvs
  rw [List.length_map] at hn hmax
  obtain ⟨root, hroot⟩ := B.exists_mergeRoot hn
  obtain ⟨tree, hbuild, hhash⟩ := ContentHasher.buildBlake3_root hH hn hmax hroot
  exact ⟨root.1, tree, B.blake3MergeAsRoot_eq hn hroot, hbuild, by rw [hhash]⟩

/-- The nodes of BLAKE3. -/
def blake3Hazmat : Blake3Hazmat := ⟨Blake3.parentValue false, Blake3.parentValue true⟩

/-- The hashes of the crypto library. -/
def blake3Hasher : ContentHasher where
  sha256 := Sha256.sha256
  sha256_length := Sha256.length_sha256
  blake3 := fun data => (Blake3.hash data).1
  blake3ChainingValue := fun piece start =>
    ((Blake3.subtree (Blake3.chunkValue false) (Blake3.parentValue false) start piece).getD
      (Blake3.chunkValue false piece start)).1
  blake3MergeSubtree := fun cvs => (blake3Hazmat.blake3MergeSubtree cvs).toOption.getD []
  blake3MergeAsRoot := fun cvs => (blake3Hazmat.blake3MergeAsRoot cvs).toOption.getD []

theorem blake3Hasher_merges : blake3Hasher.Merges blake3Hazmat where
  subtree := fun cvs v h => by simp [blake3Hasher, h, Except.toOption]
  asRoot := fun cvs v h => by simp [blake3Hasher, h, Except.toOption]

theorem blake3Hasher_isBlake3 : blake3Hasher.IsBlake3 blake3Hazmat (Blake3.chunkValue false) where
  hash := by
    intro data v h
    simp only [blake3Hazmat] at h
    simp [blake3Hasher, Blake3.hash, h]
  chainingValue := by
    intro j k piece v _ h
    simp only [blake3Hazmat] at h
    simp [blake3Hasher, h]

/-- Two chaining values, and a file of three chunks. -/
theorem buildBlake3_eq_flat_samples :
    (∃ root tree,
      blake3Hazmat.blake3MergeAsRoot [List.replicate 32 1, List.replicate 32 2] = .ok root ∧
        blake3Hasher.buildBlake3 [List.replicate 32 1, List.replicate 32 2] = .ok tree ∧
        tree.rootHash.hash = root) ∧
    ∃ tree, contentTree blake3Hasher (2 ^ 1 * 1024) (List.replicate 5000 7) = .ok tree ∧
      tree.rootHash.hash = (Blake3.hash (List.replicate 5000 7)).1 := by
  have hcvs : ∀ cv ∈ [List.replicate 32 (1 : UInt8), List.replicate 32 2], cv.length = 32 := by
    simp
  obtain ⟨hflat, hfile⟩ := buildBlake3_eq_flat blake3Hasher_merges
  refine ⟨(hflat _ hcvs (by simp)).1 (by simp), hfile _ blake3Hasher_isBlake3 1 _ ?_⟩
  rw [List.length_replicate]
  decide

/-- One chunk more than a hash tree can have: the flat merge has a root, the levels give none. -/
theorem buildBlake3_limit : ∃ cvs : List Bytes, (∀ cv ∈ cvs, cv.length = 32) ∧ 2 ≤ cvs.length ∧
    (∃ root, blake3Hazmat.blake3MergeAsRoot cvs = .ok root) ∧
    ∀ tree, blake3Hasher.buildBlake3 cvs ≠ .ok tree := by
  have hlen : (List.replicate (1024 ^ 3 + 1) (List.replicate 32 (1 : UInt8))).length =
      1024 ^ 3 + 1 := List.length_replicate
  refine ⟨List.replicate (1024 ^ 3 + 1) (List.replicate 32 1), fun cv hcv => ?_, ?_, ?_, ?_⟩
  · rw [List.eq_of_mem_replicate hcv, List.length_replicate]
  · rw [hlen]
    norm_num
  · exact blake3Hazmat.exists_flat_root
      (fun cv hcv => by rw [List.eq_of_mem_replicate hcv, List.length_replicate])
      (by rw [hlen]; norm_num)
  · intro tree
    rw [ContentHasher.buildBlake3_too_long (by rw [hlen]; norm_num)]
    rintro ⟨⟩

end Peergos
