import PeergosClient.Fs.EditRuns

/-!
# Reading a section of a file

`read_file_section` fetches only the chunks that overlap a range.  Its offset and length are `u64`,
and their sum is clamped to the size of the file after it has been formed: a section that is asked
for "up to the end" with a length near the limit of `u64` is not read.  Every other section agrees
with the read of the whole file.
-/

namespace Peergos

open Chunks

/-! ## Arithmetic of `u64` -/

/-- What an operation on `u64` does with a result out of range: a build with overflow checks panics,
one without wraps around. -/
inductive Overflow where
  | checked
  | wrapping
  deriving DecidableEq, Repr

/-- The result of an operation on `u64`. -/
def Overflow.u64 (o : Overflow) (n : ℤ) : Result ℕ :=
  if 0 ≤ n ∧ n < 2 ^ 64 then .ok n.toNat
  else
    match o with
    | checked => .error .panic
    | wrapping => .ok (n % 2 ^ 64).toNat

/-- `Vec::with_capacity`: no more than `isize::MAX` bytes. -/
def withCapacity (n : ℕ) : Result Unit := if n < 2 ^ 63 then .ok () else .error .panic

/-- `&bytes[start..end]`. -/
def sliceOf (bytes : Bytes) (start stop : ℕ) : Result Bytes :=
  if start ≤ stop ∧ stop ≤ bytes.length then .ok (slice bytes start stop) else .error .panic

section Defs

variable (H : ContentHasher) (o : Overflow)

/-- What one chunk has of the range. -/
def sectionPart (offset stop chunkStart : ℕ) (chunk : Bytes) : Result Bytes := do
  let availEnd ← o.u64 (chunkStart + chunk.length)
  let ovStart := max offset chunkStart
  let ovEnd := min stop availEnd
  if ovStart < ovEnd then sliceOf chunk (ovStart - chunkStart) (ovEnd - chunkStart) else pure []

/-- The loop of `read_file_section` from `node` on. -/
def readSectionLoop (t : Tree) (rBaseKey : SymmetricKey) (props : FileProperties)
    (offset stop endChunk : ℕ) : ℕ → CryptreeNode → Bytes → Option Bat → ℕ → Result Bytes
  | 0, _, _, _, _ => .error .fuel
  | fuel + 1, node, mapKey, bat, chunkIndex => do
      let dataKey ← node.getDataKey rBaseKey
      let chunk ← getAndDecryptBytes node.childrenOrData dataKey
      let chunkStart ← o.u64 (chunkIndex * props.chunkSize)
      let part ← sectionPart o offset stop chunkStart chunk
      if chunkIndex = endChunk then pure part
      else
        match props.streamSecret with
        | none => protocolErr "multi-chunk file without a stream secret"
        | some streamSecret => do
            let (mapKey, bat) ← calculateNextMapKey H streamSecret mapKey bat
            match fetchChunkNode t rBaseKey mapKey with
            | none => protocolErr "chunk not found"
            | some node => do
                let chunkIndex ← o.u64 (chunkIndex + 1)
                let rest ← readSectionLoop t rBaseKey props offset stop endChunk fuel node mapKey
                  bat chunkIndex
                pure (part ++ rest)

/-- The first chunk of the range: chunk 0 is at hand. -/
def sectionStart (t : Tree) (cap : AbsoluteCapability) (first : CryptreeNode)
    (props : FileProperties) (startChunk : ℕ) : Result (Bytes × Option Bat × CryptreeNode) :=
  if startChunk = 0 then .ok (cap.mapKey, cap.bat, first)
  else
    match props.streamSecret with
    | none => protocolErr "multi-chunk file without a stream secret"
    | some streamSecret => do
        let (mapKey, bat) ← advanceMapKey H streamSecret cap.mapKey cap.bat startChunk
        match fetchChunkNode t cap.rBaseKey mapKey with
        | none => protocolErr "chunk not found"
        | some node => .ok (mapKey, bat, node)

/-- `read_file_section`, in a file with these properties. -/
def readSection (fuel : ℕ) (t : Tree) (cap : AbsoluteCapability) (first : CryptreeNode)
    (props : FileProperties) (offset length : ℕ) : Result Bytes :=
  if length = 0 ∨ props.size ≤ offset then pure []
  else do
    let sum ← o.u64 (offset + length)
    let stop := min sum props.size
    if props.chunkSize = 0 then .error .panic
    else do
      let startChunk := offset / props.chunkSize
      let last ← o.u64 ((stop : ℤ) - 1)
      let endChunk := last / props.chunkSize
      let (mapKey, bat, node) ← sectionStart H t cap first props startChunk
      let capacity ← o.u64 ((stop : ℤ) - offset)
      withCapacity capacity
      readSectionLoop H o t cap.rBaseKey props offset stop endChunk fuel node mapKey bat startChunk

/-- `read_file_section`. -/
def readFileSection (fuel : ℕ) (net : Network) (cap : AbsoluteCapability) (offset length : ℕ) :
    Result Bytes := do
  let t ← openWriterRoot net cap.writer
  match fetchChunkNode t cap.rBaseKey cap.mapKey with
  | none => protocolErr "map key not found in tree"
  | some first =>
      if first.isDirectory then protocolErr "capability points to a directory, not a file"
      else do
        let props ← first.getProperties cap.rBaseKey
        readSection H o fuel t cap first props offset length

end Defs

theorem Overflow.u64_ofNat (o : Overflow) {n : ℕ} (h : n < 2 ^ 64) : o.u64 n = .ok n := by
  unfold Overflow.u64
  rw [if_pos (by omega), Int.toNat_natCast]

/-! ## A section that is read -/

namespace HoldsFile

variable {H : ContentHasher} {o : Overflow} {limit : ℕ} {f : FileHandle} {t : Tree}
  {parts : ℕ → ChunkParts} {content : Bytes}

/-- What a chunk of the range gives. -/
theorem sectionPart_eq (hsize : content.length < 2 ^ 64) {offset stop i : ℕ}
    (hstop : stop ≤ content.length) (hlow : max offset (i * f.chunkSize) < stop)
    (hhigh : offset < i * f.chunkSize + f.chunkSize) :
    sectionPart o offset stop (i * f.chunkSize) (chunkAt f.chunkSize i content) =
      .ok (slice content (max offset (i * f.chunkSize))
        (min stop (i * f.chunkSize + f.chunkSize))) := by
  have hlen := length_chunkAt f.chunkSize i content
  have hslice := slice_chunkAt (l := content) (le_max_right offset (i * f.chunkSize))
    (min_le_right stop (i * f.chunkSize + f.chunkSize))
  generalize i * f.chunkSize = start at hlow hhigh hlen hslice ⊢
  have havail : start + (chunkAt f.chunkSize i content).length =
      min (start + f.chunkSize) content.length := by omega
  have hend : min stop (min (start + f.chunkSize) content.length) =
      min stop (start + f.chunkSize) := by omega
  unfold sectionPart
  rw [← Nat.cast_add, o.u64_ofNat (by omega), ok_bind, havail]
  dsimp only
  have hpart : max offset start < min stop (start + f.chunkSize) :=
    lt_min hlow (max_lt hhigh (Nat.lt_add_of_pos_right f.chunkSize_pos))
  have hwithin : min stop (start + f.chunkSize) - start ≤ (chunkAt f.chunkSize i content).length := by
    have hleft := min_le_left stop (start + f.chunkSize)
    have hright := min_le_right stop (start + f.chunkSize)
    omega
  rw [hend, if_pos hpart, sliceOf, if_pos ⟨Nat.sub_le_sub_right hpart.le _, hwithin⟩, hslice]

/-- The loop from chunk `i` on. -/
theorem readSectionLoop_eq (h : HoldsFile H limit f t parts content)
    (hsize : content.length < 2 ^ 64) {offset stop fuel i : ℕ} (hstop : stop ≤ content.length)
    (hlow : max offset (i * f.chunkSize) < stop) (hhigh : offset < i * f.chunkSize + f.chunkSize)
    (hfuel : chunkCount content.length f.chunkSize ≤ i + fuel) :
    readSectionLoop H o t f.cap.rBaseKey (parts 0).props offset stop ((stop - 1) / f.chunkSize) fuel
        ((parts i).node f.cap.rBaseKey f.dataKey (chunkAt f.chunkSize i content))
        (f.key H i) (chunkBat H f.streamSecret f.cap.bat i) i =
      .ok (slice content (max offset (i * f.chunkSize)) stop) := by
  have hc := f.chunkSize_pos
  induction fuel generalizing i with
  | zero =>
      have hi : i < chunkCount content.length f.chunkSize :=
        (lt_chunkCount_iff hc).2 (Or.inr (by omega))
      omega
  | succ fuel ih =>
      have hi : i < chunkCount content.length f.chunkSize :=
        (lt_chunkCount_iff hc).2 (Or.inr (by omega))
      unfold readSectionLoop
      rw [ChunkParts.getDataKey_node, ok_bind, ChunkParts.getAndDecryptBytes_node, ok_bind,
        h.chunkSize, ← Nat.cast_mul, o.u64_ofNat (by omega), ok_bind,
        sectionPart_eq hsize hstop hlow hhigh, ok_bind]
      have hlast : i = (stop - 1) / f.chunkSize ↔ stop ≤ i * f.chunkSize + f.chunkSize := by
        rw [eq_comm, Nat.div_eq_iff hc]
        omega
      by_cases hend : stop ≤ i * f.chunkSize + f.chunkSize
      · rw [if_pos (hlast.2 hend), min_eq_left hend]
        rfl
      · rw [if_neg fun heq => hend (hlast.1 heq), min_eq_right (by omega)]
        have hnext : i + 1 < chunkCount content.length f.chunkSize :=
          (lt_chunkCount_iff hc).2 (Or.inr (by rw [Nat.succ_mul]; omega))
        have hrest := ih (i := i + 1) (by rw [Nat.succ_mul]; omega) (by rw [Nat.succ_mul]; omega)
          (by omega)
        have hindex : i + 1 < 2 ^ 64 := by
          have := Nat.le_mul_of_pos_right (i + 1) hc
          rw [Nat.succ_mul] at this
          omega
        have hkey := calculateNextMapKey_chunk H f.streamSecret f.cap.mapKey f.cap.bat i
        rw [h.streamSecret]
        dsimp only
        rw [FileHandle.key, hkey, ok_bind]
        dsimp only
        rw [show fetchChunkNode t f.cap.rBaseKey
          (chunkKey H f.streamSecret f.cap.mapKey (i + 1)) = _ from h.fetch hnext]
        dsimp only
        rw [← Nat.cast_succ, o.u64_ofNat hindex, ok_bind]
        rw [Nat.succ_mul, max_eq_right (by omega)] at hrest
        rw [FileHandle.key] at hrest
        rw [hrest, ok_bind]
        exact congrArg Except.ok (slice_append (by omega) (by omega))

/-- The range is a section of the file that is not empty, and its end is a `u64`. -/
theorem readSection_eq (h : HoldsFile H limit f t parts content)
    (hsize : content.length < 2 ^ 64) {offset length fuel : ℕ} (hlength : length ≠ 0)
    (hoffset : offset < content.length) (hsum : offset + length < 2 ^ 64)
    (hcapacity : min (offset + length) content.length - offset < 2 ^ 63)
    (hfuel : chunkCount content.length f.chunkSize ≤ fuel) :
    readSection H o fuel t f.cap
        ((parts 0).node f.cap.rBaseKey f.dataKey (chunkAt f.chunkSize 0 content)) (parts 0).props
        offset length =
      .ok (slice content offset (min (offset + length) content.length)) := by
  have hc := f.chunkSize_pos
  have hdiv := Nat.div_add_mod' offset f.chunkSize
  have hmod := Nat.mod_lt offset hc
  have hstart : sectionStart H t f.cap
      ((parts 0).node f.cap.rBaseKey f.dataKey (chunkAt f.chunkSize 0 content)) (parts 0).props
      (offset / f.chunkSize) =
      .ok (f.key H (offset / f.chunkSize), chunkBat H f.streamSecret f.cap.bat (offset / f.chunkSize),
        (parts (offset / f.chunkSize)).node f.cap.rBaseKey f.dataKey
          (chunkAt f.chunkSize (offset / f.chunkSize) content)) := by
    unfold sectionStart
    split
    · rename_i hzero
      rw [hzero]
      rfl
    · rw [h.streamSecret]
      dsimp only
      rw [advanceMapKey_eq, ok_bind]
      dsimp only
      have hi : offset / f.chunkSize < chunkCount content.length f.chunkSize :=
        (lt_chunkCount_iff hc).2 (Or.inr (by omega))
      rw [show fetchChunkNode t f.cap.rBaseKey
        (chunkKey H f.streamSecret f.cap.mapKey (offset / f.chunkSize)) = _ from h.fetch hi]
      rfl
  unfold readSection
  rw [h.size, if_neg (by omega), ← Nat.cast_add, o.u64_ofNat hsum, ok_bind]
  dsimp only
  have hpred : ((min (offset + length) content.length : ℕ) : ℤ) - 1 =
      ((min (offset + length) content.length - 1 : ℕ) : ℤ) := by omega
  have hwidth : ((min (offset + length) content.length : ℕ) : ℤ) - offset =
      ((min (offset + length) content.length - offset : ℕ) : ℤ) := by omega
  rw [h.chunkSize, if_neg hc.ne', hpred, o.u64_ofNat (by omega), ok_bind, hstart, ok_bind, hwidth,
    o.u64_ofNat (by omega), ok_bind, withCapacity, if_pos hcapacity, ok_bind]
  have hloop : readSectionLoop H o t f.cap.rBaseKey (parts 0).props offset
      (min (offset + length) content.length)
      ((min (offset + length) content.length - 1) / f.chunkSize) fuel
      ((parts (offset / f.chunkSize)).node f.cap.rBaseKey f.dataKey
        (chunkAt f.chunkSize (offset / f.chunkSize) content)) (f.key H (offset / f.chunkSize))
      (chunkBat H f.streamSecret f.cap.bat (offset / f.chunkSize)) (offset / f.chunkSize) = _ :=
    h.readSectionLoop_eq hsize (by omega) (by omega) (by omega)
      (hfuel.trans (Nat.le_add_left _ _))
  rw [max_eq_left (by omega)] at hloop
  exact hloop

end HoldsFile

/-! ## A sum out of range -/

section OutOfRange

variable {H : ContentHasher} {o : Overflow} {t : Tree} {props : FileProperties} {offset stop : ℕ}

/-- A range that ends before it begins has nothing in a chunk. -/
theorem sectionPart_of_stop_le (h : stop ≤ offset) {chunkStart : ℕ} {chunk part : Bytes}
    (hpart : sectionPart o offset stop chunkStart chunk = .ok part) : part = [] := by
  obtain ⟨availEnd, -, hpart⟩ := bind_eq_ok.1 hpart
  dsimp only at hpart
  rw [if_neg (by omega)] at hpart
  cases hpart
  rfl

theorem readSectionLoop_of_stop_le (h : stop ≤ offset) {rBaseKey : SymmetricKey}
    {endChunk fuel chunkIndex : ℕ} {node : CryptreeNode} {mapKey : Bytes} {bat : Option Bat}
    {out : Bytes} (hrun : readSectionLoop H o t rBaseKey props offset stop endChunk fuel node mapKey
      bat chunkIndex = .ok out) : out = [] := by
  induction fuel generalizing node mapKey bat chunkIndex out with
  | zero => cases hrun
  | succ fuel ih =>
      rw [readSectionLoop] at hrun
      obtain ⟨dataKey, -, hrun⟩ := bind_eq_ok.1 hrun
      obtain ⟨chunk, -, hrun⟩ := bind_eq_ok.1 hrun
      obtain ⟨chunkStart, -, hrun⟩ := bind_eq_ok.1 hrun
      obtain ⟨part, hpart, hrun⟩ := bind_eq_ok.1 hrun
      have hnil := sectionPart_of_stop_le h hpart
      subst hnil
      split at hrun
      · cases hrun
        rfl
      · split at hrun
        · cases hrun
        · obtain ⟨next, -, hrun⟩ := bind_eq_ok.1 hrun
          dsimp only at hrun
          split at hrun
          · cases hrun
          · obtain ⟨index, -, hrun⟩ := bind_eq_ok.1 hrun
            obtain ⟨rest, hrest, hrun⟩ := bind_eq_ok.1 hrun
            cases hrun
            exact ih hrest

/-- A sum of two `u64` that is out of range is no end after the offset. -/
theorem lt_of_u64_add {length sum : ℕ} (hlength : length < 2 ^ 64)
    (hover : 2 ^ 64 ≤ offset + length) (hoffset : offset < 2 ^ 64)
    (h : o.u64 (offset + length) = .ok sum) : sum < offset := by
  unfold Overflow.u64 at h
  rw [if_neg (by omega)] at h
  cases o with
  | checked => cases h
  | wrapping =>
      have hsum := Except.ok.inj h
      omega

theorem readSection_out_of_range {fuel length : ℕ} {cap : AbsoluteCapability} {first : CryptreeNode}
    {out : Bytes} (hlength : length < 2 ^ 64) (hoffset : offset < 2 ^ 64)
    (hsize : offset < props.size)
    (hover : 2 ^ 64 ≤ offset + length ∨ 2 ^ 63 ≤ min (offset + length) props.size - offset)
    (hrun : readSection H o fuel t cap first props offset length = .ok out) : out = [] := by
  unfold readSection at hrun
  rw [if_neg (by omega)] at hrun
  obtain ⟨sum, hsum, hrun⟩ := bind_eq_ok.1 hrun
  dsimp only at hrun
  split at hrun
  · cases hrun
  · obtain ⟨last, -, hrun⟩ := bind_eq_ok.1 hrun
    obtain ⟨start, -, hrun⟩ := bind_eq_ok.1 hrun
    obtain ⟨capacity, hcapacity, hrun⟩ := bind_eq_ok.1 hrun
    obtain ⟨⟨⟩, hroom, hrun⟩ := bind_eq_ok.1 hrun
    rcases le_or_gt (2 ^ 64) (offset + length) with hout | hin
    · have hlt := lt_of_u64_add hlength hout hoffset hsum
      exact readSectionLoop_of_stop_le ((min_le_left _ _).trans hlt.le) hrun
    · -- a section of more than `isize::MAX` bytes does not fit a `Vec`
      rw [← Nat.cast_add, o.u64_ofNat hin] at hsum
      cases hsum
      have hwidth : ((min (offset + length) props.size : ℕ) : ℤ) - offset =
          ((min (offset + length) props.size - offset : ℕ) : ℤ) := by omega
      rw [hwidth, o.u64_ofNat (by omega)] at hcapacity
      cases hcapacity
      rw [withCapacity, if_neg (by omega)] at hroom
      cases hroom

end OutOfRange

/-! ## Section reads agree with whole reads -/

/-- A section that is read right: it is empty, or it ends within `u64` and fits a `Vec`. -/
def SectionReadable (size offset length : ℕ) : Prop :=
  length = 0 ∨ size ≤ offset ∨
    (offset + length < 2 ^ 64 ∧ min (offset + length) size - offset < 2 ^ 63)

/-- The section read gives the bytes from `offset` on, `length` of them at most, that the whole
read gives. -/
def SectionAgrees (H : ContentHasher) (o : Overflow) (fuel : ℕ) (net : Network)
    (cap : AbsoluteCapability) (offset length : ℕ) : Prop :=
  ∃ props data, readFile H fuel net cap = .ok (props, data) ∧
    readFileSection H o fuel net cap offset length =
      .ok (slice data (min offset data.length) (min (offset + length) data.length))

/-- A section of a stored file is read right just if it is readable. -/
theorem HoldsFile.sectionAgrees_iff {H : ContentHasher} {o : Overflow} {limit : ℕ} {f : FileHandle}
    {t : Tree} {parts : ℕ → ChunkParts} {content : Bytes} (h : HoldsFile H limit f t parts content)
    {net : Network} (hnet : net f.cap.writer = some t) (hsize : content.length < 2 ^ 64)
    {offset length fuel : ℕ} (hoffset : offset < 2 ^ 64) (hlength : length < 2 ^ 64)
    (hfuel : chunkCount content.length f.chunkSize ≤ fuel) :
    SectionAgrees H o fuel net f.cap offset length ↔
      SectionReadable content.length offset length := by
  have hfile := h.readFile_eq hnet hfuel
  have hsection : readFileSection H o fuel net f.cap offset length =
      readSection H o fuel t f.cap
        ((parts 0).node f.cap.rBaseKey f.dataKey (chunkAt f.chunkSize 0 content)) (parts 0).props
        offset length := by
    unfold readFileSection
    rw [show openWriterRoot net f.cap.writer = .ok t by rw [openWriterRoot, hnet], ok_bind,
      h.fetch_first]
    dsimp only
    rw [ChunkParts.isDirectory_node, if_neg Bool.false_ne_true, ChunkParts.getProperties_node,
      ok_bind]
  have hagrees : SectionAgrees H o fuel net f.cap offset length ↔
      readFileSection H o fuel net f.cap offset length =
        .ok (slice content (min offset content.length) (min (offset + length) content.length)) := by
    constructor
    · rintro ⟨props, data, hread, hagrees⟩
      rw [hfile] at hread
      cases hread
      exact hagrees
    · exact fun hread => ⟨_, _, hfile, hread⟩
  rw [hagrees, hsection]
  by_cases hempty : length = 0 ∨ content.length ≤ offset
  · have hnil : slice content (min offset content.length) (min (offset + length) content.length) =
        [] := slice_eq_nil (by omega)
    rw [hnil, readSection, h.size, if_pos hempty]
    exact iff_of_true rfl (hempty.imp_right Or.inl)
  · rw [not_or, not_le] at hempty
    rw [min_eq_left hempty.2.le]
    constructor
    · intro hread
      refine Or.inr (Or.inr ?_)
      by_contra hover
      rw [not_and_or, not_lt, not_lt] at hover
      have hnil := readSection_out_of_range hlength hoffset (h.size ▸ hempty.2)
        (h.size ▸ hover) hread
      have hlen := congrArg List.length hnil
      rw [length_slice, List.length_nil] at hlen
      omega
    · rintro (hzero | hpast | ⟨hsum, hcapacity⟩)
      · exact absurd hzero hempty.1
      · omega
      · exact h.readSection_eq hsize hempty.1 hempty.2 hsum hcapacity hfuel

section Uploads

variable {H : ContentHasher} {limit : ℕ} {media : Media} {dir : DirParams} {r : UploadRequest}
  {reader : Bytes} {net net₁ : Network} {cap : AbsoluteCapability}

/-- A section of an uploaded file agrees with the whole just if it is readable. -/
theorem uploaded_sectionAgrees_iff (mode : UploadMode)
    (hnew : ∀ t, net r.dirCap.writer = some t → NewKeys H limit r.keys dir.fresh t)
    (hupload : mode.upload H media dir r reader net = (.ok cap, net₁))
    (hlimit : chunkCount (reader.take r.size).length (mode.chunkSize r) ≤ limit)
    (hsize : (reader.take r.size).length < 2 ^ 64) (o : Overflow) {offset length fuel : ℕ}
    (hoffset : offset < 2 ^ 64) (hlength : length < 2 ^ 64) (hfuel : limit ≤ fuel) :
    SectionAgrees H o fuel net₁ cap offset length ↔
      SectionReadable (reader.take r.size).length offset length := by
  obtain ⟨f, rfl, -, hc, -, -, t, parts, hnet, hholds, -⟩ := mode.upload_ok hnew hlimit hupload
  exact hholds.sectionAgrees_iff hnet hsize hoffset hlength (hc ▸ hlimit.trans hfuel)

end Uploads

theorem uploaded_sectionAgrees_threeBytes :
    SectionAgrees legacyHasher .wrapping 2 afterThreeBytes rootFileCap 1 (2 ^ 64 - 2) ↔
      SectionReadable 3 1 (2 ^ 64 - 2) := by
  have hupload : UploadMode.newFile.upload legacyHasher plainMedia rootParams threeBytes [1, 2, 3]
      rootNetwork = (.ok rootFileCap, afterThreeBytes) :=
    Prod.ext (eq_ok_of_toOption (by decide +kernel)) rfl
  exact uploaded_sectionAgrees_iff .newFile (newKeys_rootUpload "a" 3) hupload (by decide)
    (by decide) .wrapping (by decide) (by decide) le_rfl

/-- The rest of a file of three bytes from the second on, asked for with the largest length: either
build panics. -/
theorem section_to_the_end_not_read :
    ¬ SectionAgrees legacyHasher .wrapping 2 afterThreeBytes rootFileCap 1 (2 ^ 64 - 1) ∧
      ¬ SectionAgrees legacyHasher .checked 2 afterThreeBytes rootFileCap 1 (2 ^ 64 - 1) := by
  constructor
  · rintro ⟨props, data, -, hread⟩
    have hpanic : (readFileSection legacyHasher .wrapping 2 afterThreeBytes rootFileCap 1
        (2 ^ 64 - 1)).toOption = none := by decide +kernel
    rw [hread] at hpanic
    cases hpanic
  · rintro ⟨props, data, -, hread⟩
    have hpanic : (readFileSection legacyHasher .checked 2 afterThreeBytes rootFileCap 1
        (2 ^ 64 - 1)).toOption = none := by decide +kernel
    rw [hread] at hpanic
    cases hpanic

end Peergos
