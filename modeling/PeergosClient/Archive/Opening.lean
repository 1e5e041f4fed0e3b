import PeergosClient.Archive.Parse

/-!
# Opening any bytes

Every number that `ZipReader::open` reads is checked before it is used as an index or a length, and
sums of them stay below 2⁶⁴: lengths have at most 16 bits, and what has 64 bits is refused from 2⁶³
on.  One sum is left.  The offset of a local header is shifted by the bytes in front of the archive,
as an `i64`, and a record may give an offset so close to 2⁶³ that the sum is not one.
-/

namespace Peergos

open Chunks ByteOrder Outcome

variable {o : Overflow} {d : Bytes}

-- otherwise elaboration evaluates the loop as far as it can
attribute [local irreducible] recordsFrom

/-! ## What the accessors give -/

theorem leAt_lt (width : ℕ) (d : Bytes) (i : ℕ) : leAt width d i < 256 ^ width := by
  refine (ofLe_lt _).trans_le (Nat.pow_le_pow_right (by norm_num) ?_)
  rw [length_slice]
  omega

theorem readLe_eq {width i : ℕ} (h : i + width ≤ d.length) :
    readLe width d i = .ok (leAt width d i) := if_pos h

theorem u16At_eq {i : ℕ} (h : i + 2 ≤ d.length) : u16At d i = .ok (leAt 2 d i) := readLe_eq h

theorem u32At_eq {i : ℕ} (h : i + 4 ≤ d.length) : u32At d i = .ok (leAt 4 d i) := readLe_eq h

theorem u64At_ensures {i : ℕ} (h : i + 8 ≤ d.length) :
    Ensures (u64At d i) (· < 2 ^ 63) Fault.IsErr := by
  rw [u64At, readLe_eq h, ok_bind]
  split
  · exact ensures_protocolErr _ _
  · rename_i hv
    show leAt 8 d i < 2 ^ 63
    omega

theorem sliceOf_eq {a b : ℕ} (hab : a ≤ b) (hb : b ≤ d.length) :
    sliceOf d a b = .ok (slice d a b) := if_pos ⟨hab, hb⟩

theorem Overflow.i64_eq (o : Overflow) {n : ℤ} (h : -2 ^ 63 ≤ n) (hlt : n < 2 ^ 63) :
    o.i64 n = .ok n := if_pos ⟨h, hlt⟩

theorem Overflow.u64_eq (o : Overflow) {n : ℤ} (h : 0 ≤ n) (hlt : n < 2 ^ 64) :
    o.u64 n = .ok n.toNat := if_pos ⟨h, hlt⟩

theorem asI64_eq {n : ℕ} (h : n < 2 ^ 63) : asI64 n = n := Int.bmod_eq_of_le (by omega) (by omega)

/-! ## A record of the central directory -/

section Records

variable {crc32 : Bytes → ℕ}

/-- Every byte has a character. -/
theorem exists_decodeCp437 (b : UInt8) : ∃ c, decodeCp437 b = .ok c := by
  unfold decodeCp437
  split
  · exact ⟨_, rfl⟩
  · have hlen : cp437High.length = 128 := by decide +kernel
    have hb := b.toNat_lt
    rw [List.getElem?_eq_getElem (by omega)]
    exact ⟨_, rfl⟩

theorem decodeName_ensures (raw : Bytes) (utf8 : Bool) :
    Ensures (decodeName raw utf8) (fun _ => True) Fault.IsErr := by
  unfold decodeName
  split
  · split
    · exact True.intro
    · exact ensures_protocolErr _ _
  · suffices h : ∃ name, raw.mapM decodeCp437 = .ok name by
      obtain ⟨name, hname⟩ := h
      rw [hname]
      exact True.intro
    induction raw with
    | nil => exact ⟨[], rfl⟩
    | cons b raw ih =>
        obtain ⟨c, hc⟩ := exists_decodeCp437 b
        obtain ⟨name, hname⟩ := ih
        exact ⟨c :: name, by rw [List.mapM_cons, hc, ok_bind, hname]; rfl⟩

/-- The sizes and the offset are numbers that `u64_at` lets pass. -/
structure ExtraState.Fits (s : ExtraState) : Prop where
  size : s.size < 2 ^ 63
  compressedSize : s.compressedSize < 2 ^ 63
  localHeaderOffset : s.localHeaderOffset < 2 ^ 63

theorem zip64Field_ensures {limit at' v : ℕ} (hlimit : limit ≤ d.length) (hv : v < 2 ^ 63) :
    Ensures (zip64Field d limit at' v) (fun r => r.1 < 2 ^ 63) Fault.IsErr := by
  unfold zip64Field
  split
  · rename_i h
    exact (u64At_ensures (by omega)).bind fun v hv => hv
  · exact hv

theorem readExtra_ensures (utf8 : Bool) {nameStart extraStart : ℕ} (id : ℕ) {body len : ℕ}
    {s : ExtraState} (hname : nameStart ≤ extraStart) (hstart : extraStart ≤ body)
    (hbody : body + len ≤ d.length) (hs : s.Fits) :
    Ensures (readExtra crc32 d utf8 nameStart extraStart id body len s) ExtraState.Fits
      Fault.IsErr := by
  unfold readExtra
  split
  · refine (zip64Field_ensures hbody hs.size).bind fun size hsize => ?_
    refine (zip64Field_ensures hbody hs.compressedSize).bind fun compressed hcompressed => ?_
    refine (zip64Field_ensures hbody hs.localHeaderOffset).bind fun offset hoffset => ?_
    exact ⟨hsize, hcompressed, hoffset⟩
  · split
    · rename_i h
      rw [readLe_eq (by omega), ok_bind]
      split
      · rw [sliceOf_eq hname (by omega), ok_bind, u32At_eq (by omega), ok_bind]
        split
        · rw [sliceOf_eq (by omega) hbody, ok_bind]
          exact (decodeName_ensures _ _).bind fun rawName _ => ⟨hs.1, hs.2, hs.3⟩
        · exact hs
      · exact hs
    · split
      · rename_i h
        rw [readLe_eq (by omega), ok_bind]
        split
        · rw [i32At, readLe_eq (by omega), ok_bind]
          exact ⟨hs.1, hs.2, hs.3⟩
        · exact hs
      · exact hs

/-- The extra fields end: each starts at least four bytes after the one before it. -/
theorem readExtras_ensures (utf8 : Bool) {nameStart extraStart stop fuel i : ℕ} {s : ExtraState}
    (hname : nameStart ≤ extraStart) (hstart : extraStart ≤ i) (hi : i ≤ stop)
    (hstop : stop ≤ d.length) (hfuel : stop < i + fuel) (hs : s.Fits) :
    Ensures (readExtras crc32 d utf8 nameStart extraStart stop fuel i s) ExtraState.Fits
      Fault.IsErr := by
  induction fuel generalizing i s with
  | zero => omega
  | succ fuel ih =>
      rw [readExtras]
      split
      · rename_i hnext
        rw [u16At_eq (by omega), ok_bind, u16At_eq (by omega), ok_bind]
        dsimp only
        split
        · exact hs
        · rename_i hbody
          refine (readExtra_ensures utf8 _ hname (by omega) (by omega) hs).bind fun s hs => ?_
          exact ih (by omega) (by omega) (by omega) hs
      · exact hs

/-- What is read of an entry before its offset is shifted. -/
structure ZipEntry.IsParsed (e : ZipEntry) : Prop where
  path : ZipIndex.IsEntryPath e.path
  compressedSize : e.compressedSize < 2 ^ 63
  offset_nonneg : 0 ≤ e.localHeaderOffset
  offset_lt : e.localHeaderOffset < 2 ^ 63

/-- The record at this offset ends within the directory. -/
def RecordFits (d : Bytes) (offset : ℕ) : Prop :=
  offset + centralHeaderSize + leAt 2 d (offset + 28) + leAt 2 d (offset + 30) ≤ d.length

variable (crc32) in
theorem parseRecord_ensures {offset : ℕ} (h : RecordFits d offset) :
    Ensures (parseRecord crc32 d offset) (fun e => ∀ e' ∈ e, e'.IsParsed) Fault.IsErr := by
  have hfits : offset + 46 + leAt 2 d (offset + 28) + leAt 2 d (offset + 30) ≤ d.length := h
  have h4 : ∀ i, leAt 4 d i < 2 ^ 63 := fun i => (leAt_lt 4 d i).trans (by norm_num)
  unfold parseRecord
  rw [u32At_eq (by omega), ok_bind]
  split
  · exact ensures_protocolErr _ _
  · simp (disch := omega) only [u16At_eq, u32At_eq, ok_bind, centralHeaderSize]
    rw [sliceOf_eq (by omega) (by omega), ok_bind]
    refine (decodeName_ensures _ _).bind fun rawName _ => ?_
    refine (readExtras_ensures _ (by omega) le_rfl (by omega) (by omega) (by omega)
      ⟨h4 _, h4 _, h4 _⟩).bind fun s hs => ?_
    split
    · rename_i path hpath
      split
      · intro e he
        cases he
      · rename_i hne
        rintro e he
        cases he
        refine ⟨⟨hne, _, hpath⟩, ?_, Int.natCast_nonneg _, ?_⟩
        · dsimp only
          split
          · norm_num
          · exact hs.compressedSize
        · have hoffset := hs.localHeaderOffset
          show (s.localHeaderOffset : ℤ) < 2 ^ 63
          omega
    · intro e he
      cases he

theorem records_ensures (o : Overflow) {cd : Bytes} (hcd : cd.length < 2 ^ 64) :
    Ensures (records o cd) (fun recs => ∀ r ∈ recs, RecordFits cd r.1) Fault.IsErr := by
  suffices h : ∀ fuel pos, pos ≤ cd.length → cd.length < pos + fuel →
      Ensures (recordsFrom o cd fuel pos) (fun recs => ∀ r ∈ recs, RecordFits cd r.1)
        Fault.IsErr by
    unfold records
    exact h (cd.length + 1) 0 (Nat.zero_le _) (by omega)
  have hnone : ∀ r ∈ ([] : List (ℕ × ℕ)), RecordFits cd r.1 := by simp
  intro fuel
  induction fuel with
  | zero =>
      intro pos hpos hfuel
      omega
  | succ fuel ih =>
      intro pos hpos hfuel
      have hleft : ((cd.length : ℤ) - pos).toNat = cd.length - pos := by omega
      rw [recordsFrom, o.u64_eq (by omega) (by omega), ok_bind, hleft]
      split
      · rename_i hheader
        simp only [centralHeaderSize] at hheader
        rw [u32At_eq (by omega), ok_bind]
        split
        · simp (disch := omega) only [u16At_eq, ok_bind]
          split
          · exact hnone
          · rename_i hlen
            simp only [centralHeaderSize] at hlen
            refine (ih _ (by simp only [centralHeaderSize]; omega)
              (by simp only [centralHeaderSize]; omega)).bind fun recs hall => ?_
            intro r hr
            rcases List.mem_cons.1 hr with rfl | hr
            · show pos + 46 + leAt 2 cd (pos + 28) + leAt 2 cd (pos + 30) ≤ cd.length
              omega
            · exact hall r hr
        · exact hnone
      · exact hnone

end Records

/-! ## Where the central directory is -/

variable {f : ArchiveFile}

/-- An exact read gives bytes that are there. -/
theorem readExact_ensures {offset len : ℕ} (h : f.size ≤ offset ∨ offset + len < 2 ^ 64) :
    Ensures (f.readExact o offset len)
      (fun bytes => bytes.length = len ∧
        (0 < len → offset + len ≤ f.content.length ∧ offset + len ≤ f.size)) Fault.IsErr := by
  have hpure : ∀ bytes : Bytes, (pure bytes : Result Bytes) = .ok bytes := fun _ => rfl
  unfold ArchiveFile.readExact ArchiveFile.readSection
  split
  · rw [hpure, ok_bind, List.length_nil]
    split
    · exact ensures_protocolErr _ _
    · exact ⟨by show 0 = len; omega, by omega⟩
  · rename_i hread
    rw [← Nat.cast_add, o.u64_ofNat (by omega), ok_bind, hpure, ok_bind]
    split
    · exact ensures_protocolErr _ _
    · rename_i heq
      rw [not_not] at heq
      have hslice := length_slice f.content offset (min (offset + len) f.size)
      exact ⟨heq, fun _ => by omega⟩

theorem findCandidate_ok {test : ℕ → Result Bool} {l : List ℕ}
    (h : ∀ i ∈ l, ∃ b, test i = .ok b) :
    ∃ r, findCandidate test l = .ok r ∧ ∀ i ∈ r, i ∈ l := by
  induction l with
  | nil => exact ⟨none, rfl, by simp⟩
  | cons i l ih =>
      obtain ⟨b, hb⟩ := h i List.mem_cons_self
      obtain ⟨r, hr, hmem⟩ := ih fun i hi => h i (List.mem_cons_of_mem _ hi)
      rw [findCandidate, hb, ok_bind]
      cases b with
      | true => exact ⟨some i, rfl, by simp⟩
      | false => exact ⟨r, hr, fun i hi => List.mem_cons_of_mem _ (hmem i hi)⟩

/-- The end record that is found lies within what was searched. -/
theorem findEocd_ok (tail : Bytes) :
    ∃ r, findEocd tail = .ok r ∧ ∀ i ∈ r, i + eocdSize ≤ tail.length := by
  have h22 : eocdSize = 22 := rfl
  unfold findEocd
  split
  · exact ⟨none, rfl, by simp⟩
  · have hcandidate : ∀ i ∈ (List.range (tail.length - eocdSize + 1)).reverse,
        i + eocdSize ≤ tail.length := by
      intro i hi
      rw [List.mem_reverse, List.mem_range] at hi
      omega
    have hexact : ∀ i ∈ (List.range (tail.length - eocdSize + 1)).reverse,
        ∃ b, isExactEocd tail i = .ok b := by
      intro i hi
      have hfits := hcandidate i hi
      rw [isExactEocd, u32At_eq (by omega), ok_bind]
      split
      · rw [u16At_eq (by omega), ok_bind]
        exact ⟨_, rfl⟩
      · exact ⟨_, rfl⟩
    have hany : ∀ i ∈ (List.range (tail.length - eocdSize + 1)).reverse,
        ∃ b, isEocd tail i = .ok b := by
      intro i hi
      have hfits := hcandidate i hi
      rw [isEocd, u32At_eq (by omega), ok_bind]
      exact ⟨_, rfl⟩
    obtain ⟨r, hr, hmem⟩ := findCandidate_ok hexact
    dsimp only
    rw [hr, ok_bind]
    cases r with
    | some i => exact ⟨some i, rfl, fun i hi => hcandidate i (hmem i hi)⟩
    | none =>
        obtain ⟨r, hr, hmem⟩ := findCandidate_ok hany
        exact ⟨r, hr, fun i hi => hcandidate i (hmem i hi)⟩

/-- The directory ends below 2⁶³, and so its shift is an `i64`. -/
structure Directory.Fits (cd : Directory) : Prop where
  stop_lt : cd.start + cd.size < 2 ^ 63
  delta_gt : -2 ^ 63 < cd.delta
  delta_lt : cd.delta < 2 ^ 63

theorem directoryBefore_ensures {position size entries offset : ℕ} (hposition : position < 2 ^ 63)
    (hoffset : offset < 2 ^ 63) :
    Ensures (directoryBefore o position size entries offset) Directory.Fits Fault.IsErr := by
  unfold directoryBefore
  split
  · rw [asI64_eq (by omega), asI64_eq hoffset, o.i64_eq (by omega) (by omega), ok_bind]
    refine ⟨?_, ?_, ?_⟩ <;> dsimp only <;> omega
  · exact ensures_protocolErr _ _

theorem parseZip64_ensures {at' position : ℕ} (hat : at' + zip64EocdSize ≤ d.length)
    (hposition : position < 2 ^ 63) :
    Ensures (parseZip64 o d at' position) Directory.Fits Fault.IsErr := by
  simp only [zip64EocdSize] at hat
  unfold parseZip64
  refine (u64At_ensures (by omega)).bind fun entries _ => ?_
  refine (u64At_ensures (by omega)).bind fun size _ => ?_
  exact (u64At_ensures (by omega)).bind fun offset hoffset =>
    directoryBefore_ensures hposition hoffset

theorem locateCentralDirectory_ensures {tail : Bytes} {tailStart eocd : ℕ}
    (heocd : eocd + eocdSize ≤ tail.length) (htail : tailStart + tail.length < 2 ^ 63) :
    Ensures (locateCentralDirectory o f tail tailStart eocd) Directory.Fits Fault.IsErr := by
  have h22 : eocdSize = 22 := rfl
  have h20 : zip64LocatorSize = 20 := rfl
  have h56 : zip64EocdSize = 56 := rfl
  have h4 : ∀ i, leAt 4 tail i < 2 ^ 63 := fun i => (leAt_lt 4 tail i).trans (by norm_num)
  unfold locateCentralDirectory
  rw [u16At_eq (by omega), ok_bind, u32At_eq (by omega), ok_bind, u32At_eq (by omega), ok_bind]
  have hlocator : ∃ b, hasLocator tail eocd = .ok b ∧ (b = true → zip64LocatorSize ≤ eocd) := by
    unfold hasLocator
    split
    · rename_i hle
      rw [u32At_eq (by omega), ok_bind]
      exact ⟨_, rfl, fun _ => hle⟩
    · exact ⟨_, rfl, by simp⟩
  obtain ⟨b, hb, hle⟩ := hlocator
  rw [hb, ok_bind]
  cases b with
  | false =>
      rw [if_neg Bool.false_ne_true]
      split
      · exact ensures_protocolErr _ _
      · exact directoryBefore_ensures (by omega) (h4 _)
  | true =>
      have hle := hle rfl
      have hinTail : ∃ b, zip64InTail tail (eocd - zip64LocatorSize) = .ok b ∧
          (b = true → zip64EocdSize ≤ eocd - zip64LocatorSize) := by
        unfold zip64InTail
        split
        · rename_i hle
          rw [u32At_eq (by omega), ok_bind]
          exact ⟨_, rfl, fun _ => hle⟩
        · exact ⟨_, rfl, by simp⟩
      obtain ⟨b, hb, hin⟩ := hinTail
      rw [if_pos rfl, hb, ok_bind]
      cases b with
      | true =>
          have hin := hin rfl
          rw [if_pos rfl]
          exact parseZip64_ensures (by omega) (by omega)
      | false =>
          rw [if_neg Bool.false_ne_true]
          refine (u64At_ensures (by omega)).bind fun recorded hrecorded => ?_
          refine (readExact_ensures (Or.inr (by omega))).bind
            fun record hrecord => ?_
          have hlen := hrecord.1
          rw [u32At_eq (by omega), ok_bind]
          split
          · exact ensures_protocolErr _ _
          · exact parseZip64_ensures (by omega) hrecorded

/-- A file of which the directory is read is as long as it claims to be. -/
theorem readDirectoryBytes_ensures (o : Overflow) (f : ArchiveFile) :
    Ensures (readDirectoryBytes o f)
      (fun r => f.size ≤ f.content.length ∧ r.1.Fits ∧ r.2.length < 2 ^ 63) Fault.IsErr := by
  unfold readDirectoryBytes
  split
  · exact ensures_protocolErr _ _
  · rename_i hsize
    simp only [eocdSize, maxCommentSize] at hsize ⊢
    have hcontent := f.content_le
    have hlt := f.size_lt
    refine (readExact_ensures (Or.inr (by omega))).bind fun tail htail => ?_
    obtain ⟨htail, hread⟩ := htail
    have hread := (hread (by omega)).1
    obtain ⟨r, hr, hfound⟩ := findEocd_ok tail
    rw [hr, ok_bind]
    cases r with
    | none => exact ensures_protocolErr _ _
    | some eocd =>
        dsimp only
        refine (locateCentralDirectory_ensures (hfound eocd rfl) (by omega)).bind fun cd hcd => ?_
        split
        · exact ensures_protocolErr _ _
        · rw [← Nat.cast_add, o.u64_ofNat (hcd.stop_lt.trans (by norm_num)), ok_bind]
          split
          · exact ensures_protocolErr _ _
          · split
            · exact ensures_protocolErr _ _
            · rename_i hmax
              simp only [maxCentralDirectory] at hmax
              have hstop := hcd.stop_lt
              refine (readExact_ensures (Or.inr (by omega))).bind fun bytes hbytes => ?_
              have hlen := hbytes.1
              exact ⟨by omega, hcd, by dsimp only; omega⟩

/-! ## The records that are shifted -/

section Open

variable (crc32 : Bytes → ℕ)

/-- A record that the loop of `ZipReader::open` comes to has an offset that cannot be shifted.
`count` entries are there already. -/
def OverflowsFrom (d : Bytes) (delta : ℤ) : List ℕ → ℕ → Prop
  | [], _ => False
  | offset :: rest, count =>
      match parseRecord crc32 d offset with
      | .error _ => False
      | .ok none => count ≤ maxEntries ∧ OverflowsFrom d delta rest count
      | .ok (some e) =>
          2 ^ 63 ≤ e.localHeaderOffset + delta ∨
            count + 1 ≤ maxEntries ∧ OverflowsFrom d delta rest (count + 1)

/-- A record of the central directory, none before it being malformed, gives a local header whose
offset, shifted by the bytes in front of the archive, is not an `i64`. -/
def OffsetOverflows (f : ArchiveFile) : Prop :=
  ∃ cd bytes recs, readDirectoryBytes .checked f = .ok (cd, bytes) ∧
    records .checked bytes = .ok recs ∧
    OverflowsFrom crc32 bytes cd.delta (recs.map Prod.fst) 0

variable {crc32}

/-- An entry whose data can be looked for. -/
structure ZipEntry.IsReadable (e : ZipEntry) : Prop where
  path : ZipIndex.IsEntryPath e.path
  compressedSize : e.compressedSize < 2 ^ 63

/-- A build that does not check arithmetic shifts any offset. -/
theorem Overflow.i64_wrapping (n : ℤ) : ∃ m, Overflow.wrapping.i64 n = .ok m := by
  unfold Overflow.i64
  split <;> exact ⟨_, rfl⟩

/-- The loop fails with an error only, if it wraps around or no offset overflows. -/
theorem parseEntries_ensures {delta : ℤ} (hdelta : -2 ^ 63 < delta) {offsets : List ℕ}
    (hoffsets : ∀ offset ∈ offsets, RecordFits d offset) {entries : List ZipEntry}
    (hentries : ∀ e ∈ entries, e.IsReadable) {rejected : ℕ}
    (h : o = .wrapping ∨ ¬OverflowsFrom crc32 d delta offsets entries.length) :
    Ensures (parseEntries o crc32 d delta offsets entries rejected)
      (fun r => ∀ e ∈ r.1, e.IsReadable) Fault.IsErr := by
  induction offsets generalizing entries rejected with
  | nil => exact hentries
  | cons offset rest ih =>
      have hparsed := parseRecord_ensures crc32 (hoffsets offset List.mem_cons_self)
      have hrest : ∀ offset ∈ rest, RecordFits d offset :=
        fun offset ho => hoffsets offset (List.mem_cons_of_mem _ ho)
      rw [OverflowsFrom] at h
      rw [parseEntries, fromCentralDirectory]
      generalize parseRecord crc32 d offset = parsed at hparsed h
      match parsed with
      | .error e => exact hparsed
      | .ok none =>
          rw [ok_bind]
          dsimp only at h ⊢
          rw [show (pure none : Result (Option ZipEntry)) = .ok none from rfl, ok_bind]
          dsimp only
          split
          · exact ensures_protocolErr _ _
          · rename_i hcount
            exact ih hrest hentries (h.imp id fun hover hrest => hover ⟨by omega, hrest⟩)
      | .ok (some e) =>
          have he : e.IsParsed := hparsed e rfl
          have hshift : ∃ n, o.i64 (e.localHeaderOffset + delta) = .ok n := by
            rcases h with rfl | hover
            · exact Overflow.i64_wrapping _
            · have hlow := he.offset_nonneg
              exact ⟨_, o.i64_eq (by omega) (lt_of_not_ge fun hge => hover (Or.inl hge))⟩
          obtain ⟨n, hn⟩ := hshift
          rw [ok_bind]
          dsimp only at h ⊢
          rw [hn, ok_bind,
            show ∀ e : ZipEntry, (pure (some e) : Result (Option ZipEntry)) = .ok (some e) from
              fun _ => rfl, ok_bind]
          dsimp only
          split
          · exact ensures_protocolErr _ _
          · rename_i hcount
            rw [List.length_append, List.length_singleton] at hcount
            refine ih hrest ?_ (h.imp id fun hover hrest => hover (Or.inr ⟨by omega, ?_⟩))
            · intro e' he'
              rcases List.mem_append.1 he' with he' | he'
              · exact hentries e' he'
              · rw [List.mem_singleton.1 he']
                exact ⟨he.path, he.compressedSize⟩
            · rw [List.length_append, List.length_singleton] at hrest
              exact hrest

/-- An offset that overflows is a panic in a build that checks. -/
theorem parseEntries_panics {delta : ℤ} {offsets : List ℕ} {entries : List ZipEntry} {rejected : ℕ}
    (h : OverflowsFrom crc32 d delta offsets entries.length) :
    parseEntries .checked crc32 d delta offsets entries rejected = .error .panic := by
  induction offsets generalizing entries rejected with
  | nil => exact h.elim
  | cons offset rest ih =>
      rw [OverflowsFrom] at h
      rw [parseEntries, fromCentralDirectory]
      generalize parseRecord crc32 d offset = parsed at h
      match parsed with
      | .error e => exact h.elim
      | .ok none =>
          rw [ok_bind]
          dsimp only at h ⊢
          rw [show (pure none : Result (Option ZipEntry)) = .ok none from rfl, ok_bind]
          dsimp only
          rw [if_neg (by omega)]
          exact ih h.2
      | .ok (some e) =>
          rw [ok_bind]
          dsimp only at h ⊢
          by_cases hover : e.localHeaderOffset + delta < 2 ^ 63 ∧
              -2 ^ 63 ≤ e.localHeaderOffset + delta
          · rw [Overflow.i64_eq _ hover.2 hover.1, ok_bind,
              show ∀ e : ZipEntry, (pure (some e) : Result (Option ZipEntry)) = .ok (some e) from
                fun _ => rfl, ok_bind]
            obtain ⟨hcount, hrest⟩ := h.resolve_left (not_le.2 hover.1)
            dsimp only
            have hlen : ∀ e' : ZipEntry, (entries ++ [e']).length = entries.length + 1 := by simp
            rw [hlen, if_neg (by omega)]
            exact ih (by rw [hlen]; exact hrest)
          · rw [Overflow.i64, if_neg (by omega)]
            rfl

/-! ## Safety -/

/-- The data of a listed entry are found, or there is an error. -/
theorem locateData_ensures {zip : ZipReader} (hfile : zip.file.size ≤ zip.file.content.length)
    {e : ZipEntry} (he : e.isDirectory = true ∨ e.IsReadable) :
    Ensures (zip.locateData o e) (fun _ => True) Fault.IsErr := by
  unfold ZipReader.locateData
  split
  · exact ensures_protocolErr _ _
  · rename_i hdir
    have hreadable := he.resolve_left hdir
    split
    · exact ensures_protocolErr _ _
    · split
      · exact ensures_protocolErr _ _
      · have hcontent := zip.file.content_le
        have hbound : zip.file.size ≤ asU64 e.localHeaderOffset ∨
            asU64 e.localHeaderOffset + localHeaderSize < 2 ^ 64 := by
          simp only [localHeaderSize]
          omega
        refine (readExact_ensures hbound).bind fun header hheader => ?_
        obtain ⟨hlen, hread⟩ := hheader
        have hread := (hread (by decide)).1
        simp only [localHeaderSize] at hlen hread ⊢
        rw [u32At_eq (by omega), ok_bind]
        split
        · exact ensures_protocolErr _ _
        · rw [u16At_eq (by omega), ok_bind, u16At_eq (by omega), ok_bind, u16At_eq (by omega),
            ok_bind]
          have hname := leAt_lt 2 header 26
          have hextra := leAt_lt 2 header 28
          have hsize := hreadable.compressedSize
          rw [← Nat.cast_add, ← Nat.cast_add, ← Nat.cast_add, o.u64_ofNat (by omega), ok_bind,
            ← Nat.cast_add, o.u64_ofNat (by omega), ok_bind]
          split
          · exact ensures_protocolErr _ _
          · exact True.intro

variable (o crc32) in
/-- The archive opens or there is an error, and so for the data of every entry it lists. -/
def OpensSafely (order : HashOrder) (toLowercase : EntryName → EntryName) (f : ArchiveFile) :
    Prop :=
  Ensures (openArchive o crc32 order toLowercase f)
    (fun zip => ∀ e ∈ zip.index.entries,
      Ensures (zip.locateData o e) (fun _ => True) Fault.IsErr) Fault.IsErr

variable {order : HashOrder} {toLowercase : EntryName → EntryName}

/-- An index is always built. -/
theorem build_ensures (rejected : ℕ) {parsed : List ZipEntry} (h : ∀ e ∈ parsed, e.IsReadable) :
    Ensures (ZipIndex.build order toLowercase parsed rejected) (ZipIndex.IsBuilt parsed)
      Fault.IsErr := by
  obtain ⟨idx, hidx, hbuilt⟩ :=
    ZipIndex.exists_build order toLowercase rejected fun e he => (h e he).path
  rw [hidx]
  exact hbuilt

theorem opensSafely (h : o = .wrapping ∨ ¬OffsetOverflows crc32 f) :
    OpensSafely o crc32 order toLowercase f := by
  unfold OpensSafely openArchive
  refine (readDirectoryBytes_ensures o f).self.bind fun ⟨cd, bytes⟩ hdirectory => ?_
  dsimp only
  have hbytes : bytes.length < 2 ^ 64 := hdirectory.2.2.2.trans (by norm_num)
  refine (records_ensures o hbytes).self.bind fun recs hrecs => ?_
  have hparse : Ensures (parseEntries o crc32 bytes cd.delta (recs.map Prod.fst) [] 0)
      (fun r => ∀ e ∈ r.1, e.IsReadable) Fault.IsErr := by
    refine parseEntries_ensures hdirectory.2.2.1.delta_gt ?_ (by simp) ?_
    · intro offset hoffset
      obtain ⟨r, hr, rfl⟩ := List.mem_map.1 hoffset
      exact hrecs.2 r hr
    · cases o with
      | wrapping => exact Or.inl rfl
      | checked =>
          refine Or.inr fun hover => h.resolve_left (by decide) ?_
          exact ⟨cd, bytes, recs, hdirectory.1, hrecs.1, hover⟩
  refine hparse.bind fun parsed hparsed => ?_
  refine (build_ensures parsed.2 hparsed).bind fun idx hbuilt => ?_
  intro e he
  refine locateData_ensures hdirectory.2.1 ?_
  rcases hbuilt.origin e.path e (hbuilt.mem_entries.1 he) with hmem | hdir
  · exact Or.inr (hparsed e hmem)
  · exact Or.inl hdir

theorem not_opensSafely (h : OffsetOverflows crc32 f) :
    ¬OpensSafely .checked crc32 order toLowercase f := by
  obtain ⟨cd, bytes, recs, hdirectory, hrecs, hover⟩ := h
  unfold OpensSafely openArchive
  rw [hdirectory, ok_bind]
  dsimp only
  rw [hrecs, ok_bind, parseEntries_panics hover]
  rintro ⟨e, he⟩
  cases he

/-- **Opening any bytes is safe but for one sum.**  Whatever the bytes and the claimed length, the
archive opens or there is an error, and the same for the data of every entry that is listed, unless
the offset of a local header overflows when it is shifted.  A build that does not check arithmetic
never stops there. -/
theorem opensSafely_iff (crc32 : Bytes → ℕ) (order : HashOrder)
    (toLowercase : EntryName → EntryName) (f : ArchiveFile) :
    (OpensSafely .checked crc32 order toLowercase f ↔ ¬OffsetOverflows crc32 f) ∧
      OpensSafely .wrapping crc32 order toLowercase f :=
  ⟨⟨fun hsafe hover => not_opensSafely hover hsafe, fun h => opensSafely (Or.inr h)⟩,
    opensSafely (Or.inl rfl)⟩

end Open

/-- One byte, a record of a file `a` whose local header is said to be at 2⁶³ − 1, and an end record
that says the directory is at 0. -/
def farOffsetArchive : ArchiveFile where
  content := [0x50] ++
    ([0x50, 0x4b, 0x01, 0x02] ++ List.replicate 24 0 ++ [1, 0, 12, 0] ++ List.replicate 10 0 ++
      [0xff, 0xff, 0xff, 0xff] ++ [0x61] ++
      [1, 0, 8, 0] ++ List.replicate 7 0xff ++ [0x7f]) ++
    ([0x50, 0x4b, 0x05, 0x06] ++ List.replicate 4 0 ++ [1, 0, 1, 0, 59, 0, 0, 0] ++
      List.replicate 6 0)
  size := 82
  content_le := by decide
  size_lt := by decide

/-- The record of the file `a`, before its offset is shifted by one. -/
def farOffsetEntry : ZipEntry := ⟨"a".toList, false, 0, 0, 0, 0, 2 ^ 63 - 1, 0, 0⟩

/-- The shift by one byte overflows. -/
theorem far_offset_panics :
    ¬OpensSafely .checked (fun _ => 0) .asIs id farOffsetArchive := by
  have hread : (readDirectoryBytes .checked farOffsetArchive).toOption.map
      (fun r => (r.1.delta, (records .checked r.2).toOption.map (List.map Prod.fst),
        (parseRecord (fun _ => 0) r.2 0).toOption)) =
      some (1, some [0], some (some farOffsetEntry)) := by
    decide +kernel
  obtain ⟨⟨cd, bytes⟩, hdirectory, hread⟩ := Option.map_eq_some_iff.1 hread
  obtain ⟨hdelta, hread⟩ := Prod.mk.inj hread
  obtain ⟨hrecs, hparse⟩ := Prod.mk.inj hread
  obtain ⟨recs, hrecs, hoffsets⟩ := Option.map_eq_some_iff.1 hrecs
  refine not_opensSafely ⟨cd, bytes, recs, eq_ok_of_toOption hdirectory, eq_ok_of_toOption hrecs, ?_⟩
  dsimp only at hdelta hparse
  rw [hoffsets, hdelta, OverflowsFrom, eq_ok_of_toOption hparse]
  exact Or.inl (by decide)

end Peergos
