import PeergosClient.Fs.ReadBack

/-!
# File properties as they are stored

The CBOR of the properties of a file.  What is absent or has its usual value is left out and filled
in on reading: the branch of the hash tree, the thumbnail, the stream secret, and a chunk size that
is the legacy one.
-/

namespace Peergos

/-! ## Optional fields -/

namespace CborObject

/-- A field that is put only if there is a value. -/
def putOpt (key : String) (v : Option CborObject) : List (String × CborObject) :=
  (v.map fun v => (key, v)).toList

theorem keys_putOpt (key : String) (v : Option CborObject) :
    ((putOpt key v).map Prod.fst).Sublist [key] := by
  cases v <;> simp [putOpt]

/-- An optional field reads as what was put, if anything was. -/
theorem get_of_puts {puts : List (String × CborObject)} {key : String} {v : Option CborObject}
    (hnodup : (puts.map Prod.fst).Nodup) (hsome : ∀ c, v = some c → (key, c) ∈ puts)
    (hnone : v = none → key ∉ puts.map Prod.fst) : (build puts).get key = v := by
  cases v with
  | none => exact get_build_of_not_mem (hnone rfl)
  | some c => exact get_build_of_mem hnodup (hsome c rfl)

end CborObject

/-! ## Hash branches -/

/-- `RootHash::to_cbor`. -/
def RootHash.toCbor (r : RootHash) : CborObject := .build [("h", .byteString r.hash)]

/-- `RootHash::from_cbor`. -/
def RootHash.fromCbor (cbor : CborObject) : Result RootHash :=
  match (cbor.get "h").bind CborObject.asBytes with
  | none => cborErr "RootHash missing 'h'"
  | some hash =>
      if hash.length ≠ 32 then cborErr s!"Incorrect hash length: {hash.length}" else .ok ⟨hash⟩

theorem RootHash.fromCbor_toCbor_iff {r : RootHash} :
    fromCbor r.toCbor = .ok r ↔ r.hash.length = 32 := by
  have hget : r.toCbor.get "h" = some (.byteString r.hash) :=
    CborObject.get_build_of_mem (by simp) (by simp)
  simp only [fromCbor, hget, Option.bind_some, CborObject.asBytes]
  by_cases h : r.hash.length = 32
  · rw [if_neg (not_not.2 h)]
    exact ⟨fun _ => h, fun _ => rfl⟩
  · rw [if_pos h]
    exact ⟨fun hread => absurd hread (by simp [cborErr]), fun hlen => absurd hlen h⟩

/-- `ChunkHashList::from_cbor`. -/
def ChunkHashList.fromCbor (cbor : CborObject) : Result ChunkHashList :=
  match (cbor.get "h").bind CborObject.asBytes with
  | none => cborErr "ChunkHashList missing 'h'"
  | some h => .ok ⟨h⟩

theorem ChunkHashList.fromCbor_toCbor (l : ChunkHashList) : fromCbor l.toCbor = .ok l := rfl

namespace HashBranch

open CborObject

/-- The fields of a branch, in the order they are put. -/
def fields (b : HashBranch) : List (String × CborObject) :=
  [("r", b.rootHash.toCbor)] ++ putOpt "l1" (b.level1.map ChunkHashList.toCbor) ++
    putOpt "l2" (b.level2.map ChunkHashList.toCbor) ++
    putOpt "l3" (b.level3.map ChunkHashList.toCbor)

/-- `HashBranch::to_cbor`. -/
def toCbor (b : HashBranch) : CborObject := .build b.fields

/-- `HashBranch::from_cbor`. -/
def fromCbor (cbor : CborObject) : Result HashBranch := do
  let rootHash ←
    match cbor.get "r" with
    | some r => RootHash.fromCbor r
    | none => cborErr "HashBranch missing 'r'"
  let level1 ← AbsoluteCapability.optional cbor "l1" ChunkHashList.fromCbor
  let level2 ← AbsoluteCapability.optional cbor "l2" ChunkHashList.fromCbor
  let level3 ← AbsoluteCapability.optional cbor "l3" ChunkHashList.fromCbor
  pure ⟨rootHash, level1, level2, level3⟩

theorem fields_nodup (b : HashBranch) : (b.fields.map Prod.fst).Nodup := by
  have hsub : (b.fields.map Prod.fst).Sublist ["r", "l1", "l2", "l3"] := by
    simp only [fields, List.map_append]
    exact (((List.Sublist.refl ["r"]).append (keys_putOpt "l1" _)).append
      (keys_putOpt "l2" _)).append (keys_putOpt "l3" _)
  exact hsub.nodup (by decide)

/-- A branch reads back exactly when its root is a hash. -/
theorem fromCbor_toCbor_iff {b : HashBranch} :
    fromCbor b.toCbor = .ok b ↔ b.rootHash.hash.length = 32 := by
  have hr : b.toCbor.get "r" = some b.rootHash.toCbor :=
    get_build_of_mem b.fields_nodup (by simp [fields])
  have h1 : b.toCbor.get "l1" = b.level1.map ChunkHashList.toCbor := by
    apply get_of_puts b.fields_nodup <;> simp +contextual [fields, putOpt]
  have h2 : b.toCbor.get "l2" = b.level2.map ChunkHashList.toCbor := by
    apply get_of_puts b.fields_nodup <;> simp +contextual [fields, putOpt]
  have h3 : b.toCbor.get "l3" = b.level3.map ChunkHashList.toCbor := by
    apply get_of_puts b.fields_nodup <;> simp +contextual [fields, putOpt]
  have hlevel : ∀ {key : String} {level : Option ChunkHashList},
      b.toCbor.get key = level.map ChunkHashList.toCbor →
      AbsoluteCapability.optional b.toCbor key ChunkHashList.fromCbor = .ok level := fun hget =>
    (AbsoluteCapability.optional_iff hget).2 fun l _ => l.fromCbor_toCbor
  rw [← RootHash.fromCbor_toCbor_iff]
  simp only [fromCbor, hr, hlevel h1, hlevel h2, hlevel h3, ok_bind]
  constructor
  · intro hread
    obtain ⟨root, hroot, hread⟩ := bind_eq_ok.1 hread
    obtain rfl : root = b.rootHash := congrArg HashBranch.rootHash (Except.ok.inj hread)
    exact hroot
  · intro hroot
    rw [hroot]
    rfl

end HashBranch

/-! ## Chunk sizes -/

/-- `u64::trailing_zeros`. -/
def trailingZeros (n : ℕ) : ℕ := ((List.range 64).find? fun i => n.testBit i).getD 64

/-- `chunk_size_log2`. -/
def chunkSizeLog2 (size : ℕ) : Int64 := Int64.ofNat (trailingZeros size)

/-- `chunk_size_from_log2`. -/
def chunkSizeFromLog2 (log2 : Int64) : Result ℕ :=
  if ¬ (0 ≤ log2 ∧ log2 ≤ 30) then
    cborErr s!"Unsupported chunk size in file properties: 2^{log2}"
  else
    let size := 1 <<< log2.toNatClampNeg
    if size ≠ defaultChunkSize ∧ size ≠ legacyChunkSize then
      cborErr s!"Unsupported chunk size in file properties: 2^{log2}"
    else .ok size

theorem chunkSizeFromLog2_default :
    chunkSizeFromLog2 (chunkSizeLog2 defaultChunkSize) = .ok defaultChunkSize := by
  decide +kernel

/-! ## Properties -/

namespace FileProperties

open CborObject

/-- The fields that are always put. -/
def plainFields (p : FileProperties) : List (String × CborObject) :=
  [("d", .boolean p.isDirectory), ("l", .boolean p.isLink), ("n", .str p.name),
    ("m", .str p.mimeType), ("s", .long (Int64.ofNat p.size)),
    ("t", .long (Int64.ofInt p.modifiedEpoch)), ("tn", .long 0),
    ("c", .long (Int64.ofInt p.createdEpoch)), ("cn", .long 0), ("h", .boolean p.isHidden)]

/-- All the fields, in the order they are put. -/
def fields (p : FileProperties) : List (String × CborObject) :=
  p.plainFields ++ putOpt "th" (p.treeHash.map HashBranch.toCbor) ++
    putOpt "i" (p.thumbnail.map fun t => .byteString t.2) ++
    putOpt "im" (p.thumbnail.map fun t => .str t.1) ++
    putOpt "p" (p.streamSecret.map .byteString) ++
    putOpt "cs" (if p.chunkSize = legacyChunkSize then none
      else some (.long (chunkSizeLog2 p.chunkSize)))

/-- `FileProperties::to_cbor`. -/
def toCbor (p : FileProperties) : CborObject := .build p.fields

/-- The chunk size, the legacy one if it is absent. -/
def readChunkSize (cbor : CborObject) : Result ℕ :=
  match (cbor.get "cs").bind asLong with
  | some log2 => chunkSizeFromLog2 log2
  | none => .ok legacyChunkSize

/-- `FileProperties::from_cbor`. -/
def fromCbor (cbor : CborObject) : Result FileProperties := do
  let getBool (k : String) := (cbor.get k).bind asBool
  let name ←
    match (cbor.get "n").bind asString with
    | some n => .ok n
    | none => cborErr "FileProperties missing name"
  let mimeType := ((cbor.get "m").bind asString).getD ""
  let size := ((cbor.get "s").bind asLong).getD 0
  let modifiedEpoch := ((cbor.get "t").bind asLong).getD 0
  let treeHash ← AbsoluteCapability.optional cbor "th" HashBranch.fromCbor
  let chunkSize ← readChunkSize cbor
  pure {
    name
    isDirectory := (getBool "d").getD false
    isLink := (getBool "l").getD false
    mimeType
    size := size.toUInt64.toNat
    isHidden := (getBool "h").getD false
    modifiedEpoch := modifiedEpoch.toInt
    createdEpoch := (((cbor.get "c").bind asLong).getD modifiedEpoch).toInt
    streamSecret := (cbor.get "p").bind asBytes
    thumbnail := ((cbor.get "i").bind asBytes).map fun d =>
      (((cbor.get "im").bind asString).getD "image/webp", d)
    treeHash
    chunkSize }

/-- The numbers of properties are of their types, and the chunk size is one that can be written. -/
structure InRange (p : FileProperties) : Prop where
  size : p.size < 2 ^ 64
  modifiedEpoch : -2 ^ 63 ≤ p.modifiedEpoch ∧ p.modifiedEpoch < 2 ^ 63
  createdEpoch : -2 ^ 63 ≤ p.createdEpoch ∧ p.createdEpoch < 2 ^ 63
  chunkSize : p.chunkSize = legacyChunkSize ∨ p.chunkSize = defaultChunkSize

theorem fields_nodup (p : FileProperties) : (p.fields.map Prod.fst).Nodup := by
  have hsub : (p.fields.map Prod.fst).Sublist
      ["d", "l", "n", "m", "s", "t", "tn", "c", "cn", "h", "th", "i", "im", "p", "cs"] := by
    simp only [fields, List.map_append]
    exact (((((List.Sublist.refl ["d", "l", "n", "m", "s", "t", "tn", "c", "cn", "h"]).append
      (keys_putOpt "th" _)).append (keys_putOpt "i" _)).append (keys_putOpt "im" _)).append
      (keys_putOpt "p" _)).append (keys_putOpt "cs" _)
  exact hsub.nodup (by decide)

/-- Properties read back exactly when the root of their hash tree, if they have one, is a hash. -/
theorem readsBack_iff {p : FileProperties} (h : p.InRange) :
    fromCbor p.toCbor = .ok p ↔ ∀ b ∈ p.treeHash, b.rootHash.hash.length = 32 := by
  have hplain : ∀ f ∈ p.plainFields, p.toCbor.get f.1 = some f.2 := by
    intro f hf
    apply get_build_of_mem p.fields_nodup
    simp only [fields, List.mem_append]
    exact .inl (.inl (.inl (.inl (.inl hf))))
  simp only [plainFields, List.forall_mem_cons] at hplain
  obtain ⟨hd, hl, hn, hm, hs, ht, -, hc, -, hh, -⟩ := hplain
  have hth : p.toCbor.get "th" = p.treeHash.map HashBranch.toCbor := by
    apply get_of_puts p.fields_nodup <;> simp +contextual [fields, plainFields, putOpt]
  have hi : p.toCbor.get "i" = p.thumbnail.map fun t => .byteString t.2 := by
    apply get_of_puts p.fields_nodup <;> simp +contextual [fields, plainFields, putOpt]
  have him : p.toCbor.get "im" = p.thumbnail.map fun t => .str t.1 := by
    apply get_of_puts p.fields_nodup <;> simp +contextual [fields, plainFields, putOpt]
  have hp : p.toCbor.get "p" = p.streamSecret.map .byteString := by
    apply get_of_puts p.fields_nodup <;> simp +contextual [fields, plainFields, putOpt]
  have hcs : p.toCbor.get "cs" = if p.chunkSize = legacyChunkSize then none
      else some (.long (chunkSizeLog2 p.chunkSize)) := by
    apply get_of_puts p.fields_nodup <;>
      simp +contextual [fields, plainFields, putOpt]
  have hsize : (Int64.ofNat p.size).toUInt64.toNat = p.size := by
    have hbits : (Int64.ofNat p.size).toUInt64.toNat = p.size % 2 ^ 64 := rfl
    rw [hbits, Nat.mod_eq_of_lt h.size]
  have hmodified : (Int64.ofInt p.modifiedEpoch).toInt = p.modifiedEpoch :=
    Int64.toInt_ofInt_of_le (by have := h.modifiedEpoch.1; omega) h.modifiedEpoch.2
  have hcreated : (Int64.ofInt p.createdEpoch).toInt = p.createdEpoch :=
    Int64.toInt_ofInt_of_le (by have := h.createdEpoch.1; omega) h.createdEpoch.2
  have hsecret : (p.streamSecret.map CborObject.byteString).bind asBytes = p.streamSecret := by
    cases p.streamSecret <;> rfl
  have hthumbnail : ((p.thumbnail.map fun t => CborObject.byteString t.2).bind asBytes).map
      (fun d => (((p.thumbnail.map fun t => CborObject.str t.1).bind asString).getD
        "image/webp", d)) = p.thumbnail := by
    cases p.thumbnail <;> rfl
  have hchunk : readChunkSize p.toCbor = .ok p.chunkSize := by
    rw [readChunkSize, hcs]
    rcases h.chunkSize with hlegacy | hdefault
    · rw [if_pos hlegacy, hlegacy]
      rfl
    · have hne : defaultChunkSize ≠ legacyChunkSize := by decide
      rw [hdefault, if_neg hne]
      exact chunkSizeFromLog2_default
  have hbranch : AbsoluteCapability.optional p.toCbor "th" HashBranch.fromCbor = .ok p.treeHash ↔
      ∀ b ∈ p.treeHash, b.rootHash.hash.length = 32 := by
    rw [AbsoluteCapability.optional_iff hth]
    exact forall₂_congr fun b _ => HashBranch.fromCbor_toCbor_iff
  rw [← hbranch]
  simp only [fromCbor, hd, hl, hn, hm, hs, ht, hc, hh, hi, him, hp, Option.bind_some, asString,
    asLong, asBool, Option.getD_some, ok_bind, hsize, hmodified, hcreated, hsecret, hthumbnail,
    hchunk]
  constructor
  · intro hread
    obtain ⟨branch, hbranch, hread⟩ := bind_eq_ok.1 hread
    obtain rfl : branch = p.treeHash := congrArg FileProperties.treeHash (Except.ok.inj hread)
    exact hbranch
  · intro hbranch
    rw [hbranch]
    rfl

end FileProperties

end Peergos
