import PeergosClient.Cbor.Size
import PeergosClient.Fs.CapabilityCbor
import PeergosClient.Lib.Chunks
import PeergosClient.Lib.Sha256

/-!
# Encrypted fragments

How the data of a chunk is laid out: the secret's CBOR is padded with zeros and encrypted, and the
ciphertext is kept in the node itself if it is small, or else cut into a header, kept in the node,
and fragments, each a raw block of its own behind a prefix that names its BATs.  Reading puts the
ciphertext together again, opens it and ignores the padding.

`Fs.Cryptree` takes the whole of this as one ciphertext.  The encryption in place of the secretbox
library and SHA-256 are parameters here, and what is drawn at random is an argument.
-/

namespace Peergos

open Chunks

/-! ## Secret boxes -/

/-- `XSalsa20Poly1305`: the ciphertext and the tag of some data under a nonce and a key, and the way
back. -/
structure SecretBoxCipher where
  encryptInPlaceDetached : Bytes → Bytes → Bytes → Bytes × Bytes
  decryptInPlaceDetached : Bytes → Bytes → Bytes → Bytes → Option Bytes
  tag_length : ∀ data nonce key, (encryptInPlaceDetached data nonce key).2.length = 16

namespace SecretBoxCipher

variable (P : SecretBoxCipher)

/-- What was encrypted opens again. -/
def Correct : Prop := ∀ data nonce key,
  P.decryptInPlaceDetached (P.encryptInPlaceDetached data nonce key).1
    (P.encryptInPlaceDetached data nonce key).2 nonce key = some data

/-- `NONCE_BYTES`. -/
def nonceBytes : ℕ := 24

/-- `MAC_BYTES`. -/
def macBytes : ℕ := 16

/-- `Err(Error::Crypto(..))`. -/
def refuse {α : Type} (msg : String) : Result α := .error (.err (.crypto msg))

/-- `secretbox`, as `SymmetricKey::encrypt` calls it. -/
def encrypt (key : SymmetricKey) (data nonce : Bytes) : Result Bytes :=
  if nonce.length ≠ nonceBytes then refuse s!"nonce must be {nonceBytes} bytes"
  else if key.key.length ≠ 32 then refuse s!"secretbox key must be {32} bytes"
  else
    let (buffer, tag) := P.encryptInPlaceDetached data nonce key.key
    .ok (tag ++ buffer)

/-- `secretbox_open`, as `SymmetricKey::decrypt` calls it. -/
def decrypt (key : SymmetricKey) (cipher nonce : Bytes) : Result Bytes :=
  if nonce.length ≠ nonceBytes then refuse s!"nonce must be {nonceBytes} bytes"
  else if cipher.length < macBytes then refuse "ciphertext shorter than MAC"
  else if key.key.length ≠ 32 then refuse s!"secretbox key must be {32} bytes"
  else
    match P.decryptInPlaceDetached (cipher.drop macBytes) (cipher.take macBytes) nonce key.key with
    | some data => .ok data
    | none => refuse "secretbox authentication failed"

variable {P} {key : SymmetricKey} {nonce : Bytes}

theorem encrypt_eq (hkey : key.key.length = 32) (hnonce : nonce.length = nonceBytes)
    (data : Bytes) : P.encrypt key data nonce =
      .ok ((P.encryptInPlaceDetached data nonce key.key).2 ++
        (P.encryptInPlaceDetached data nonce key.key).1) := by
  rw [encrypt, if_neg (by simpa using hnonce), if_neg (by simpa using hkey)]

/-- What was encrypted opens again. -/
theorem decrypt_encrypt (hP : P.Correct) {data cipher : Bytes}
    (h : P.encrypt key data nonce = .ok cipher) : P.decrypt key cipher nonce = .ok data := by
  have htag : (P.encryptInPlaceDetached data nonce key.key).2.length = macBytes :=
    P.tag_length data nonce key.key
  unfold encrypt at h
  split at h
  · cases h
  · next hnonce =>
      split at h
      · cases h
      · next hkey =>
          cases h
          unfold decrypt
          have hlong : ¬((P.encryptInPlaceDetached data nonce key.key).2 ++
              (P.encryptInPlaceDetached data nonce key.key).1).length < macBytes := by
            rw [List.length_append, htag]
            omega
          rw [if_neg hnonce, if_neg hlong, if_neg hkey, List.drop_left' htag, List.take_left' htag,
            hP data nonce key.key]

end SecretBoxCipher

/-! ## BATs with their ids -/

/-- `Bat::calculate_id`. -/
def Bat.calculateId (sha256 : Bytes → Bytes) (b : Bat) : Result BatId := do
  let cid ← liftMf (Cid.new .v1 .raw .sha2_256 (sha256 b.toCbor.toBytes))
  pure ⟨cid⟩

/-- `BatWithId`: the id is the CID of a raw block and no identity. -/
structure BatWithId where
  bat : Bat
  id : Cid
  not_identity : id.multihash.isIdentity = false
  codec_raw : id.codec = .raw
  deriving DecidableEq

namespace BatWithId

/-- `BatWithId::new`. -/
def new (bat : Bat) (id : Cid) : Result BatWithId :=
  if h : id.multihash.isIdentity = false then
    if hc : id.codec = .raw then .ok ⟨bat, id, h, hc⟩
    else protocolErr "BatId codec must be Raw!"
  else protocolErr "Cannot use identity cid here!"

/-- `BatWithId::to_cbor`. -/
def toCbor (b : BatWithId) : CborObject :=
  .build [("b", b.bat.toCbor), ("i", .byteString b.id.toBytes)]

/-- `BatWithId::from_cbor`. -/
def fromCbor (cbor : CborObject) : Result BatWithId := do
  let bat ←
    match cbor.get "b" with
    | some b => Bat.fromCbor b
    | none => cborErr "Incorrect cbor for BatWithId"
  let idBytes ←
    match (cbor.get "i").bind CborObject.asBytes with
    | some b => .ok b
    | none => cborErr "missing 'i' in BatWithId"
  let id ← liftMf (Cid.cast idBytes)
  new bat id

theorem fromCbor_toCbor {b : BatWithId} (hv : b.id.version = .v1) : fromCbor b.toCbor = .ok b := by
  have hb : b.toCbor.get "b" = some b.bat.toCbor :=
    CborObject.get_build_of_mem (by simp) (by simp)
  have hi : b.toCbor.get "i" = some (.byteString b.id.toBytes) :=
    CborObject.get_build_of_mem (by simp) (by simp)
  simp only [fromCbor, hb, hi, Bat.fromCbor_toCbor, ok_bind, Option.bind_some, CborObject.asBytes,
    Cid.cast_toBytes hv, liftMf, new, dif_pos b.not_identity, dif_pos b.codec_raw]

end BatWithId

/-! ## Raw blocks -/

/-- `RAW_BLOCK_MAGIC_PREFIX`. -/
def rawBlockMagic : Bytes := [0x71, 0x1d, 0x10, 0xcf, 0x3d, 0x32, 0x2f, 0x2b]

/-- The BAT ids in front of a raw block: the block's own, then the mirror's if there is one. -/
def rawBlockBats (inlineId : BatId) (mirrorBat : Option BatId) : CborObject :=
  .list (inlineId.toCbor :: (mirrorBat.map BatId.toCbor).toList)

/-- `create_raw_block_prefix`. -/
def createRawBlockPrefix (bat : Bat) (mirrorBat : Option BatId) : Result Bytes := do
  let inlineId ← BatId.inline bat
  pure (rawBlockMagic ++ (rawBlockBats inlineId mirrorBat).toBytes)

/-- `remove_raw_block_bat_prefix`. -/
def removeRawBlockBatPrefix (block : Bytes) : Result Bytes :=
  if block.length < 8 ∨ block.take 8 ≠ rawBlockMagic then .ok block
  else do
    let batsCbor ← liftCbor (CborObject.fromBytesPrefix (block.drop 8))
    let consumed := batsCbor.toBytes.length
    if 8 + consumed ≤ block.length then .ok (block.drop (8 + consumed)) else .error .panic

/-! ## The layout -/

/-- `INLINE_LIMIT`. -/
def inlineLimit : ℕ := 4096 + 6

/-- `FRAGMENT_MAX_LENGTH`. -/
def fragmentMaxLength : ℕ := 1024 * 1024

/-- `FragmentedPaddedCipherText`. -/
structure FragmentedPaddedCipherText where
  nonce : Bytes
  header : Option Bytes
  fragments : List Cid
  bats : List BatWithId
  inlined : Option Bytes
  deriving DecidableEq

namespace FragmentedPaddedCipherText

/-- `FragmentedPaddedCipherText::to_cbor`. -/
def toCbor (c : FragmentedPaddedCipherText) : CborObject :=
  let start := ("n", .byteString c.nonce) :: (c.header.map fun h => ("h", .byteString h)).toList
  let inlineForm := c.inlined.isSome ∨
    (c.fragments.length = 1 ∧ c.fragments.head?.any (fun f => f.multihash.isIdentity) = true)
  if inlineForm then
    let value := match c.inlined with
      | some arr => [CborObject.byteString arr]
      | none => c.fragments.map fun f => .byteString f.multihash.hash
    .build (start ++ [("f", .list value)])
  else
    .build (start ++ [("f", .list (c.fragments.map fun f => .merkleLink f.toBytes)),
      ("bats", .list (c.bats.map BatWithId.toCbor))])

/-- The loop of `FragmentedPaddedCipherText::from_cbor` over the list `f`. -/
def readItems : List CborObject → List Cid → Option Bytes → Result (List Cid × Option Bytes)
  | [], fragments, inlined => .ok (fragments, inlined)
  | item :: items, fragments, inlined =>
      match item with
      | .merkleLink cid => do
          let cid ← liftMf (Cid.cast cid)
          readItems items (fragments ++ [cid]) inlined
      | .byteString b => readItems items fragments (inlined.orElse fun _ => some b)
      | _ => readItems items fragments inlined

/-- `FragmentedPaddedCipherText::from_cbor`. -/
def fromCbor (cbor : CborObject) : Result FragmentedPaddedCipherText := do
  let nonce ←
    match (cbor.get "n").bind CborObject.asBytes with
    | some n => .ok n
    | none => cborErr "FragmentedPaddedCipherText missing 'n'"
  let header := (cbor.get "h").bind CborObject.asBytes
  let f ←
    match (cbor.get "f").bind CborObject.asList with
    | some f => .ok f
    | none => cborErr "FragmentedPaddedCipherText missing 'f'"
  let (fragments, inlined) ← readItems f [] none
  let bats ←
    match (cbor.get "bats").bind CborObject.asList with
    | some list => list.mapM BatWithId.fromCbor
    | none => .ok []
  pure ⟨nonce, header, fragments, bats, inlined⟩

/-- `Vec::resize` with zeros. -/
def resize (bytes : Bytes) (target : ℕ) : Bytes :=
  bytes.take target ++ List.replicate (target - bytes.length) 0

/-- `usize::div_ceil`. -/
def divCeil (a b : ℕ) : Result ℕ := if b = 0 then .error .panic else .ok ((a + b - 1) / b)

/-- The length `build` pads to. -/
def paddedLength (plain paddingBlockSize : ℕ) : Result ℕ := do
  let overhead := if plain ≤ paddingBlockSize then 0 else 6
  let body ← usizeSub plain overhead
  let nBlocks ← divCeil body paddingBlockSize
  pure (nBlocks * paddingBlockSize + overhead)

/-- One fragment: its CID, its BAT and its raw block. -/
def buildFragment (sha256 : Bytes → Bytes) (mirrorBat : Option BatId) (batSecret chunk : Bytes) :
    Result (Cid × BatWithId × Bytes) := do
  let blockBat ← Bat.new batSecret
  let batPrefix ← createRawBlockPrefix blockBat mirrorBat
  let raw := batPrefix ++ chunk
  let cid ← liftMf (buildCid (sha256 raw) true)
  let batId ← blockBat.calculateId sha256
  let bat ← BatWithId.new blockBat batId.id
  pure (cid, bat, raw)

/-- `FragmentedPaddedCipherText::build`, with the nonce and the secret of each fragment's BAT as
they are drawn. -/
def build (P : SecretBoxCipher) (sha256 : Bytes → Bytes) (nonce : Bytes) (batSecrets : ℕ → Bytes)
    (key : SymmetricKey) (secret : CborObject) (paddingBlockSize : ℕ) (mirrorBat : Option BatId) :
    Result (FragmentedPaddedCipherText × List Bytes) := do
  let plain := secret.toBytes
  let target ← paddedLength plain.length paddingBlockSize
  let padded := resize plain target
  let cipher ← P.encrypt key padded nonce
  if padded.length ≤ inlineLimit then pure (⟨nonce, none, [], [], some cipher⟩, [])
  else do
    let headerSize := cipher.length % paddingBlockSize
    let parts ← ((cipher.drop headerSize).toChunks fragmentMaxLength).zipIdx.mapM fun (chunk, i) =>
      buildFragment sha256 mirrorBat (batSecrets i) chunk
    pure (⟨nonce, some (cipher.take headerSize), parts.map fun p => p.1, parts.map fun p => p.2.1,
      none⟩, parts.map fun p => p.2.2)

/-- One fragment read and stripped of its prefix. -/
def readFragment (getRaw : Cid → BatWithId → Result (Option Bytes)) (cid : Cid) (bat : BatWithId) :
    Result Bytes := do
  match ← getRaw cid bat with
  | some raw => removeRawBlockBatPrefix raw
  | none => .error (.err (.protocolCid "fragment missing" cid))

/-- `FragmentedPaddedCipherText::get_and_decrypt`, with the store's `get_raw` for the owner. -/
def getAndDecrypt {α : Type} (P : SecretBoxCipher) (c : FragmentedPaddedCipherText)
    (key : SymmetricKey) (getRaw : Cid → BatWithId → Result (Option Bytes))
    (decode : CborObject → Result α) : Result α := do
  let cipher ←
    match c.inlined with
    | some inlined =>
        .ok (match c.header with
          | some h => h ++ inlined
          | none => inlined)
    | none => do
        if c.fragments.length ≠ c.bats.length then protocolErr "fragment/bat count mismatch"
        else
          let frags ← (c.fragments.zip c.bats).mapM fun (cid, bat) => readFragment getRaw cid bat
          pure (c.header.getD [] ++ frags.flatten)
  let secret ← P.decrypt key cipher c.nonce
  let cbor ← liftCbor (CborObject.fromBytesPrefix secret)
  decode cbor

/-! ## Padding -/

theorem le_paddedLength {plain padding n : ℕ} (h : paddedLength plain padding = .ok n) :
    plain ≤ n := by
  unfold paddedLength at h
  set overhead := if plain ≤ padding then 0 else 6 with hoverhead
  obtain ⟨body, hbody, h⟩ := bind_eq_ok.1 h
  obtain ⟨blocks, hblocks, h⟩ := bind_eq_ok.1 h
  cases h
  unfold usizeSub at hbody
  split at hbody
  · next hle =>
      cases hbody
      unfold divCeil at hblocks
      split at hblocks
      · cases hblocks
      · next hpos =>
          cases hblocks
          have hceil := Nat.div_add_mod (plain - overhead + padding - 1) padding
          have hmod := Nat.mod_lt (plain - overhead + padding - 1) (Nat.pos_of_ne_zero hpos)
          rw [Nat.mul_comm] at hceil
          omega
  · cases hbody

/-- The plain text can be padded if its length less the overhead is no negative number. -/
theorem paddedLength_ok {plain padding : ℕ} (hpos : 0 < padding)
    (hlong : plain ≤ padding ∨ 6 ≤ plain) : ∃ n, paddedLength plain padding = .ok n := by
  have hoverhead : (if plain ≤ padding then 0 else 6) ≤ plain := by
    split
    · exact Nat.zero_le _
    · next hgt => exact hlong.resolve_left hgt
  rw [paddedLength, usizeSub_of_le hoverhead, ok_bind, divCeil, if_neg (by omega), ok_bind]
  exact ⟨_, rfl⟩

theorem resize_eq_append {bytes : Bytes} {target : ℕ} (h : bytes.length ≤ target) :
    resize bytes target = bytes ++ List.replicate (target - bytes.length) 0 := by
  rw [resize, List.take_of_length_le h]

theorem length_resize (bytes : Bytes) (target : ℕ) : (resize bytes target).length = target := by
  simp only [resize, List.length_append, List.length_take, List.length_replicate]
  omega

/-- Padding is what comes after the value. -/
theorem fromBytesPrefix_resize {secret : CborObject} (hsecret : secret.Ordered) {target : ℕ}
    (hle : secret.toBytes.length ≤ target) (hfit : target < 2 ^ 64) :
    CborObject.fromBytesPrefix (resize secret.toBytes target) = .ok secret := by
  have hlen := length_resize secret.toBytes target
  rw [resize_eq_append hle] at hlen ⊢
  exact CborObject.fromBytesPrefix_encoded hsecret (by omega)

/-! ## One fragment -/

theorem ordered_rawBlockBats (inlineId : BatId) (mirrorBat : Option BatId) :
    (rawBlockBats inlineId mirrorBat).Ordered := by
  cases mirrorBat <;> simp [rawBlockBats, CborObject.Ordered, CborObject.OrderedItems, BatId.toCbor]

theorem length_rawBlockBats_le (inlineId : BatId) (mirrorBat : Option BatId) :
    (rawBlockBats inlineId mirrorBat).toBytes.length ≤ 10000 := by
  have hbat : ∀ id : BatId, id.toCbor.toBytes.length ≤ 4161 := by
    intro id
    have hcid := id.id.length_toBytes_le
    have hheader := CborObject.headerSize_le id.id.toBytes.length
    rw [BatId.toCbor, CborObject.length_toBytes_byteString]
    omega
  have hlist := CborObject.length_toBytes_list
    (inlineId.toCbor :: (mirrorBat.map BatId.toCbor).toList)
  have hheader := CborObject.headerSize_le
    (inlineId.toCbor :: (mirrorBat.map BatId.toCbor).toList).length
  have hinline := hbat inlineId
  rw [rawBlockBats]
  cases mirrorBat with
  | none =>
      simp only [Option.map_none, Option.toList_none, List.map_cons, List.map_nil, List.sum_cons,
        List.sum_nil] at hlist hheader ⊢
      omega
  | some mirror =>
      have hmirror := hbat mirror
      simp only [Option.map_some, Option.toList_some, List.map_cons, List.map_nil, List.sum_cons,
        List.sum_nil] at hlist hheader ⊢
      omega

/-- What a raw block holds behind its prefix. -/
theorem removeRawBlockBatPrefix_append {bat : Bat} {mirrorBat : Option BatId} {batPrefix : Bytes}
    (h : createRawBlockPrefix bat mirrorBat = .ok batPrefix) {chunk : Bytes}
    (hchunk : chunk.length ≤ fragmentMaxLength) :
    removeRawBlockBatPrefix (batPrefix ++ chunk) = .ok chunk := by
  obtain ⟨inlineId, -, h⟩ := bind_eq_ok.1 h
  cases h
  set bats := rawBlockBats inlineId mirrorBat with hbats
  have hmagic : rawBlockMagic.length = 8 := rfl
  have hsmall : bats.toBytes.length ≤ 10000 := length_rawBlockBats_le inlineId mirrorBat
  have hread : CborObject.fromBytesPrefix (bats.toBytes ++ chunk) = .ok bats := by
    refine CborObject.fromBytesPrefix_encoded (ordered_rawBlockBats inlineId mirrorBat) ?_
    change (bats.toBytes ++ chunk).length < 2 ^ 64
    rw [fragmentMaxLength] at hchunk
    rw [List.length_append]
    omega
  rw [List.append_assoc, removeRawBlockBatPrefix, if_neg, List.drop_left' hmagic, hread]
  · have hlen : 8 + bats.toBytes.length ≤ (rawBlockMagic ++ (bats.toBytes ++ chunk)).length := by
      rw [List.length_append, List.length_append, hmagic]
      omega
    simp only [liftCbor, ok_bind]
    rw [if_pos hlen, ← List.drop_drop, List.drop_left' hmagic, List.drop_left]
  · rw [List.take_left' hmagic, List.length_append, hmagic]
    simp

/-- A fragment as `build` makes it: it can be named in a node and read back. -/
structure Stored (chunk : Bytes) (part : Cid × BatWithId × Bytes) : Prop where
  cid_version : part.1.version = .v1
  not_identity : part.1.multihash.isIdentity = false
  bat_version : part.2.1.id.version = .v1
  read : removeRawBlockBatPrefix part.2.2 = .ok chunk

theorem new_sha256 {hash : Bytes} (h : hash.length = 32) (codec : Codec) :
    ∃ cid : Cid, Cid.new .v1 codec .sha2_256 hash = .ok cid ∧ cid.version = .v1 ∧
      cid.codec = codec ∧ cid.multihash.isIdentity = false := by
  have hvalid : multihashRefusal .sha2_256 hash = none := by
    simp [multihashRefusal, MultihashType.length, legacyMaxIdentityHashSize, h]
  refine ⟨⟨.v1, codec, ⟨.sha2_256, hash, hvalid⟩⟩, ?_, rfl, rfl, rfl⟩
  have hnew := Multihash.new_of_valid ⟨.sha2_256, hash, hvalid⟩
  simp only at hnew
  rw [Cid.new, hnew]
  rfl

variable {sha256 : Bytes → Bytes} (hsha : ∀ data, (sha256 data).length = 32)

include hsha in
theorem buildFragment_stored (mirrorBat : Option BatId) {batSecret chunk : Bytes}
    (hsecret : batSecret.length = 32) (hchunk : chunk.length ≤ fragmentMaxLength) :
    ∃ part, buildFragment sha256 mirrorBat batSecret chunk = .ok part ∧ Stored chunk part := by
  obtain ⟨batPrefix, hprefix⟩ :
      ∃ batPrefix, createRawBlockPrefix ⟨batSecret, hsecret⟩ mirrorBat = .ok batPrefix := by
    have hvalid : multihashRefusal .id batSecret = none := by
      simp [multihashRefusal, MultihashType.length, legacyMaxIdentityHashSize, hsecret]
    have hnew := Multihash.new_of_valid ⟨.id, batSecret, hvalid⟩
    simp only at hnew
    simp only [createRawBlockPrefix, BatId.inline, Cid.new, hnew]
    exact ⟨_, rfl⟩
  obtain ⟨cid, hcid, hversion, -, hidentity⟩ := new_sha256 (hsha (batPrefix ++ chunk)) .raw
  obtain ⟨batId, hbatId, hbatVersion, hbatCodec, hbatIdentity⟩ :=
    new_sha256 (hsha (Bat.toCbor ⟨batSecret, hsecret⟩).toBytes) .raw
  refine ⟨(cid, ⟨⟨batSecret, hsecret⟩, batId, hbatIdentity, hbatCodec⟩, batPrefix ++ chunk), ?_,
    hversion, hidentity, hbatVersion, removeRawBlockBatPrefix_append hprefix hchunk⟩
  simp only [buildFragment, Bat.new, dif_pos hsecret, hprefix, ok_bind, buildCid, if_true, hcid,
    liftMf, Bat.calculateId, hbatId, BatWithId.new, dif_pos hbatIdentity, dif_pos hbatCodec, pure,
    Except.pure]

/-! ## All fragments -/

include hsha in
/-- Every piece of the ciphertext becomes a fragment. -/
theorem buildFragments_stored (mirrorBat : Option BatId) {batSecrets : ℕ → Bytes}
    (hsecrets : ∀ i, (batSecrets i).length = 32) {chunks : List Bytes}
    (hchunks : ∀ chunk ∈ chunks, chunk.length ≤ fragmentMaxLength) (start : ℕ) :
    ∃ parts, ((chunks.zipIdx start).mapM fun p : Bytes × ℕ =>
        buildFragment sha256 mirrorBat (batSecrets p.2) p.1) = .ok parts ∧
      List.Forall₂ Stored chunks parts := by
  induction chunks generalizing start with
  | nil => exact ⟨[], rfl, .nil⟩
  | cons chunk chunks ih =>
      rw [List.forall_mem_cons] at hchunks
      obtain ⟨part, hpart, hstored⟩ :=
        buildFragment_stored hsha mirrorBat (hsecrets start) hchunks.1
      obtain ⟨parts, hparts, hall⟩ := ih hchunks.2 (start + 1)
      refine ⟨part :: parts, ?_, .cons hstored hall⟩
      rw [List.zipIdx_cons, List.mapM_cons, hpart, ok_bind, hparts]
      rfl

/-- Fragments that are all there read back as the pieces they were made from. -/
theorem readFragments_stored {getRaw : Cid → BatWithId → Result (Option Bytes)}
    {chunks : List Bytes} {parts : List (Cid × BatWithId × Bytes)}
    (h : List.Forall₂ Stored chunks parts)
    (hget : ∀ part ∈ parts, getRaw part.1 part.2.1 = .ok (some part.2.2)) :
    (((parts.map fun p => p.1).zip (parts.map fun p => p.2.1)).mapM fun p : Cid × BatWithId =>
      readFragment getRaw p.1 p.2) = .ok chunks := by
  induction h with
  | nil => rfl
  | cons hstored _ ih =>
      rw [List.forall_mem_cons] at hget
      rw [List.map_cons, List.map_cons, List.zip_cons_cons, List.mapM_cons, ih hget.2]
      simp only [readFragment, hget.1, ok_bind, hstored.read]
      rfl

theorem readItems_links {cids acc : List Cid} (h : ∀ cid ∈ cids, cid.version = .v1)
    (inlined : Option Bytes) :
    readItems (cids.map fun c => .merkleLink c.toBytes) acc inlined = .ok (acc ++ cids, inlined) := by
  induction cids generalizing acc with
  | nil => simp [readItems]
  | cons cid cids ih =>
      rw [List.forall_mem_cons] at h
      rw [List.map_cons, readItems, Cid.cast_toBytes h.1, liftMf, ok_bind, ih h.2,
        List.append_assoc, List.singleton_append]

/-- Ciphertext kept in the node reads back. -/
theorem fromCbor_toCbor_inline (nonce cipher : Bytes) :
    fromCbor (toCbor ⟨nonce, none, [], [], some cipher⟩) =
      .ok ⟨nonce, none, [], [], some cipher⟩ := by
  set puts : List (String × CborObject) :=
    [("n", .byteString nonce), ("f", .list [.byteString cipher])] with hputs
  have hcbor : toCbor ⟨nonce, none, [], [], some cipher⟩ = .build puts := by
    simp [toCbor, hputs]
  have hn : (CborObject.build puts).get "n" = some (.byteString nonce) :=
    CborObject.get_build_of_mem (by simp [hputs]) (by simp [hputs])
  have hf : (CborObject.build puts).get "f" = some (.list [.byteString cipher]) :=
    CborObject.get_build_of_mem (by simp [hputs]) (by simp [hputs])
  have hh : (CborObject.build puts).get "h" = none :=
    CborObject.get_build_of_not_mem (by simp [hputs])
  have hb : (CborObject.build puts).get "bats" = none :=
    CborObject.get_build_of_not_mem (by simp [hputs])
  rw [hcbor]
  simp only [fromCbor, hn, hf, hh, hb, Option.bind_some, Option.bind_none, CborObject.asBytes,
    CborObject.asList, ok_bind, readItems]
  rfl

/-- A header with fragments reads back. -/
theorem fromCbor_toCbor_fragments (nonce header : Bytes) {fragments : List Cid}
    {bats : List BatWithId} (hversion : ∀ cid ∈ fragments, cid.version = .v1)
    (hidentity : ∀ cid ∈ fragments, cid.multihash.isIdentity = false)
    (hbats : ∀ bat ∈ bats, bat.id.version = .v1) :
    fromCbor (toCbor ⟨nonce, some header, fragments, bats, none⟩) =
      .ok ⟨nonce, some header, fragments, bats, none⟩ := by
  set links := CborObject.list (fragments.map fun f => .merkleLink f.toBytes) with hlinks
  set batList := CborObject.list (bats.map BatWithId.toCbor) with hbatList
  set puts : List (String × CborObject) :=
    [("n", .byteString nonce), ("h", .byteString header), ("f", links), ("bats", batList)] with hputs
  have hlinked : ¬((none : Option Bytes).isSome ∨
      (fragments.length = 1 ∧ fragments.head?.any (fun f => f.multihash.isIdentity) = true)) := by
    rintro (h | ⟨-, h⟩)
    · cases h
    · obtain ⟨cid, hcid, hid⟩ := (Option.any_eq_true _ _).1 h
      rw [hidentity cid (List.mem_of_mem_head? hcid)] at hid
      cases hid
  have hcbor : toCbor ⟨nonce, some header, fragments, bats, none⟩ = .build puts := by
    rw [toCbor]
    dsimp only
    rw [if_neg hlinked]
    rfl
  have hn : (CborObject.build puts).get "n" = some (.byteString nonce) :=
    CborObject.get_build_of_mem (by simp [hputs]) (by simp [hputs])
  have hh : (CborObject.build puts).get "h" = some (.byteString header) :=
    CborObject.get_build_of_mem (by simp [hputs]) (by simp [hputs])
  have hf : (CborObject.build puts).get "f" = some links :=
    CborObject.get_build_of_mem (by simp [hputs]) (by simp [hputs])
  have hb : (CborObject.build puts).get "bats" = some batList :=
    CborObject.get_build_of_mem (by simp [hputs]) (by simp [hputs])
  have hreadBats : (bats.map BatWithId.toCbor).mapM BatWithId.fromCbor = .ok bats :=
    mapM_map_eq_ok fun bat hbat => BatWithId.fromCbor_toCbor (hbats bat hbat)
  rw [hcbor]
  simp only [fromCbor, hn, hf, hh, hb, Option.bind_some, CborObject.asBytes, hlinks, hbatList,
    CborObject.asList, ok_bind, readItems_links hversion, hreadBats, List.nil_append]
  rfl

/-! ## The whole way -/

/-- The ciphertext that was put together again opens and gives back the secret. -/
theorem decrypt_resize {α : Type} {P : SecretBoxCipher} (hP : P.Correct) {key : SymmetricKey}
    {nonce cipher : Bytes} {secret : CborObject} (hsecret : secret.Ordered) {target : ℕ}
    (hle : secret.toBytes.length ≤ target) (hfit : target < 2 ^ 64)
    (hcipher : P.encrypt key (resize secret.toBytes target) nonce = .ok cipher)
    (decode : CborObject → Result α) :
    (do let plain ← P.decrypt key cipher nonce
        let cbor ← liftCbor (CborObject.fromBytesPrefix plain)
        decode cbor) = decode secret := by
  rw [SecretBoxCipher.decrypt_encrypt hP hcipher, ok_bind, fromBytesPrefix_resize hsecret hle hfit]
  rfl

include hsha in
/-- A secret that is encrypted, laid out in a node and in fragments, and read back from the node's
encoding with the fragments as they were put is the secret, as long as it can be padded at all. -/
theorem fragments_roundTrip (P : SecretBoxCipher) (hP : P.Correct)
    {nonce : Bytes} (hnonce : nonce.length = SecretBoxCipher.nonceBytes) {batSecrets : ℕ → Bytes}
    (hbats : ∀ i, (batSecrets i).length = 32) {key : SymmetricKey} (hkey : key.key.length = 32)
    {secret : CborObject} (hsecret : secret.Built) {padding : ℕ} (hpadding : 0 < padding)
    (hlong : secret.toBytes.length ≤ padding ∨ 6 ≤ secret.toBytes.length)
    (hfit : ∀ n, paddedLength secret.toBytes.length padding = .ok n → n < 2 ^ 64)
    (mirrorBat : Option BatId) :
    ∃ fpct raws, build P sha256 nonce batSecrets key secret padding mirrorBat = .ok (fpct, raws) ∧
      ∃ parsed, fromCbor fpct.toCbor = .ok parsed ∧
        ∀ (α : Type) (getRaw : Cid → BatWithId → Result (Option Bytes))
          (decode : CborObject → Result α),
          (∀ p ∈ (fpct.fragments.zip fpct.bats).zip raws,
            getRaw p.1.1 p.1.2 = .ok (some p.2)) →
          getAndDecrypt P parsed key getRaw decode = decode secret := by
  obtain ⟨target, htarget⟩ := paddedLength_ok hpadding hlong
  have hle := le_paddedLength htarget
  set cipher := (P.encryptInPlaceDetached (resize secret.toBytes target) nonce key.key).2 ++
    (P.encryptInPlaceDetached (resize secret.toBytes target) nonce key.key).1 with hcipherDef
  have hcipher : P.encrypt key (resize secret.toBytes target) nonce = .ok cipher :=
    SecretBoxCipher.encrypt_eq hkey hnonce _
  have hopen : ∀ (α : Type) (decode : CborObject → Result α),
      (do let plain ← P.decrypt key cipher nonce
          let cbor ← liftCbor (CborObject.fromBytesPrefix plain)
          decode cbor) = decode secret := fun α decode =>
    decrypt_resize hP hsecret.ordered hle (hfit target htarget) hcipher decode
  by_cases hinline : target ≤ inlineLimit
  · refine ⟨_, [], ?_, _, fromCbor_toCbor_inline nonce cipher, fun α getRaw decode _ => hopen α decode⟩
    simp only [build, htarget, ok_bind, hcipher, length_resize, if_pos hinline]
    rfl
  · set body := cipher.drop (cipher.length % padding) with hbody
    have hchunks : ∀ chunk ∈ body.toChunks fragmentMaxLength, chunk.length ≤ fragmentMaxLength :=
      fun chunk hchunk => (mem_toChunks (by decide) hchunk).2.1
    obtain ⟨parts, hparts, hstored⟩ := buildFragments_stored hsha mirrorBat hbats hchunks 0
    have hall : ∀ part ∈ parts, ∃ chunk, Stored chunk part := by
      intro part hpart
      obtain ⟨i, hi, rfl⟩ := List.getElem_of_mem hpart
      exact ⟨_, hstored.get (by rw [hstored.length_eq]; exact hi) hi⟩
    refine ⟨⟨nonce, some (cipher.take (cipher.length % padding)), parts.map fun p => p.1,
      parts.map fun p => p.2.1, none⟩, parts.map fun p => p.2.2, ?_, _,
      fromCbor_toCbor_fragments _ _ ?_ ?_ ?_, fun α getRaw decode hget => ?_⟩
    · simp only [build, htarget, ok_bind, hcipher, length_resize, if_neg hinline]
      rw [← hbody, hparts]
      rfl
    · intro cid hcid
      obtain ⟨part, hpart, rfl⟩ := List.mem_map.1 hcid
      obtain ⟨chunk, hchunk⟩ := hall part hpart
      exact hchunk.cid_version
    · intro cid hcid
      obtain ⟨part, hpart, rfl⟩ := List.mem_map.1 hcid
      obtain ⟨chunk, hchunk⟩ := hall part hpart
      exact hchunk.not_identity
    · intro bat hbat
      obtain ⟨part, hpart, rfl⟩ := List.mem_map.1 hbat
      obtain ⟨chunk, hchunk⟩ := hall part hpart
      exact hchunk.bat_version
    · have hread := @readFragments_stored getRaw _ _ hstored fun part hpart =>
        hget ((part.1, part.2.1), part.2.2) (by
          rw [List.zip_map', List.zip_map']
          exact List.mem_map.2 ⟨part, hpart, rfl⟩)
      have hjoined : cipher.take (cipher.length % padding) ++
          (body.toChunks fragmentMaxLength).flatten = cipher := by
        rw [flatten_toChunks (by decide), hbody, List.take_append_drop]
      rw [getAndDecrypt]
      simp only [List.length_map, ne_eq, not_true_eq_false, if_false]
      rw [hread, ok_bind]
      simp only [pure, Except.pure, ok_bind, Option.getD_some]
      rw [hjoined]
      exact hopen α decode

/-- A cipher that leaves the text as it is and checks the tag. -/
def plainCipher : SecretBoxCipher where
  encryptInPlaceDetached data _ _ := (data, List.replicate 16 0)
  decryptInPlaceDetached data tag _ _ := if tag = List.replicate 16 0 then some data else none
  tag_length _ _ _ := rfl

theorem plainCipher_correct : plainCipher.Correct := by
  intro data nonce key
  simp [plainCipher]

def sampleKey : SymmetricKey := ⟨List.replicate 32 1, false⟩

def sampleNonce : Bytes := List.replicate 24 2

def sampleBats (_ : ℕ) : Bytes := List.replicate 32 3

/-- Five thousand bytes, too long for the node itself. -/
def sampleSecret : CborObject := .byteString (List.replicate 5000 7)

theorem fragments_roundTrip_sample :
    ∃ fpct raws, build plainCipher Sha256.sha256 sampleNonce sampleBats sampleKey
        sampleSecret 4096 none = .ok (fpct, raws) ∧
      ∃ parsed, fromCbor fpct.toCbor = .ok parsed ∧
        ∀ (α : Type) (getRaw : Cid → BatWithId → Result (Option Bytes))
          (decode : CborObject → Result α),
          (∀ p ∈ (fpct.fragments.zip fpct.bats).zip raws,
            getRaw p.1.1 p.1.2 = .ok (some p.2)) →
          getAndDecrypt plainCipher parsed sampleKey getRaw decode = decode sampleSecret := by
  have hlen : sampleSecret.toBytes.length = 5003 := by
    change (CborObject.writeString 2 (List.replicate 5000 7)).length = 5003
    rw [CborObject.writeString, List.length_append, List.length_replicate]
    rfl
  have hbuilt : sampleSecret.Built := .byteString _
  refine fragments_roundTrip Sha256.length_sha256 plainCipher plainCipher_correct rfl
    (fun _ => rfl) rfl hbuilt (by norm_num) (Or.inr (by rw [hlen]; norm_num)) ?_ none
  intro n hn
  rw [hlen] at hn
  cases hn
  norm_num

/-- A block size of zero, and a secret of fewer than six bytes that is longer than a block: `build`
panics. -/
theorem build_panics :
    build plainCipher Sha256.sha256 sampleNonce sampleBats sampleKey
        (.byteString [1, 2, 3, 4]) 0 none = .error .panic ∧
      build plainCipher Sha256.sha256 sampleNonce sampleBats sampleKey
        (.byteString [1, 2, 3, 4]) 4 none = .error .panic :=
  ⟨rfl, rfl⟩

end FragmentedPaddedCipherText

end Peergos
