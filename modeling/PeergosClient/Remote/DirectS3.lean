import PeergosClient.Lib.SortedMap
import PeergosClient.Remote.HttpStorage

/-!
# Blocks in S3

`DirectS3Storage` reads and writes large raw blocks straight from and to S3 where the server keeps
its blocks there, and leaves everything else to the storage it wraps.  The server presigns the
requests, and the hash of a block written is the one in the address it was written to.
-/

namespace Peergos

open CborObject

/-- `hash_to_key`. -/
def hashToKey (hash : Cid) : String := base32Encode hash.toBytes

/-- `key_to_hash`. -/
def keyToHash (key : String) : Result Cid := do
  let bytes ←
    match base32Decode key with
    | .ok bytes => .ok bytes
    | .error (.err (.multiformat e)) => protocolErr ("bad S3 key base32: multiformat error: " ++ e)
    | .error f => .error f
  liftMf (Cid.cast bytes)

/-- `raw_block_bats`. -/
def rawBlockBatIds (block : Bytes) : List BatId :=
  if block.length < 8 ∨ block.take 8 ≠ rawBlockMagic then []
  else
    match fromBytes (block.drop 8) with
    | .ok cbor => (cbor.asList.getD []).filterMap fun c => (BatId.fromCbor c).toOption
    | .error _ => []

/-! ## What is sent and answered -/

/-- `BlockStoreProperties`. -/
structure BlockStoreProperties where
  directWrites : Bool
  publicReads : Bool
  authedReads : Bool
  basePublicReadUrl : Option String
  baseAuthedUrl : Option String

/-- `PresignedUrl`. -/
structure PresignedUrl where
  base : String
  fields : SortedMap String String

namespace PresignedUrl

/-- `PresignedUrl::from_cbor`. -/
def fromCbor (cbor : CborObject) : Result PresignedUrl :=
  match (cbor.get "b").bind asString with
  | none => cborErr "PresignedUrl missing 'b'"
  | some base =>
      let headers :=
        match cbor.get "h" with
        | some (.map entries) => entries
        | _ => []
      .ok ⟨base, headers.foldl (fun fields e =>
        match asString e.2 with
        | some v => fields.insert e.1 v
        | none => fields) ∅⟩

/-- `PresignedUrl::header_pairs`. -/
def headerPairs (u : PresignedUrl) : List (String × String) := u.fields.entries

/-- The last segment of the address, `url.base.rsplit('/').next()`. -/
def key (u : PresignedUrl) : String :=
  String.ofList (u.base.toList.reverse.takeWhile (· ≠ '/')).reverse

end PresignedUrl

/-- `parse_presigned_list`. -/
def parsePresignedList (raw : Bytes) : Result (List PresignedUrl) := do
  let cbor ← liftCbor (fromBytes raw)
  match cbor.asList with
  | none => cborErr "expected a list of PresignedUrl"
  | some items => items.mapM PresignedUrl.fromCbor

/-- `BlockMirrorCap`. -/
structure BlockMirrorCap where
  hash : Cid
  bat : Option BatWithId

/-- `BlockMirrorCap::to_cbor`. -/
def BlockMirrorCap.toCbor (c : BlockMirrorCap) : CborObject :=
  .build ([("h", .byteString c.hash.toBytes)] ++ (c.bat.map fun b => ("b", b.toCbor)).toList)

/-- The `l` of a write request. -/
def sizeList (blocks : List Bytes) : CborObject :=
  .list (blocks.map fun b => .long (Int64.ofNat b.length))

/-- The `b` of a write request. -/
def batIdList (blocks : List Bytes) : CborObject :=
  .list (blocks.map fun b => .list ((rawBlockBatIds b).map BatId.toCbor))

/-- `WriteAuthRequest`, for some blocks. -/
def writeAuthRequest (signatures blocks : List Bytes) : CborObject :=
  .build [("s", byteList signatures), ("l", sizeList blocks), ("b", batIdList blocks)]

/-- `BlockWriteAuth`, for some blocks. -/
def blockWriteAuth (hashes : List Cid) (signature : Bytes) (blocks : List Bytes) : CborObject :=
  .build [("h", linkList hashes), ("l", sizeList blocks), ("b", batIdList blocks),
    ("s", .byteString signature)]

/-! ## The storage -/

/-- `DirectS3Storage`; its flag is in the session. -/
structure DirectS3Storage (ω : Type) where
  props : BlockStoreProperties
  server : HttpPoster ω
  direct : HttpPoster ω
  fallback : BlockStorage (Session ω)

namespace DirectS3Storage

variable (env : RemoteEnv) {ω : Type} (d : DirectS3Storage ω) (owner writer : PublicKeyHash)
  (signer : SigningPrivateKeyAndPublicHash) (tid : TransactionId)

/-- The address of a request to presign writes. -/
def authUrl (call : String) (isRaw : Bool) : Result String := do
  let o ← owner.target.toString
  let w ← writer.target.toString
  .ok (apiPrefix ++ call ++ "?owner=" ++ urlEncode o ++ "&writer=" ++ urlEncode w ++
    "&transaction=" ++ urlEncode tid ++ "&raw=" ++ (if isRaw then "true" else "false"))

/-- `DirectS3Storage::auth_reads`. -/
def authReads (blocks : List BlockMirrorCap) : Exec (Session ω) Fault (List PresignedUrl) := do
  let body := (CborObject.list (blocks.map BlockMirrorCap.toCbor)).toBytes
  let o ← Exec.lift owner.target.toString
  let raw ← ask (d.server.postUnzip (apiPrefix ++ "blockstore/auth-reads?owner=" ++ urlEncode o)
    body 30000)
  Exec.lift (parsePresignedList raw)

/-- `DirectS3Storage::auth_writes`. -/
def authWrites (signatures blocks : List Bytes) (isRaw : Bool) :
    Exec (Session ω) Fault (List PresignedUrl) := do
  let body := (writeAuthRequest signatures blocks).toBytes
  let url ← Exec.lift (authUrl owner writer tid "blockstore/auth" isRaw)
  let raw ← ask (d.server.postUnzip url body (writeTimeoutMs 60000 body.length))
  Exec.lift (parsePresignedList raw)

/-- `DirectS3Storage::auth_writes_v2`. -/
def authWritesV2 (auth : CborObject) (isRaw : Bool) :
    Exec (Session ω) Fault (List PresignedUrl) := do
  let url ← Exec.lift (authUrl owner writer tid "blockstore/auth/v2" isRaw)
  let raw ← ask (d.server.postUnzip url auth.toBytes 60000)
  Exec.lift (parsePresignedList raw)

/-- `DirectS3Storage::upload`, over the pairs of a block and its address. -/
def upload : List (Bytes × PresignedUrl) → Exec (Session ω) Fault (List Cid)
  | [] => pure []
  | (block, url) :: rest => do
      let cid ← Exec.lift (keyToHash url.key)
      let _ ← ask (d.direct.put url.base block url.headerPairs)
      let cids ← upload rest
      pure (cid :: cids)

/-- Whether some blocks go to the server: they are all small, or S3 takes no writes. -/
def ToServer (blocks : List Bytes) : Prop :=
  (∀ b ∈ blocks, b.length < maxSmallBlockSize) ∨ d.props.directWrites = false

instance (blocks : List Bytes) : Decidable (d.ToServer blocks) :=
  inferInstanceAs (Decidable (_ ∨ _))

/-- `DirectS3Storage::put_raw`. -/
def putRaw (signedHashes blocks : List Bytes) : Exec (Session ω) Fault (List Cid) :=
  if d.ToServer blocks then d.fallback.putRaw owner writer signedHashes blocks tid
  else do
    match ← Exec.attempt (authWrites d owner writer tid signedHashes blocks true) with
    | .ok urls =>
        if urls.length = blocks.length then upload d (blocks.zip urls)
        else d.fallback.putRaw owner writer signedHashes blocks tid
    | .error (.err _) => d.fallback.putRaw owner writer signedHashes blocks tid
    | .error f => Exec.fail f

/-- The end of `put_raw_batch`: a signature for each block. -/
def putRawSigned (blocks : List Bytes) : Exec (Session ω) Fault (List Cid) := do
  let sigs ← Exec.lift (blocks.mapM (signBlock env signer))
  putRaw d owner signer.publicKeyHash tid sigs blocks

/-- `DirectS3Storage::put_raw_batch`. -/
def putRawBatch (blocks : List Bytes) : Exec (Session ω) Fault (List Cid) :=
  if d.ToServer blocks then d.fallback.putRawBatch owner signer blocks tid
  else do
    let supported ← Exec.reads Session.authV2Supported
    if supported then do
      let hashes ← Exec.lift (hashesOf env true blocks)
      let signature ← Exec.lift (env.signMessage signer.secret (blockWritePayload env owner hashes))
      let auth := blockWriteAuth hashes signature blocks
      match ← Exec.attempt (authWritesV2 d owner signer.publicKeyHash tid auth true) with
      | .ok urls =>
          if urls.length = blocks.length then upload d (blocks.zip urls)
          else putRawSigned env d owner signer tid blocks
      | .error (.err e) => do
          if isUnimplemented e then
            Exec.update fun s => { s with authV2Supported := false }
          putRawSigned env d owner signer tid blocks
      | .error f => Exec.fail f
    else putRawSigned env d owner signer tid blocks

/-! ### Reads -/

/-- A read from S3: anything but bytes counts as a miss. -/
def tryDirect (url : String) : Exec (Session ω) Fault (Option Bytes) := do
  match ← Exec.attempt (ask (d.direct.get url)) with
  | .ok bytes => pure (if bytes = [] then none else some bytes)
  | .error (.err _) => pure none
  | .error f => Exec.fail f

/-- The read from the public address of a bucket. -/
def tryPublic (hash : Cid) : Exec (Session ω) Fault (Option Bytes) :=
  match d.props.publicReads, d.props.basePublicReadUrl with
  | true, some base => tryDirect d (base ++ hashToKey hash)
  | _, _ => pure none

/-- The read of a raw block from an address the server presigns. -/
def tryAuthed (hash : Cid) (bat : Option BatWithId) : Exec (Session ω) Fault (Option Bytes) :=
  if d.props.authedReads ∧ hash.codec = .raw then do
    match ← Exec.attempt (authReads d owner [⟨hash, bat⟩]) with
    | .ok (u :: _) => tryDirect d u.base
    | .ok [] => pure none
    | .error (.err _) => pure none
    | .error f => Exec.fail f
  else pure none

/-- `DirectS3Storage::get_raw`. -/
def getRaw (hash : Cid) (bat : Option BatWithId) : Exec (Session ω) Fault (Option Bytes) :=
  if hash.multihash.isIdentity then pure (some hash.multihash.hash)
  else do
    match ← tryPublic d hash with
    | some bytes => pure (some bytes)
    | none => do
        match ← tryAuthed d owner hash bat with
        | some bytes => pure (some bytes)
        | none => d.fallback.getRaw owner hash bat

/-- `DirectS3Storage::get`. -/
def get (hash : Cid) (bat : Option BatWithId) : Exec (Session ω) Fault (Option CborObject) := do
  match ← getRaw d owner hash bat with
  | some raw => do
      let cbor ← Exec.lift (liftCbor (fromBytes raw))
      pure (some cbor)
  | none => pure none

/-- `DirectS3Storage` as a storage. -/
def storage : BlockStorage (Session ω) where
  getRaw owner := getRaw d owner
  get owner := get d owner
  put := d.fallback.put
  putRaw owner writer signedHashes blocks tid := putRaw d owner writer tid signedHashes blocks
  putBatch := d.fallback.putBatch
  putRawBatch owner signer blocks tid := putRawBatch env d owner signer tid blocks

end DirectS3Storage

end Peergos
