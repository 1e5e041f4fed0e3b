import PeergosClient.Buffered.CommitSize
import PeergosClient.Core.Bases
import PeergosClient.Core.Ram
import PeergosClient.Fs.Fragments

/-!
# Block storage over HTTP

`HttpStorage` reads and writes blocks through a Peergos server.  Writes go in groups of bounded
size, with one signature for a group where the server has the call for it and with one for each
block where it does not.  The hashes a write returns and the bytes a read returns are those of the
server's answers.

The other end is an `HttpPoster` over a state `ω` of its own: it may answer anything, and the same
request differently each time.
-/

namespace Peergos

open CborObject

/-! ## The transport -/

/-- `HttpPoster`, over the state of whoever answers. -/
structure HttpPoster (ω : Type) where
  post : String → Bytes → Bool → ℤ → Exec ω Fault Bytes
  put : String → Bytes → List (String × String) → Exec ω Fault Bytes
  get : String → Exec ω Fault Bytes

/-- `HttpPoster::post_unzip`. -/
def HttpPoster.postUnzip {ω : Type} (p : HttpPoster ω) (url : String) (payload : Bytes)
    (timeoutMs : ℤ) : Exec ω Fault Bytes :=
  p.post url payload true timeoutMs

/-- `API_PREFIX`. -/
def apiPrefix : String := "api/v0/"

/-- `MIN_UPLOAD_BYTES_PER_SECOND`. -/
def minUploadBytesPerSecond : ℤ := 8000

/-- `write_timeout_ms`. -/
def writeTimeoutMs (baseMs : ℤ) (bodyBytes : ℕ) : ℤ :=
  min (baseMs + bodyBytes * 1000 / minUploadBytesPerSecond) (2 ^ 31 - 1)

/-- The form of one byte in `url_encode`. -/
def urlByte (b : UInt8) : List Char :=
  let c := Char.ofNat b.toNat
  let hex := fun n : ℕ => "0123456789ABCDEF".toList.getD n '0'
  if c.isAlphanum ∨ c ∈ ['-', '_', '.', '*'] then [c]
  else if c = ' ' then ['+']
  else ['%', hex (b.toNat / 16), hex (b.toNat % 16)]

/-- `url_encode`. -/
def urlEncode (component : String) : String :=
  String.ofList ((utf8 component).flatMap urlByte)

/-- `serde_json::Value`.  A number is kept as its text, which nothing here reads. -/
inductive Json where
  | null
  | bool (b : Bool)
  | number (text : String)
  | string (s : String)
  | array (items : List Json)
  | object (members : List (String × Json))

namespace Json

/-- `Value::get`. -/
def get : Json → String → Option Json
  | object members, key => (members.find? fun m => m.1 = key).map Prod.snd
  | _, _ => none

/-- `Value::as_str`. -/
def asStr : Json → Option String
  | string s => some s
  | _ => none

end Json

/-- What the storages use of other crates: the hash, the signature, the reading of JSON, and the
S3 authorisation of a read made on the spot. -/
structure RemoteEnv where
  sha256 : Bytes → Bytes
  signMessage : Bytes → Bytes → Result Bytes
  /-- `serde_json::from_slice`. -/
  jsonValue : Bytes → Except String Json
  /-- The values of a `serde_json::Deserializer`, up to the first it cannot read. -/
  jsonStream : Bytes → List (Except String Json)
  generateAuth : BatWithId → Cid → Cid → Result String

/-- What a session changes: whoever answers, and what has been learnt of the server. -/
structure Session (ω : Type) where
  world : ω
  /-- `batch_signed_put_supported`. -/
  batchSignedPutSupported : Bool
  /-- `auth_v2_supported`. -/
  authV2Supported : Bool

/-- A call to the other end. -/
def ask {ω α : Type} (x : Exec ω Fault α) : Exec (Session ω) Fault α :=
  Exec.zoom Session.world (fun w s => { s with world := w }) x

/-- `ContentAddressedStorage`, as far as the bytes of blocks go. -/
structure BlockStorage (τ : Type) where
  getRaw : PublicKeyHash → Cid → Option BatWithId → Exec τ Fault (Option Bytes)
  get : PublicKeyHash → Cid → Option BatWithId → Exec τ Fault (Option CborObject)
  put : PublicKeyHash → PublicKeyHash → List Bytes → List Bytes → TransactionId →
    Exec τ Fault (List Cid)
  putRaw : PublicKeyHash → PublicKeyHash → List Bytes → List Bytes → TransactionId →
    Exec τ Fault (List Cid)
  putBatch : PublicKeyHash → SigningPrivateKeyAndPublicHash → List Bytes → TransactionId →
    Exec τ Fault (List Cid)
  putRawBatch : PublicKeyHash → SigningPrivateKeyAndPublicHash → List Bytes → TransactionId →
    Exec τ Fault (List Cid)

/-- `put_block_signed`. -/
def putBlockSigned {τ : Type} (S : BlockStorage τ) (owner : PublicKeyHash)
    (writer : SigningPrivateKeyAndPublicHash) (block : Bytes) (tid : TransactionId) :
    Exec τ Fault Cid := do
  match ← S.putBatch owner writer [block] tid with
  | cid :: _ => pure cid
  | [] => Exec.fail (.err (.protocol "put returned no cid"))

/-- The storage as a champ writes its nodes to it; `read` is what its reads come back with. -/
def BlockStorage.nodes {τ : Type} (S : BlockStorage τ) (owner : PublicKeyHash)
    (writer : SigningPrivateKeyAndPublicHash) (tid : TransactionId)
    (read : τ → Cid → Result (Option CborObject)) : ContentAddressedStorage τ where
  get := read
  put s block :=
    match putBlockSigned S owner writer block.toBytes tid s with
    | (.ok cid, s') => .ok (cid, s')
    | (.error e, _) => .error e

/-! ## What is sent and answered -/

/-- `BlockWriteGroup`. -/
structure BlockWriteGroup where
  blocks : List Bytes
  signatures : List Bytes

/-- `BlockWriteGroup::to_cbor`. -/
def BlockWriteGroup.toCbor (g : BlockWriteGroup) : CborObject :=
  .build [("b", byteList g.blocks), ("s", byteList g.signatures)]

/-- `BlockWriteBatch`. -/
structure BlockWriteBatch where
  blocks : List Bytes
  signature : Bytes

/-- `BlockWriteBatch::to_cbor`. -/
def BlockWriteBatch.toCbor (b : BlockWriteBatch) : CborObject :=
  .build [("b", byteList b.blocks), ("s", .byteString b.signature)]

/-- `group_by_size`, with the groups so far and the bytes of the last one. -/
def groupBySizeLoop (max : ℕ) : List Bytes → List (List Bytes) → ℕ → List (List Bytes)
  | [], groups, _ => groups
  | b :: blocks, groups, used =>
      if groups = [] ∨ used + b.length > max then
        groupBySizeLoop max blocks (groups ++ [[b]]) b.length
      else groupBySizeLoop max blocks (groups.modifyLast (· ++ [b])) (used + b.length)

/-- `group_by_size`. -/
def groupBySize (blocks : List Bytes) (max : ℕ) : List (List Bytes) :=
  groupBySizeLoop max blocks [] 0

/-- `parse_link_list`. -/
def parseLinkList (raw : Bytes) : Result (List Cid) := do
  let cbor ← liftCbor (fromBytes raw)
  match cbor.asList with
  | none => protocolErr "expected a list of block hashes"
  | some items =>
      items.mapM fun c =>
        match c.asLink with
        | none => protocolErr "expected a block hash"
        | some link => liftMf (Cid.cast link)

/-- `get_object_hash`. -/
def getObjectHash (json : Json) : Result Cid :=
  match (json.get "Hash").bind Json.asStr with
  | some h => Cid.decode h
  | none =>
      match json.get "Key" with
      | some (.string s) => Cid.decode s
      | some (.object members) =>
          match ((Json.object members).get "/").bind Json.asStr with
          | some s => Cid.decode s
          | none => protocolErr "Couldn't parse hash from response!"
      | _ => protocolErr "Couldn't parse hash from response!"

variable (env : RemoteEnv)

/-- `hash_to_cid`. -/
def hashToCid (input : Bytes) (isRaw : Bool) : Result Cid :=
  liftMf (buildCid (env.sha256 input) isRaw)

/-- `hash_to_cid` of each of some blocks. -/
def hashesOf (isRaw : Bool) (blocks : List Bytes) : Result (List Cid) :=
  blocks.mapM fun b => hashToCid env b isRaw

/-- `sign_block`. -/
def signBlock (signer : SigningPrivateKeyAndPublicHash) (block : Bytes) : Result Bytes :=
  env.signMessage signer.secret (env.sha256 block)

/-- `block_write_payload`. -/
def blockWritePayload (owner : PublicKeyHash) (hashes : List Cid) : Bytes :=
  env.sha256 (owner.target.toBytes ++ (hashes.map Cid.toBytes).flatten)

/-- `parse_hash_stream`. -/
def parseHashStream (raw : Bytes) : Result (List Cid) :=
  (env.jsonStream raw).mapM fun item =>
    match item with
    | .error e => protocolErr ("bad put json: " ++ e)
    | .ok value => getObjectHash value

/-! ## The storage -/

/-- `HttpStorage`; its flag is in the session. -/
structure HttpStorage (ω : Type) where
  poster : HttpPoster ω
  isPeergosServer : Bool

namespace HttpStorage

variable {ω : Type} (h : HttpStorage ω) (owner writer : PublicKeyHash)
  (signer : SigningPrivateKeyAndPublicHash) (tid : TransactionId)

/-- The address of a write call. -/
def writeUrl (call : String) (isRaw : Bool) : Result String := do
  let o ← owner.target.toString
  let w ← writer.target.toString
  .ok (apiPrefix ++ call ++ "?format=" ++ (if isRaw then "raw" else "dag-cbor") ++
    "&owner=" ++ urlEncode o ++ "&transaction=" ++ urlEncode tid ++ "&writer=" ++ urlEncode w)

/-! ### One signature for a group -/

/-- The address and the body of the call for one group. -/
def batchRequest (isRaw : Bool) (group : List Bytes) : Result (String × Bytes) := do
  let hashes ← hashesOf env isRaw group
  let signature ← env.signMessage signer.secret (blockWritePayload env owner hashes)
  let url ← writeUrl owner signer.publicKeyHash tid "block/put/bulk/v2" isRaw
  .ok (url, (BlockWriteBatch.mk group signature).toCbor.toBytes)

/-- The loop of `batch_signed_put`, with the hashes so far. -/
def batchSignedPutLoop (isRaw : Bool) :
    List (List Bytes) → List Cid → Exec (Session ω) Fault (Option (List Cid))
  | [], res => pure (some res)
  | group :: groups, res => do
      let (url, body) ← Exec.lift (batchRequest env owner signer tid isRaw group)
      match ← Exec.attempt (ask (h.poster.post url body false (writeTimeoutMs 30000 body.length))) with
      | .ok raw => do
          let cids ← Exec.lift (parseLinkList raw)
          batchSignedPutLoop isRaw groups (res ++ cids)
      | .error (.err e) =>
          if res = [] ∧ isUnimplemented e then do
            Exec.update fun s => { s with batchSignedPutSupported := false }
            pure none
          else Exec.fail (.err e)
      | .error f => Exec.fail f

/-- `HttpStorage::batch_signed_put`. -/
def batchSignedPut (blocks : List Bytes) (isRaw : Bool) :
    Exec (Session ω) Fault (Option (List Cid)) := do
  let supported ← Exec.reads Session.batchSignedPutSupported
  if h.isPeergosServer = false ∨ supported = false then pure none
  else batchSignedPutLoop env h owner signer tid isRaw (groupBySize blocks maxBlockSize) []

/-! ### One signature for each block -/

/-- `HttpStorage::put_group`. -/
def putGroup (signatures blocks : List Bytes) (isRaw : Bool) :
    Exec (Session ω) Fault (List Cid) := do
  let body := (BlockWriteGroup.mk blocks signatures).toCbor.toBytes
  let url ← Exec.lift (writeUrl owner writer tid "block/put/bulk" isRaw)
  let raw ← ask (h.poster.post url body false (writeTimeoutMs 30000 body.length))
  let hashes ← Exec.lift (parseHashStream env raw)
  if hashes.length ≠ blocks.length then
    Exec.fail (.err (.protocol ("Incorrect number of hashes returned from bulk write: " ++
      s!"{hashes.length} != {blocks.length}")))
  else pure hashes

/-- The loop of `bulk_put`, with the group so far, its size and the hashes so far. -/
def bulkPutLoop (isRaw : Bool) :
    List (Bytes × Bytes) → List Bytes → List Bytes → ℕ → List Cid →
      Exec (Session ω) Fault (List Cid)
  | [], groupBlocks, groupSigs, _, result =>
      if groupBlocks = [] then pure result
      else do
        let hashes ← putGroup env h owner writer tid groupSigs groupBlocks isRaw
        pure (result ++ hashes)
  | (block, sig) :: rest, groupBlocks, groupSigs, groupSize, result =>
      if block.length > maxBlockSize then
        Exec.fail (.err (.protocol
          s!"Invalid block size: {block.length}, blocks must be smaller than 1MiB!"))
      else if groupSize + block.length > maxBlockSize ∧ groupBlocks ≠ [] then do
        let hashes ← putGroup env h owner writer tid groupSigs groupBlocks isRaw
        bulkPutLoop isRaw rest [block] [sig] block.length (result ++ hashes)
      else
        bulkPutLoop isRaw rest (groupBlocks ++ [block]) (groupSigs ++ [sig])
          (groupSize + block.length) result

/-- `HttpStorage::bulk_put`. -/
def bulkPut (signatures blocks : List Bytes) (isRaw : Bool) :
    Exec (Session ω) Fault (List Cid) :=
  if blocks.length ≠ signatures.length then
    Exec.fail (.err (.protocol "blocks/signatures length mismatch"))
  else if h.isPeergosServer ∧ signatures.any List.isEmpty then
    Exec.fail (.err (.protocol "Empty signature in block write!"))
  else bulkPutLoop env h owner writer tid isRaw (blocks.zip signatures) [] [] 0 []

/-- `HttpStorage::put_batch` and `put_raw_batch`. -/
def bulkPutBatch (blocks : List Bytes) (isRaw : Bool) : Exec (Session ω) Fault (List Cid) := do
  match ← batchSignedPut env h owner signer tid blocks isRaw with
  | some cids => pure cids
  | none => do
      let sigs ← Exec.lift (blocks.mapM (signBlock env signer))
      bulkPut env h owner signer.publicKeyHash tid sigs blocks isRaw

/-! ### Reads -/

/-- `Cid::decode_peer_id`. -/
def decodePeerId (peerId : String) : Result Cid :=
  if peerId.toList.head? = some '1' then do
    let bytes ← base58Decode peerId
    let hash ← liftMf (Multihash.decode bytes)
    .ok ⟨.v1, .libP2pKey, hash⟩
  else Cid.decode peerId

/-- `HttpStorage::id`. -/
def id : Exec (Session ω) Fault Cid := do
  let raw ← ask (h.poster.get (apiPrefix ++ "id"))
  match env.jsonValue raw with
  | .error e => Exec.fail (.err (.protocol ("bad id json: " ++ e)))
  | .ok json =>
      match (json.get "ID").bind Json.asStr with
      | none => Exec.fail (.err (.protocol "missing ID field"))
      | some s => Exec.lift (decodePeerId s)

/-- `BatWithId::encode`. -/
def encodeBat (bat : BatWithId) : Result String := multibaseEncodeBase58btc bat.toCbor.toBytes

/-- `HttpStorage::get_bytes`. -/
def getBytes (hash : Cid) (bat : Option BatWithId) : Exec (Session ω) Fault (Option Bytes) := do
  let o ← Exec.lift owner.target.toString
  let arg ← Exec.lift hash.toString
  let url := apiPrefix ++ "block/get?arg=" ++ arg ++ "&owner=" ++ urlEncode o
  let auth ←
    match h.isPeergosServer, bat with
    | true, some b => do
        let encoded ← Exec.lift (encodeBat b)
        pure ("&bat=" ++ encoded)
    | true, none => pure ""
    | false, some b => do
        let ourId ← h.id env
        let encoded ← Exec.lift (env.generateAuth b hash ourId)
        pure ("&auth=" ++ encoded)
    | false, none => pure "&auth="
  let raw ← ask (h.poster.get (url ++ auth))
  pure (if raw = [] then none else some raw)

/-- `HttpStorage::get_raw`. -/
def getRaw (hash : Cid) (bat : Option BatWithId) : Exec (Session ω) Fault (Option Bytes) :=
  if hash.multihash.isIdentity then pure (some hash.multihash.hash)
  else getBytes env h owner hash bat

/-- `HttpStorage::get`. -/
def get (hash : Cid) (bat : Option BatWithId) : Exec (Session ω) Fault (Option CborObject) :=
  if hash.multihash.isIdentity then do
    let cbor ← Exec.lift (liftCbor (fromBytes hash.multihash.hash))
    pure (some cbor)
  else do
    match ← getBytes env h owner hash bat with
    | some raw => do
        let cbor ← Exec.lift (liftCbor (fromBytes raw))
        pure (some cbor)
    | none => pure none

/-- `HttpStorage` as a storage. -/
def storage : BlockStorage (Session ω) where
  getRaw owner := getRaw env h owner
  get owner := get env h owner
  put owner writer signedHashes blocks tid := bulkPut env h owner writer tid signedHashes blocks false
  putRaw owner writer signedHashes blocks tid :=
    bulkPut env h owner writer tid signedHashes blocks true
  putBatch owner signer blocks tid := bulkPutBatch env h owner signer tid blocks false
  putRawBatch owner signer blocks tid := bulkPutBatch env h owner signer tid blocks true

end HttpStorage

end Peergos
