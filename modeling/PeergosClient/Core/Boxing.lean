import PeergosClient.Cbor.Canonical
import PeergosClient.Fs.CapabilityCbor

/-!
# Boxing keys

Curve25519 and hybrid boxing keys, how they are written as CBOR, and the encryption of a message to
a public key from a secret one.  The primitives below them are a parameter; what they are relied on
for is `BoxPrimitives.Correct`.
-/

namespace Peergos

/-- `[u8; 32]`. -/
abbrev Key32 := {b : Bytes // b.length = 32}

/-- The primitives of `peergos-crypto` that boxing is made of. -/
structure BoxPrimitives where
  publicFromSecret : Key32 → Key32
  cryptoBox : Bytes → Bytes → Key32 → Key32 → Result Bytes
  cryptoBoxOpen : Bytes → Bytes → Key32 → Key32 → Result Bytes
  mlkemEncapsulate : Bytes → Bytes → Result (Bytes × Bytes)
  mlkemDecapsulate : Bytes → Bytes → Result Bytes
  hkdfKey : Bytes → Bytes
  secretbox : Bytes → Bytes → Bytes → Result Bytes
  secretboxOpen : Bytes → Bytes → Bytes → Result Bytes

/-- `BOX_NONCE_BYTES`. -/
def boxNonceBytes : ℕ := 24

/-- A box is the message with a tag of 16 bytes, and the owner of the public key it is made for
opens it. -/
structure BoxPrimitives.Correct (P : BoxPrimitives) : Prop where
  open_box : ∀ (payload nonce : Bytes) (ours theirs : Key32), nonce.length = boxNonceBytes →
    ∃ boxed, P.cryptoBox payload nonce (P.publicFromSecret theirs) ours = .ok boxed ∧
      boxed.length = 16 + payload.length ∧
      P.cryptoBoxOpen boxed nonce (P.publicFromSecret ours) theirs = .ok payload

/-- `PublicBoxingKey`. -/
inductive PublicBoxingKey where
  | curve25519 (key : Key32)
  | hybrid (curve : Key32) (mlkem : Bytes)
  deriving DecidableEq

/-- `SecretBoxingKey`. -/
inductive SecretBoxingKey where
  | curve25519 (key : Key32)
  | hybrid (curve : Key32) (mlkem : Bytes)
  deriving DecidableEq

/-- `BoxingKeyPair`. -/
structure BoxingKeyPair where
  publicKey : PublicBoxingKey
  secret : SecretBoxingKey
  deriving DecidableEq

/-- `Err(Error::Crypto(..))`. -/
def cryptoErr {α : Type} (msg : String) : Result α := .error (.err (.crypto msg))

/-! ## CBOR -/

/-- `curve_cbor`. -/
def curveCbor (key : Key32) : CborObject := .list [.long 1, .byteString key.1]

/-- `to_32`. -/
def to32 (bytes : Bytes) : Result Key32 :=
  if h : bytes.length = 32 then .ok ⟨bytes, h⟩ else cryptoErr "boxing key must be 32 bytes"

/-- `curve_key_bytes`. -/
def curveKeyBytes (cbor : CborObject) : Result Key32 :=
  match cbor.asList with
  | none => cborErr "expected curve25519 key list"
  | some list =>
      match list[1]?.bind CborObject.asBytes with
      | none => cborErr "curve25519 key missing bytes"
      | some bytes => to32 bytes

/-- The two parts of a hybrid key's body, the second under the name `field`. -/
def hybridParts (list : List CborObject) (field : String) : Result (Key32 × Bytes) :=
  match list[1]? with
  | none => cborErr "hybrid key missing body"
  | some m =>
      match m.get "c" with
      | none => cborErr "hybrid missing 'c'"
      | some c => do
          let curve ← curveKeyBytes c
          match ((m.get "m").bind fun mm => mm.get field).bind CborObject.asBytes with
          | none => cborErr ("hybrid mlkem missing '" ++ field ++ "'")
          | some mlkem => pure (curve, mlkem)

/-- The common shape of the two `from_cbor`s: by the type tag, a plain or a hybrid key. -/
def boxingKeyFromCbor {α : Type} (what field : String) (plain : Key32 → α)
    (hybrid : Key32 → Bytes → α) (cbor : CborObject) : Result α :=
  match cbor.asList with
  | none => cborErr ("Invalid cbor for " ++ what)
  | some list =>
      match list.head?.bind CborObject.asLong with
      | none => cborErr "boxing key missing type"
      | some ty =>
          if ty = 1 then (curveKeyBytes cbor).map plain
          else if ty = 2 then (hybridParts list field).map fun p => hybrid p.1 p.2
          else cborErr s!"unknown boxing key type: {ty}"

/-- The common shape of the two `to_cbor`s of a hybrid key. -/
def hybridCbor (field : String) (curve : Key32) (mlkem : Bytes) : CborObject :=
  .list [.long 2,
    .build [("c", curveCbor curve), ("m", .build [(field, .byteString mlkem)])]]

namespace PublicBoxingKey

/-- `PublicBoxingKey::from_cbor`. -/
def fromCbor : CborObject → Result PublicBoxingKey :=
  boxingKeyFromCbor "PublicBoxingKey" "p" .curve25519 .hybrid

/-- `PublicBoxingKey::to_cbor`. -/
def toCbor : PublicBoxingKey → CborObject
  | curve25519 key => curveCbor key
  | hybrid curve mlkem => hybridCbor "p" curve mlkem

end PublicBoxingKey

namespace SecretBoxingKey

/-- `SecretBoxingKey::from_cbor`. -/
def fromCbor : CborObject → Result SecretBoxingKey :=
  boxingKeyFromCbor "SecretBoxingKey" "s" .curve25519 .hybrid

/-- `SecretBoxingKey::to_cbor`. -/
def toCbor : SecretBoxingKey → CborObject
  | curve25519 key => curveCbor key
  | hybrid curve mlkem => hybridCbor "s" curve mlkem

end SecretBoxingKey

namespace BoxingKeyPair

/-- `BoxingKeyPair::to_cbor`. -/
def toCbor (k : BoxingKeyPair) : CborObject := .list [k.publicKey.toCbor, k.secret.toCbor]

/-- `BoxingKeyPair::from_cbor`. -/
def fromCbor (cbor : CborObject) : Result BoxingKeyPair :=
  match cbor.asList with
  | none => cborErr "Invalid cbor for BoxingKeyPair"
  | some list => do
      let publicKey ←
        match list.head? with
        | some c => PublicBoxingKey.fromCbor c
        | none => cborErr "boxing pair missing public"
      let secret ←
        match list[1]? with
        | some c => SecretBoxingKey.fromCbor c
        | none => cborErr "boxing pair missing secret"
      pure ⟨publicKey, secret⟩

/-- `BoxingKeyPair::random_curve25519`, the secret key it draws an argument. -/
def randomCurve25519 (P : BoxPrimitives) (secret : Key32) : BoxingKeyPair :=
  ⟨.curve25519 (P.publicFromSecret secret), .curve25519 secret⟩

end BoxingKeyPair

theorem to32_val (key : Key32) : to32 key.1 = .ok key := dif_pos key.2

@[simp] theorem curveKeyBytes_curveCbor (key : Key32) : curveKeyBytes (curveCbor key) = .ok key :=
  to32_val key

section KeyRoundTrip

variable {α : Type} (what field : String) (plain : Key32 → α) (hybrid : Key32 → Bytes → α)

theorem boxingKeyFromCbor_curveCbor (key : Key32) :
    boxingKeyFromCbor what field plain hybrid (curveCbor key) = .ok (plain key) := by
  show (curveKeyBytes (curveCbor key)).map plain = _
  rw [curveKeyBytes_curveCbor]
  rfl

theorem boxingKeyFromCbor_hybridCbor (curve : Key32) (mlkem : Bytes) :
    boxingKeyFromCbor what field plain hybrid (hybridCbor field curve mlkem) =
      .ok (hybrid curve mlkem) := by
  have hm : CborObject.get (.build [("c", curveCbor curve),
      ("m", .build [(field, .byteString mlkem)])]) "m" =
      some (.build [(field, .byteString mlkem)]) := by
    simp [CborObject.build, CborObject.get_map_mapInsert]
  have hc : CborObject.get (.build [("c", curveCbor curve),
      ("m", .build [(field, .byteString mlkem)])]) "c" = some (curveCbor curve) := by
    simp [CborObject.build, CborObject.get_map_mapInsert]
  have hf : CborObject.get (.build [(field, .byteString mlkem)]) field =
      some (.byteString mlkem) := by
    simp [CborObject.build, CborObject.get_map_mapInsert]
  have hparts : hybridParts [.long 2, .build [("c", curveCbor curve),
      ("m", .build [(field, .byteString mlkem)])]] field = .ok (curve, mlkem) := by
    simp [hybridParts, hm, hc, hf, CborObject.asBytes, pure, Except.pure]
  show (hybridParts _ field).map _ = _
  rw [hparts]
  rfl

end KeyRoundTrip

theorem PublicBoxingKey.fromCbor_toCbor (k : PublicBoxingKey) : fromCbor k.toCbor = .ok k := by
  cases k with
  | curve25519 key => exact boxingKeyFromCbor_curveCbor _ _ _ _ key
  | hybrid curve mlkem => exact boxingKeyFromCbor_hybridCbor _ _ _ _ curve mlkem

theorem SecretBoxingKey.fromCbor_toCbor (k : SecretBoxingKey) : fromCbor k.toCbor = .ok k := by
  cases k with
  | curve25519 key => exact boxingKeyFromCbor_curveCbor _ _ _ _ key
  | hybrid curve mlkem => exact boxingKeyFromCbor_hybridCbor _ _ _ _ curve mlkem

/-- A key pair reads back from what it writes. -/
theorem BoxingKeyPair.fromCbor_toCbor (k : BoxingKeyPair) : fromCbor k.toCbor = .ok k := by
  simp [fromCbor, toCbor, CborObject.asList, PublicBoxingKey.fromCbor_toCbor,
    SecretBoxingKey.fromCbor_toCbor, pure, Except.pure]

theorem built_curveCbor (key : Key32) : CborObject.Built (curveCbor key) := by
  refine .list _ fun v hv => ?_
  simp only [List.mem_cons, List.not_mem_nil, or_false] at hv
  rcases hv with rfl | rfl
  · exact .long _
  · exact .byteString _

/-! ## Encryption -/

/-- What an encryption draws. -/
structure BoxDraws where
  nonce : Bytes
  curveShared : Bytes
  mlkemSeed : Bytes
  symNonce : Bytes
  nonce_length : nonce.length = boxNonceBytes

/-- `hybrid_cipher_cbor`. -/
def hybridCipherCbor (curveCt mlkemCt encrypted nonce : Bytes) : CborObject :=
  .build [("c", .byteString curveCt), ("m", .byteString mlkemCt), ("i", .byteString encrypted),
    ("n", .byteString nonce)]

/-- `PublicBoxingKey::encrypt`. -/
def PublicBoxingKey.encrypt (P : BoxPrimitives) (draws : BoxDraws) (payload : Bytes) :
    PublicBoxingKey → SecretBoxingKey → Result Bytes
  | .curve25519 pk, .curve25519 sk => do
      let boxed ← P.cryptoBox payload draws.nonce pk sk
      pure (boxed ++ draws.nonce)
  | .hybrid curve mlkem, .hybrid sk _ => do
      let (mlkemShared, mlkemCt) ← P.mlkemEncapsulate draws.mlkemSeed mlkem
      let combined := P.hkdfKey (draws.curveShared ++ mlkemShared)
      let curveBox ← P.cryptoBox draws.curveShared draws.nonce curve sk
      let encrypted ← P.secretbox payload draws.symNonce combined
      pure (hybridCipherCbor (curveBox ++ draws.nonce) mlkemCt encrypted draws.symNonce).toBytes
  | _, _ => cryptoErr "mismatched boxing key types"

/-- `curve_unbox`: the last bytes are the nonce. -/
def curveUnbox (P : BoxPrimitives) (cipher : Bytes) (theirPublic ourSecret : Key32) :
    Result Bytes :=
  if cipher.length < boxNonceBytes then cryptoErr "curve box ciphertext too short"
  else
    let split := cipher.length - boxNonceBytes
    P.cryptoBoxOpen (cipher.take split) (cipher.drop split) theirPublic ourSecret

/-- A byte field of a hybrid ciphertext. -/
def hybridField (hybrid : CborObject) (field : String) : Result Bytes :=
  match (hybrid.get field).bind CborObject.asBytes with
  | some b => .ok b
  | none => cborErr ("hybrid cipher missing '" ++ field ++ "'")

/-- `SecretBoxingKey::decrypt`. -/
def SecretBoxingKey.decrypt (P : BoxPrimitives) (cipher : Bytes) :
    SecretBoxingKey → PublicBoxingKey → Result Bytes
  | .curve25519 sk, .curve25519 pk => curveUnbox P cipher pk sk
  | .hybrid sk mlkemSk, .hybrid pk _ => do
      let hybrid ← liftCbor (CborObject.fromBytes cipher)
      let curveCt ← hybridField hybrid "c"
      let mlkemCt ← hybridField hybrid "m"
      let enc ← hybridField hybrid "i"
      let symNonce ← hybridField hybrid "n"
      let curveShared ← curveUnbox P curveCt pk sk
      let mlkemShared ← P.mlkemDecapsulate mlkemCt mlkemSk
      P.secretboxOpen enc symNonce (P.hkdfKey (curveShared ++ mlkemShared))
  | _, _ => cryptoErr "mismatched boxing key types"

/-- What is encrypted to a drawn key, from a drawn key, its owner decrypts. -/
theorem decrypt_encrypt {P : BoxPrimitives} (hP : P.Correct) (draws : BoxDraws) (payload : Bytes)
    (ours theirs : Key32) :
    ∃ ct, (BoxingKeyPair.randomCurve25519 P theirs).publicKey.encrypt P draws payload
        (BoxingKeyPair.randomCurve25519 P ours).secret = .ok ct ∧
      ct.length = 40 + payload.length ∧
      (BoxingKeyPair.randomCurve25519 P theirs).secret.decrypt P ct
        (BoxingKeyPair.randomCurve25519 P ours).publicKey = .ok payload := by
  obtain ⟨boxed, hbox, hlen, hopen⟩ :=
    hP.open_box payload draws.nonce ours theirs draws.nonce_length
  refine ⟨boxed ++ draws.nonce, ?_, ?_, ?_⟩
  · simp [BoxingKeyPair.randomCurve25519, PublicBoxingKey.encrypt, hbox, pure, Except.pure]
  · rw [List.length_append, hlen, draws.nonce_length, boxNonceBytes]
    omega
  · have hn : ¬ (boxed ++ draws.nonce).length < boxNonceBytes := by
      rw [List.length_append, draws.nonce_length]
      omega
    have hsplit : (boxed ++ draws.nonce).length - boxNonceBytes = boxed.length := by
      rw [List.length_append, draws.nonce_length]
      omega
    simp only [BoxingKeyPair.randomCurve25519, SecretBoxingKey.decrypt, curveUnbox, if_neg hn,
      hsplit, List.take_left, List.drop_left, hopen]

end Peergos
