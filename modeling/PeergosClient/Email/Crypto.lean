import PeergosClient.Core.Boxing

/-!
# The envelope of an email

`SourcedAsymmetricCipherText`: a ciphertext to the client's public key, with the public half of the
key pair it was made from beside it.
-/

namespace Peergos

/-- `SourcedAsymmetricCipherText`. -/
structure SourcedAsymmetricCipherText where
  sender : PublicBoxingKey
  cipherText : Bytes
  deriving DecidableEq

namespace SourcedAsymmetricCipherText

/-- `SourcedAsymmetricCipherText::encrypt`. -/
def encrypt (P : BoxPrimitives) (draws : BoxDraws) (sender : BoxingKeyPair)
    (toKey : PublicBoxingKey) (data : Bytes) : Result SourcedAsymmetricCipherText := do
  let ct ← toKey.encrypt P draws data sender.secret
  pure ⟨sender.publicKey, ct⟩

/-- `SourcedAsymmetricCipherText::decrypt`. -/
def decrypt (P : BoxPrimitives) (c : SourcedAsymmetricCipherText) (ours : SecretBoxingKey) :
    Result Bytes :=
  ours.decrypt P c.cipherText c.sender

/-- `SourcedAsymmetricCipherText::to_cbor`. -/
def toCbor (c : SourcedAsymmetricCipherText) : CborObject :=
  .build [("k", c.sender.toCbor), ("c", .byteString c.cipherText)]

/-- `SourcedAsymmetricCipherText::from_cbor`. -/
def fromCbor (cbor : CborObject) : Result SourcedAsymmetricCipherText := do
  let sender ←
    match cbor.get "k" with
    | some c => PublicBoxingKey.fromCbor c
    | none => cborErr "SourcedAsymmetricCipherText missing 'k'"
  match (cbor.get "c").bind CborObject.asBytes with
  | some cipherText => pure ⟨sender, cipherText⟩
  | none => cborErr "SourcedAsymmetricCipherText missing 'c'"

/-- `SourcedAsymmetricCipherText::from_cbor` of the bytes of a file. -/
def parse (bytes : Bytes) : Result SourcedAsymmetricCipherText :=
  liftCbor (CborObject.fromBytes bytes) >>= fromCbor

theorem fromCbor_toCbor (c : SourcedAsymmetricCipherText) : fromCbor c.toCbor = .ok c := by
  have hk : c.toCbor.get "k" = some c.sender.toCbor := by
    simp [toCbor, CborObject.build, CborObject.get_map_mapInsert]
  have hc : c.toCbor.get "c" = some (.byteString c.cipherText) := by
    simp [toCbor, CborObject.build, CborObject.get_map_mapInsert]
  simp [fromCbor, hk, hc, PublicBoxingKey.fromCbor_toCbor, CborObject.asBytes, pure, Except.pure]

/-- An envelope of drawn keys is opened by the key it was made for, also after it has been through
a file. -/
theorem decrypt_encrypt {P : BoxPrimitives} (hP : P.Correct) (draws : BoxDraws) (data : Bytes)
    (ours theirs : Key32) :
    ∃ c, encrypt P draws (.randomCurve25519 P ours)
        (BoxingKeyPair.randomCurve25519 P theirs).publicKey data = .ok c ∧
      c.decrypt P (BoxingKeyPair.randomCurve25519 P theirs).secret = .ok data ∧
      (c.toCbor.toBytes.length < 2 ^ 63 → parse c.toCbor.toBytes = .ok c) := by
  obtain ⟨ct, henc, -, hdec⟩ := Peergos.decrypt_encrypt hP draws data ours theirs
  refine ⟨⟨_, ct⟩, ?_, hdec, fun hfits => ?_⟩
  · rw [encrypt, henc]
    rfl
  · have hbuilt : CborObject.Built (toCbor ⟨.curve25519 (P.publicFromSecret ours), ct⟩) := by
      refine .map _ ?_
      simp only [List.forall_mem_cons]
      exact ⟨built_curveCbor _, .byteString _, by simp⟩
    rw [parse]
    show liftCbor (CborObject.fromBytes
      (toCbor ⟨.curve25519 (P.publicFromSecret ours), ct⟩).toBytes) >>= _ = _
    rw [CborObject.fromBytes_toBytes hbuilt hfits]
    exact fromCbor_toCbor _

end SourcedAsymmetricCipherText

end Peergos
