import PeergosClient.Core.CidBytes
import PeergosClient.Lib.PrefixCode
import PeergosClient.Remote.HttpStorage

/-!
# What a signature over a batch of writes stands for

The payload of a batch is the hash of an owner's CID and the CIDs of the blocks, or of the CIDs and
a sequence number, with nothing between them.  Version 1 CIDs delimit themselves, and so does a
multihash, so the bytes determine the batch, up to the codec of a version 0 owner, which has no
place in its bytes.
-/

namespace Peergos

open PrefixCode

/-! ## Self-delimiting encodings -/

theorem putUvarint_selfDelimiting : SelfDelimiting putUvarint {x | x < 2 ^ 64} :=
  selfDelimiting_of_read readUvarint Except.ok (fun _ _ h => Except.ok.inj h)
    fun _ hx s => readUvarint_putUvarint hx s

theorem Multihash.toBytes_selfDelimiting : SelfDelimiting Multihash.toBytes Set.univ :=
  selfDelimiting_of_read Multihash.deserialize Except.ok (fun _ _ h => Except.ok.inj h)
    fun m _ s => m.deserialize_toBytes s

namespace Cid

theorem toBytes_v1 {c : Cid} (h : c.version = .v1) :
    c.toBytes = 1 :: (putUvarint c.codec.code ++ c.multihash.toBytes) := by
  rw [toBytes, h]
  rfl

theorem code_lt (codec : Codec) : codec.code < 2 ^ 64 := by cases codec <;> decide

theorem code_inj {codec codec' : Codec} (h : codec.code = codec'.code) : codec = codec' := by
  cases codec <;> cases codec' <;> first | rfl | cases h

/-- The CIDs a batch names. -/
theorem toBytes_selfDelimiting : SelfDelimiting toBytes {c | c.version = .v1} := by
  have hpair : SelfDelimiting (fun c : Cid => putUvarint c.codec.code ++ c.multihash.toBytes)
      {c | c.version = .v1} := by
    refine (putUvarint_selfDelimiting.prod Multihash.toBytes_selfDelimiting).comp
      (e := fun c : Cid => (c.codec.code, c.multihash)) ?_ fun c _ => ⟨code_lt c.codec, trivial⟩
    rintro ⟨v, codec, m⟩ hv ⟨v', codec', m'⟩ hv' heq
    obtain ⟨hcode, rfl⟩ := Prod.mk.inj heq
    obtain rfl := code_inj hcode
    simp_all
  intro a ha b hb s t heq
  rw [toBytes_v1 ha, toBytes_v1 hb] at heq
  exact hpair a ha b hb s t (List.cons.inj heq).2

theorem toBytes_ne_nil {c : Cid} (h : c.version = .v1) : c.toBytes ≠ [] := by
  rw [toBytes_v1 h]
  simp

/-- Two CIDs with the same bytes: the codec of a version 0 CID is not among them. -/
def SameV0 (c c' : Cid) : Prop :=
  c.version = .v0 ∧ c'.version = .v0 ∧ c.multihash = c'.multihash

instance (c c' : Cid) : Decidable (SameV0 c c') :=
  inferInstanceAs (Decidable (_ ∧ _ ∧ _))

theorem SameV0.toBytes_eq {c c' : Cid} (h : SameV0 c c') : c.toBytes = c'.toBytes := by
  obtain ⟨hv, hv', hm⟩ := h
  rw [toBytes, toBytes, hv, hv', hm]

/-- No multihash begins like a version 1 CID. -/
theorem version_one_ne_multihash (m : Multihash) (s t : Bytes) :
    (1 : UInt8) :: s ≠ m.toBytes ++ t := by
  rw [Multihash.toBytes_eq, List.cons_append]
  intro h
  have hhead := (List.cons.inj h).1
  revert hhead
  cases m.hashType <;> decide

/-- A CID of either version at the front of a string. -/
theorem toBytes_append_inj {c c' : Cid} {s t : Bytes} (h : c.toBytes ++ s = c'.toBytes ++ t) :
    (c = c' ∨ SameV0 c c') ∧ s = t := by
  cases hv : c.version with
  | v0 =>
      have hbytes : c.toBytes = c.multihash.toBytes := by rw [toBytes, hv]
      cases hv' : c'.version with
      | v0 =>
          have hbytes' : c'.toBytes = c'.multihash.toBytes := by rw [toBytes, hv']
          rw [hbytes, hbytes'] at h
          obtain ⟨hm, hst⟩ := Multihash.toBytes_selfDelimiting _ trivial _ trivial _ _ h
          exact ⟨Or.inr ⟨hv, hv', hm⟩, hst⟩
      | v1 =>
          rw [hbytes, toBytes_v1 hv'] at h
          exact absurd h.symm (version_one_ne_multihash c.multihash _ _)
  | v1 =>
      cases hv' : c'.version with
      | v0 =>
          have hbytes' : c'.toBytes = c'.multihash.toBytes := by rw [toBytes, hv']
          rw [hbytes', toBytes_v1 hv] at h
          exact absurd h (version_one_ne_multihash c'.multihash _ _)
      | v1 =>
          obtain ⟨heq, hst⟩ := toBytes_selfDelimiting c hv c' hv' s t h
          exact ⟨Or.inl heq, hst⟩

end Cid

/-- The sequence number is the last eight bytes. -/
theorem beI64_inj {a b : Int64} (h : ByteOrder.beI64 a.toInt = ByteOrder.beI64 b.toInt) :
    a = b := by
  have hread := congrArg ByteOrder.ofBeI64 h
  rw [ByteOrder.ofBeI64_beI64 (Int64.le_toInt a) (Int64.toInt_lt a),
    ByteOrder.ofBeI64_beI64 (Int64.le_toInt b) (Int64.toInt_lt b)] at hread
  exact Int64.toInt_inj.1 hread

/-! ## Payloads -/

/-- What `block_write_payload` hashes. -/
def blockWriteBytes (owner : PublicKeyHash) (hashes : List Cid) : Bytes :=
  owner.target.toBytes ++ (hashes.map Cid.toBytes).flatten

/-- What `WriterCommit::block_list_payload` hashes. -/
def blockListBytes (blocks : List Cid) (nextSequence : Option Int64) : Bytes :=
  (blocks.map Cid.toBytes).flatten ++ ByteOrder.beI64 (nextSequence.getD 0).toInt

/-- A hash that gives different digests for different ones of some inputs. -/
def NoCollision (hash : Bytes → Bytes) (inputs : List Bytes) : Prop :=
  ∀ x ∈ inputs, ∀ y ∈ inputs, hash x = hash y → x = y

instance (hash : Bytes → Bytes) (inputs : List Bytes) : Decidable (NoCollision hash inputs) :=
  inferInstanceAs (Decidable (∀ x ∈ inputs, ∀ y ∈ inputs, hash x = hash y → x = y))

theorem blockWriteBytes_inj {o o' : PublicKeyHash} {l l' : List Cid}
    (hl : ∀ c ∈ l, c.version = .v1) (hl' : ∀ c ∈ l', c.version = .v1)
    (h : blockWriteBytes o l = blockWriteBytes o' l') :
    (o.target = o'.target ∨ Cid.SameV0 o.target o'.target) ∧ l = l' := by
  obtain ⟨howner, hlist⟩ := Cid.toBytes_append_inj h
  exact ⟨howner, Cid.toBytes_selfDelimiting.flatten_inj (fun c hc => Cid.toBytes_ne_nil hc) hl hl'
    hlist⟩

theorem blockListBytes_inj {l l' : List Cid} {s s' : Option Int64}
    (hl : ∀ c ∈ l, c.version = .v1) (hl' : ∀ c ∈ l', c.version = .v1)
    (h : blockListBytes l s = blockListBytes l' s') : l = l' ∧ s.getD 0 = s'.getD 0 := by
  obtain ⟨hlist, hseq⟩ := Cid.toBytes_selfDelimiting.flatten_append_inj
    (fun c hc => Cid.toBytes_ne_nil hc) hl hl' (by simp) h
  exact ⟨hlist, beI64_inj hseq⟩

theorem PublicKeyHash.ext_target {o o' : PublicKeyHash} (h : o.target = o'.target) : o = o' := by
  obtain ⟨c, hc⟩ := o
  obtain ⟨c', hc'⟩ := o'
  cases h
  rfl

/-- A payload stands for one owner, list and sequence, except that two owners that are one version 0
multihash under two codecs share their payloads. -/
theorem payloads_bind_iff (env : RemoteEnv) {o o' : PublicKeyHash} {l l' : List Cid}
    {s s' : Option Int64} (hl : ∀ c ∈ l, c.version = .v1) (hl' : ∀ c ∈ l', c.version = .v1)
    (hfree : NoCollision env.sha256
      [blockWriteBytes o l, blockWriteBytes o' l', blockListBytes l s, blockListBytes l' s']) :
    ((blockWritePayload env o l = blockWritePayload env o' l' → o = o' ∧ l = l') ↔
        ¬ (Cid.SameV0 o.target o'.target ∧ o.target.codec ≠ o'.target.codec ∧ l = l')) ∧
      (blockListPayload env.sha256 l s = blockListPayload env.sha256 l' s' →
        l = l' ∧ s.getD 0 = s'.getD 0) := by
  refine ⟨⟨fun hbind hsame => ?_, fun hcond heq => ?_⟩, fun heq => ?_⟩
  · obtain ⟨hv0, hcodec, rfl⟩ := hsame
    have hpayload : blockWritePayload env o l = blockWritePayload env o' l := by
      rw [blockWritePayload, blockWritePayload, hv0.toBytes_eq]
    obtain ⟨rfl, -⟩ := hbind hpayload
    exact hcodec rfl
  · have hbytes := hfree (blockWriteBytes o l) (by simp) (blockWriteBytes o' l') (by simp) heq
    obtain ⟨howner | hv0, rfl⟩ := blockWriteBytes_inj hl hl' hbytes
    · exact ⟨PublicKeyHash.ext_target howner, rfl⟩
    · refine ⟨PublicKeyHash.ext_target ?_, rfl⟩
      by_contra hne
      refine hcond ⟨hv0, fun hcodec => hne ?_, rfl⟩
      obtain ⟨hv, hv', hm⟩ := hv0
      cases ho : o.target
      cases ho' : o'.target
      simp_all
  · exact blockListBytes_inj hl hl'
      (hfree (blockListBytes l s) (by simp) (blockListBytes l' s') (by simp) heq)

/-- A client that hashes and signs nothing. -/
def hashingRemote : RemoteEnv where
  sha256 := Sha256.sha256
  signMessage _ _ := protocolErr "no key"
  jsonValue _ := .error "no json"
  jsonStream _ := []
  generateAuth _ _ _ := protocolErr "no key"

/-- A key of an identity hash of one byte. -/
def identityKey (b : UInt8) : PublicKeyHash :=
  ⟨⟨.v1, .dagCbor, ⟨.id, [b], by
    simp [multihashRefusal, legacyMaxIdentityHashSize, MultihashType.length]⟩⟩, Or.inr rfl⟩

/-- Two keys, one block and two sequence numbers. -/
theorem payloads_bind_iff_keys :
    ((blockWritePayload hashingRemote (identityKey 1) [(identityKey 3).target]
          = blockWritePayload hashingRemote (identityKey 2) [(identityKey 3).target] →
        identityKey 1 = identityKey 2 ∧ [(identityKey 3).target] = [(identityKey 3).target]) ↔
        ¬ (Cid.SameV0 (identityKey 1).target (identityKey 2).target ∧
          (identityKey 1).target.codec ≠ (identityKey 2).target.codec ∧
          [(identityKey 3).target] = [(identityKey 3).target])) ∧
      (blockListPayload Sha256.sha256 [(identityKey 3).target] (some 1)
          = blockListPayload Sha256.sha256 [(identityKey 3).target] none →
        [(identityKey 3).target] = [(identityKey 3).target] ∧
          (some (1 : Int64)).getD 0 = (none : Option Int64).getD 0) :=
  payloads_bind_iff hashingRemote (by decide) (by decide) (by decide +kernel)

/-- A version 0 key of an empty identity hash, under a codec. -/
def versionZeroKey (codec : Codec) : PublicKeyHash := ⟨⟨.v0, codec, ⟨.id, [], rfl⟩⟩, Or.inr rfl⟩

/-- Both owners are read from their links, and a signature of one for a batch is one of the
other. -/
theorem owners_share_payloads :
    versionZeroKey .raw ≠ versionZeroKey .dagCbor ∧
      PublicKeyHash.fromCbor (.merkleLink [0, 0x55, 0, 0]) = .ok (versionZeroKey .raw) ∧
      PublicKeyHash.fromCbor (.merkleLink [0, 0x71, 0, 0]) = .ok (versionZeroKey .dagCbor) ∧
      ∀ (env : RemoteEnv) (l : List Cid), blockWritePayload env (versionZeroKey .raw) l
        = blockWritePayload env (versionZeroKey .dagCbor) l :=
  ⟨by decide, rfl, rfl, fun _ _ => rfl⟩

end Peergos
