import PeergosClient.Fs.StoredProperties
import PeergosClient.Messaging.StoredChat
import PeergosClient.Social.PostReadBack

/-!
# Which records read back

Signed messages, chats, posts, mail and the properties of files.  The only data that does not read
back is a key hash whose CID has no binary form of its own, and the root of a hash tree that is no
hash; mail holds neither and always reads back.
-/

namespace Peergos

/-- A signed message that reads back, and whose signature is then checked over the bytes that were
signed. -/
def Wire.SignedMessage.RoundTrips (s : Wire.SignedMessage) : Prop :=
  fromCbor s.toCbor = .ok s ∧
    ∀ s', fromCbor s.toCbor = .ok s' → s'.msg.serialize = s.msg.serialize

theorem Wire.SignedMessage.roundTrips_iff {s : Wire.SignedMessage} (h : s.msg.InRange)
    (hlen : s.msg.serialize.length < 2 ^ 63) :
    s.RoundTrips ↔ ∀ k ∈ s.msg.keyHashes, k.target.Written := by
  rw [← readsBack_iff h hlen]
  refine ⟨fun hround => hround.1, fun hread => ⟨hread, fun s' hs' => ?_⟩⟩
  rw [hread] at hs'
  cases hs'
  rfl

/-- **When a record reads back.**  Of what the types of the source allow, a signed message, a chat
and a post read back if and only if every key hash in them has a binary form of its own, mail always
does, and properties do if and only if the root of their hash tree is a hash. -/
theorem records_readBack_iff (s : Wire.SignedMessage) (hs : s.msg.InRange)
    (hlen : s.msg.serialize.length < 2 ^ 63) (c : Wire.Chat) (hc : c.InRange) (p : SocialPost)
    (hp : p.InRange) (f : FileProperties) (hf : f.InRange) :
    (s.RoundTrips ↔ ∀ k ∈ s.msg.keyHashes, k.target.Written) ∧
    (Wire.Chat.fromCbor c.toCbor = .ok c ↔ ∀ k ∈ c.keyHashes, k.target.Written) ∧
    (SocialPost.fromCbor p.toCbor = .ok p ↔ ∀ k ∈ p.keyHashes, k.target.Written) ∧
    (∀ m : EmailMessage, EmailMessage.fromCbor m.toCbor = .ok m) ∧
    (FileProperties.fromCbor f.toCbor = .ok f ↔
      ∀ b ∈ f.treeHash, b.rootHash.hash.length = 32) :=
  ⟨Wire.SignedMessage.roundTrips_iff hs hlen, Wire.Chat.readsBack_iff hc,
    SocialPost.readsBack_iff hp, EmailMessage.fromCbor_toCbor, FileProperties.readsBack_iff hf⟩

/-! ## Samples -/

theorem emptyHash_valid : multihashRefusal .id [] = none := rfl

theorem zeroKey_length : (List.replicate 32 (0 : UInt8)).length = 32 := rfl

/-- A key of an empty identity hash, in a CID of a version. -/
def emptyKey (version : CidVersion) : PublicKeyHash :=
  ⟨⟨version, .raw, ⟨.id, [], emptyHash_valid⟩⟩, Or.inr rfl⟩

/-- An invitation of a member with that key. -/
def invitation (version : CidVersion) : Wire.SignedMessage :=
  ⟨[], ⟨[0], ⟨∅⟩, 0, [], .invite "bob" (emptyKey version) [0, 0]⟩⟩

/-- A chat with one member, who has that key. -/
def lonelyChat (version : CidVersion) : Wire.Chat where
  chatUid := "chat"
  host := [0]
  current := ⟨∅⟩
  members := (∅ : SortedMap MemberId Wire.Member).insert [0]
    ⟨"bob", [0], emptyKey version, none, 0, 0, false⟩
  groupState := ∅
  recentMessages := []

/-- A capability of an owner with that key. -/
def keyedCapability (version : CidVersion) : AbsoluteCapability where
  owner := emptyKey version
  writer := emptyKey version
  mapKey := List.replicate 32 0
  mapKey_length := zeroKey_length
  bat := none
  rBaseKey := ⟨List.replicate 32 0, false⟩
  wBaseKey := none

/-- A post that shows a file of that owner. -/
def picturePost (version : CidVersion) : SocialPost where
  author := "bob"
  body := [.reference ⟨"/bob/picture", keyedCapability version, []⟩]
  postTime := 0
  shareTo := .friends
  parent := none
  previousVersions := []
  comments := []

/-- The properties of a file of the larger kind of chunks. -/
def pictureProperties : FileProperties :=
  ⟨"picture", false, false, "image/png", 3, false, 0, 0, none, none, none, defaultChunkSize⟩

section

variable (version : CidVersion)

theorem invitation_inRange : (invitation version).msg.InRange := by
  refine ⟨?_, ?_, ?_⟩
  · simp [invitation, MemberId.Encodable]
  · exact fun e he => absurd he List.not_mem_nil
  · simp [invitation, Wire.Message.InRange, MemberId.Encodable]

theorem lonelyChat_inRange : (lonelyChat version).InRange := by
  refine ⟨?_, ?_, ?_, ?_, ?_⟩
  · simp [lonelyChat, MemberId.Encodable]
  · exact fun e he => absurd he List.not_mem_nil
  · intro e he
    have hentries : (lonelyChat version).members.entries =
        [([0], ⟨"bob", [0], emptyKey version, none, 0, 0, false⟩)] := rfl
    rw [hentries, List.mem_singleton] at he
    subst he
    simp [MemberId.Encodable]
  · exact fun e he => absurd he List.not_mem_nil
  · exact fun e he => absurd he List.not_mem_nil

theorem picturePost_inRange : (picturePost version).InRange := by
  simp [SocialPost.InRange, picturePost, SocialPost.refs, SocialPost.refsAll, Content.refs,
    keyedCapability, AbsoluteCapability.KeysFit]

end

/-- With a key of version 1 the samples read back. -/
theorem records_readBack_iff_samples :
    (invitation .v1).RoundTrips ∧
      Wire.Chat.fromCbor (lonelyChat .v1).toCbor = .ok (lonelyChat .v1) ∧
      SocialPost.fromCbor (picturePost .v1).toCbor = .ok (picturePost .v1) ∧
      FileProperties.fromCbor pictureProperties.toCbor = .ok pictureProperties := by
  have hkey : (emptyKey .v1).target.Written := .inl rfl
  obtain ⟨hmessage, hchat, hpost, -, hproperties⟩ :=
    records_readBack_iff (invitation .v1) (invitation_inRange .v1) (by decide +kernel)
      (lonelyChat .v1) (lonelyChat_inRange .v1) (picturePost .v1) (picturePost_inRange .v1)
      pictureProperties ⟨by decide, by decide, by decide, .inr rfl⟩
  refine ⟨hmessage.2 ?_, hchat.2 ?_, hpost.2 ?_, hproperties.2 (by simp [pictureProperties])⟩
  · simpa [invitation, Wire.MessageEnvelope.keyHashes, Wire.Message.keyHashes] using hkey
  · decide
  · decide

/-- With a key of version 0, as it is read from a link, none of the first three does. -/
theorem records_not_readBack :
    PublicKeyHash.fromCbor (.merkleLink [0, 0x55, 0, 0]) = .ok (emptyKey .v0) ∧
      ¬ (invitation .v0).RoundTrips ∧
      Wire.Chat.fromCbor (lonelyChat .v0).toCbor ≠ .ok (lonelyChat .v0) ∧
      SocialPost.fromCbor (picturePost .v0).toCbor ≠ .ok (picturePost .v0) := by
  refine ⟨rfl, ?_, ?_, ?_⟩
  · rw [Wire.SignedMessage.roundTrips_iff (invitation_inRange .v0) (by decide +kernel)]
    decide
  · rw [ne_eq, Wire.Chat.readsBack_iff (lonelyChat_inRange .v0)]
    decide
  · rw [ne_eq, SocialPost.readsBack_iff (picturePost_inRange .v0)]
    decide

end Peergos
