import PeergosClient.Fs.ReadBack
import PeergosClient.Messaging.Wire

/-!
# Which messages read back

The types of the source bound the parts of an id and the lengths of keys; `InRange` says so of each
record.  Within these bounds a message reads back from what it writes exactly when each key hash in
it is a CID that has a binary form of its own.
-/

namespace Peergos

/-! ## Files and bodies -/

namespace FileRef

/-- The keys named in a reference. -/
def keyHashes (r : FileRef) : List PublicKeyHash := [r.cap.owner, r.cap.writer]

theorem fromCbor_toCbor_iff {r : FileRef} : fromCbor r.toCbor = .ok r ↔ r.cap.Encodable := by
  refine ⟨fun h => ?_, fromCbor_toCbor⟩
  have hp : r.toCbor.get "p" = some (.str r.path) :=
    CborObject.get_build_of_mem (by simp) (by simp)
  have hc : r.toCbor.get "c" = some r.cap.toCbor :=
    CborObject.get_build_of_mem (by simp) (by simp)
  have hh : r.toCbor.get "h" = some (.merkleLink r.contentHash) :=
    CborObject.get_build_of_mem (by simp) (by simp)
  simp only [fromCbor, CborObject.readField, CborObject.fieldOf, hp, hc, hh, Option.bind_some,
    CborObject.asString, CborObject.asLink, ok_bind] at h
  obtain ⟨cap, hcap, h⟩ := bind_eq_ok.1 h
  obtain rfl : cap = r.cap := congrArg FileRef.cap (Except.ok.inj h)
  exact AbsoluteCapability.fromCbor_toCbor_iff.1 hcap

theorem encodable_iff (r : FileRef) (h : r.cap.KeysFit) :
    r.cap.Encodable ↔ ∀ k ∈ r.keyHashes, k.target.Written := by
  rw [r.cap.encodable_iff h, keyHashes]
  simp

end FileRef

namespace Content

/-- The keys named in a part of a body. -/
def keyHashes : Content → List PublicKeyHash
  | text _ => []
  | reference r => r.keyHashes

/-- The keys of the capability in a part of a body fit. -/
def InRange : Content → Prop
  | text _ => True
  | reference r => r.cap.KeysFit

theorem fromCbor_toCbor_iff {c : Content} : fromCbor c.toCbor = .ok c ↔ c.Encodable := by
  refine ⟨fun h => ?_, fromCbor_toCbor⟩
  cases c with
  | text s => trivial
  | reference r =>
      have ht : (toCbor (reference r)).get "t" = some (.str "Ref") :=
        CborObject.get_build_of_mem (by simp) (by simp)
      have hr : (toCbor (reference r)).get "r" = some r.toCbor :=
        CborObject.get_build_of_mem (by simp) (by simp)
      obtain ⟨entries, hmap⟩ : ∃ entries, toCbor (reference r) = .map entries := ⟨_, rfl⟩
      rw [hmap] at ht hr h
      simp only [fromCbor, ht, Option.bind_some, CborObject.asString, Option.getD_some, if_true,
        CborObject.fieldOf, hr, ok_bind] at h
      obtain ⟨r', hread, h⟩ := bind_eq_ok.1 h
      cases h
      exact FileRef.fromCbor_toCbor_iff.1 hread

theorem encodable_iff {c : Content} (h : c.InRange) :
    c.Encodable ↔ ∀ k ∈ c.keyHashes, k.target.Written := by
  cases c with
  | text s => simp [Encodable, keyHashes]
  | reference r => exact r.encodable_iff h

end Content

namespace ApplicationMessage

/-- The keys named in a body. -/
def keyHashes (m : ApplicationMessage) : List PublicKeyHash := m.body.flatMap Content.keyHashes

/-- The keys of every capability in a body fit. -/
def InRange (m : ApplicationMessage) : Prop := ∀ c ∈ m.body, c.InRange

theorem fromCbor_toCbor_iff {m : ApplicationMessage} : fromCbor m.toCbor = .ok m ↔ m.Encodable := by
  refine ⟨fun h => ?_, fromCbor_toCbor⟩
  simp only [fromCbor, CborObject.readField, m.get_body, Option.bind_some, CborObject.asList,
    ok_bind] at h
  obtain ⟨body, hbody, h⟩ := bind_eq_ok.1 h
  obtain rfl : body = m.body := congrArg ApplicationMessage.body (Except.ok.inj h)
  exact fun c hc => Content.fromCbor_toCbor_iff.1 (mapM_map_iff.1 hbody c hc)

theorem encodable_iff {m : ApplicationMessage} (h : m.InRange) :
    m.Encodable ↔ ∀ k ∈ m.keyHashes, k.target.Written := by
  simp only [keyHashes, List.forall_mem_flatMap]
  exact forall₂_congr fun c hc => Content.encodable_iff (h c hc)

end ApplicationMessage

namespace Wire

/-! ## Messages -/

theorem OwnerProof.fromCbor_toCbor_iff {p : OwnerProof} :
    fromCbor p.toCbor = .ok p ↔ p.ownedKey.Encodable := by
  refine ⟨fun h => ?_, fromCbor_toCbor⟩
  have ho : p.toCbor.get "o" = some p.ownedKey.toCbor :=
    CborObject.get_build_of_mem (by simp) (by simp)
  have hp : p.toCbor.get "p" = some (.byteString p.signedOwner) :=
    CborObject.get_build_of_mem (by simp) (by simp)
  simp only [fromCbor, CborObject.fieldOf, CborObject.readField, ho, hp, Option.bind_some,
    CborObject.asBytes, ok_bind] at h
  obtain ⟨owned, howned, h⟩ := bind_eq_ok.1 h
  obtain rfl : owned = p.ownedKey := congrArg OwnerProof.ownedKey (Except.ok.inj h)
  exact PublicKeyHash.fromCbor_toCbor_iff.1 howned

namespace Message

/-- The keys named in a message. -/
def keyHashes : Message → List PublicKeyHash
  | join _ identity chatIdentity _ => [identity, chatIdentity.ownedKey]
  | invite _ identity _ => [identity]
  | application content => content.keyHashes
  | replyTo _ content => content.keyHashes
  | edit _ content => content.keyHashes
  | groupState _ _ => []
  | delete _ => []
  | removeMember _ _ => []

/-- The ids of a message are made of `i32`s, and its keys fit. -/
def InRange : Message → Prop
  | join .. => True
  | invite _ _ recipientId => recipientId.Encodable
  | application content => content.InRange
  | replyTo _ content => content.InRange
  | edit _ content => content.InRange
  | groupState _ _ => True
  | delete _ => True
  | removeMember _ memberToRemove => memberToRemove.Encodable

/-- The parts of a message that reads back read back: one case for each kind. -/
theorem encodable_of_fromCbor {m : Message} (hr : m.InRange) (h : fromCbor m.toCbor = .ok m) :
    m.Encodable := by
  have hfields := m.get_field
  simp only [fromCbor, m.get_category, Option.bind_some, CborObject.asLong, ok_bind,
    MessageType.byValue_value] at h
  cases m with
  | join username identity chatIdentity chatIdPublic =>
      simp only [fields, List.forall_mem_cons] at hfields
      obtain ⟨hu, hi, hci, hp, -⟩ := hfields
      simp only [messageType, CborObject.readField, CborObject.fieldOf, hu, hi, hci, hp,
        Option.bind_some, CborObject.asString, ok_bind, PublicSigningKey.fromCbor_toCbor] at h
      obtain ⟨identity', hidentity, h⟩ := bind_eq_ok.1 h
      obtain ⟨chatIdentity', hchat, h⟩ := bind_eq_ok.1 h
      cases h
      exact ⟨PublicKeyHash.fromCbor_toCbor_iff.1 hidentity, OwnerProof.fromCbor_toCbor_iff.1 hchat⟩
  | invite username identity recipientId =>
      simp only [fields, List.forall_mem_cons] at hfields
      obtain ⟨hu, hrec, hi, -⟩ := hfields
      simp only [messageType, CborObject.readField, CborObject.fieldOf, hu, hrec, hi,
        Option.bind_some, CborObject.asString, ok_bind, MemberId.fromCbor_toCbor hr] at h
      obtain ⟨identity', hidentity, h⟩ := bind_eq_ok.1 h
      cases h
      exact ⟨PublicKeyHash.fromCbor_toCbor_iff.1 hidentity, hr⟩
  | application content =>
      have hsame : toCbor (application content) = content.toCbor := rfl
      simp only [messageType, hsame] at h
      cases hread : ApplicationMessage.fromCbor content.toCbor with
      | error e =>
          rw [hread] at h
          cases h
      | ok content' =>
          rw [hread] at h
          cases h
          exact ApplicationMessage.fromCbor_toCbor_iff.1 hread
  | groupState key value => trivial
  | replyTo parent content =>
      simp only [fields, List.forall_mem_cons] at hfields
      obtain ⟨hparent, hb, -⟩ := hfields
      simp only [messageType, CborObject.fieldOf, hparent, hb, ok_bind,
        MessageRef.fromCbor_toCbor] at h
      obtain ⟨content', hcontent, h⟩ := bind_eq_ok.1 h
      cases h
      exact ApplicationMessage.fromCbor_toCbor_iff.1 hcontent
  | delete target => trivial
  | edit priorVersion content =>
      simp only [fields, List.forall_mem_cons] at hfields
      obtain ⟨hprior, hb, -⟩ := hfields
      simp only [messageType, CborObject.fieldOf, hprior, hb, ok_bind,
        MessageRef.fromCbor_toCbor] at h
      obtain ⟨content', hcontent, h⟩ := bind_eq_ok.1 h
      cases h
      exact ApplicationMessage.fromCbor_toCbor_iff.1 hcontent
  | removeMember chatUid memberToRemove => exact hr

theorem fromCbor_toCbor_iff {m : Message} (hr : m.InRange) :
    fromCbor m.toCbor = .ok m ↔ m.Encodable :=
  ⟨encodable_of_fromCbor hr, fromCbor_toCbor⟩

theorem encodable_iff {m : Message} (h : m.InRange) :
    m.Encodable ↔ ∀ k ∈ m.keyHashes, k.target.Written := by
  cases m with
  | join username identity chatIdentity chatIdPublic =>
      simp [Encodable, keyHashes, PublicKeyHash.encodable_iff]
  | invite username identity recipientId =>
      have hid : recipientId.Encodable := h
      simp [Encodable, keyHashes, PublicKeyHash.encodable_iff, hid]
  | application content => exact ApplicationMessage.encodable_iff h
  | replyTo parent content => exact ApplicationMessage.encodable_iff h
  | edit priorVersion content => exact ApplicationMessage.encodable_iff h
  | groupState key value => simp [Encodable, keyHashes]
  | delete target => simp [Encodable, keyHashes]
  | removeMember chatUid memberToRemove =>
      have hid : memberToRemove.Encodable := h
      simp [Encodable, keyHashes, hid]

end Message

/-! ## Envelopes -/

namespace MessageEnvelope

/-- The keys named in an envelope. -/
def keyHashes (e : MessageEnvelope) : List PublicKeyHash := e.payload.keyHashes

/-- The ids of an envelope are made of `i32`s, and its keys fit. -/
structure InRange (e : MessageEnvelope) : Prop where
  author : e.author.Encodable
  timestamp : e.timestamp.Encodable
  payload : e.payload.InRange

theorem fromCbor_toCbor_iff {e : MessageEnvelope} (hr : e.InRange) :
    fromCbor e.toCbor = .ok e ↔ e.Encodable := by
  refine ⟨fun h => ?_, fromCbor_toCbor⟩
  have hfields : ∀ f ∈ e.fields, e.toCbor.get f.1 = some f.2 := fun _ hf =>
    CborObject.get_build_of_mem (by simp [fields]) hf
  simp only [fields, List.forall_mem_cons] at hfields
  obtain ⟨ha, ht, hu, hrefs, hp, -⟩ := hfields
  have hread : (e.previousMessages.map MessageRef.toCbor).mapM MessageRef.fromCbor =
      .ok e.previousMessages := mapM_map_eq_ok fun r _ => r.fromCbor_toCbor
  simp only [fromCbor, CborObject.fieldOf, ha, ht, hu, hrefs, hp, ok_bind,
    MemberId.fromCbor_toCbor hr.author, TreeClock.fromCbor_toCbor hr.timestamp, CborObject.longOr,
    CborObject.asLong, CborObject.asList, hread] at h
  obtain ⟨payload, hpayload, h⟩ := bind_eq_ok.1 h
  obtain rfl : payload = e.payload := congrArg MessageEnvelope.payload (Except.ok.inj h)
  exact ⟨hr.author, hr.timestamp, Message.encodable_of_fromCbor hr.payload hpayload⟩

theorem encodable_iff {e : MessageEnvelope} (h : e.InRange) :
    e.Encodable ↔ ∀ k ∈ e.keyHashes, k.target.Written := by
  rw [keyHashes, ← Message.encodable_iff h.payload]
  exact ⟨fun he => he.payload, fun hp => ⟨h.author, h.timestamp, hp⟩⟩

/-- An envelope reads back exactly when the keys named in it do. -/
theorem readsBack_iff {e : MessageEnvelope} (h : e.InRange) :
    fromCbor e.toCbor = .ok e ↔ ∀ k ∈ e.keyHashes, k.target.Written := by
  rw [fromCbor_toCbor_iff h, encodable_iff h]

end MessageEnvelope

/-- A signed message reads back exactly when the keys named in it do. -/
theorem SignedMessage.readsBack_iff {s : SignedMessage} (h : s.msg.InRange)
    (hlen : s.msg.serialize.length < 2 ^ 63) :
    fromCbor s.toCbor = .ok s ↔ ∀ k ∈ s.msg.keyHashes, k.target.Written := by
  rw [← MessageEnvelope.readsBack_iff h]
  simp only [fromCbor, toCbor, CborObject.asList, List.head?_cons, Option.bind_some,
    CborObject.asBytes, List.getElem?_cons_succ, List.getElem?_cons_zero,
    MessageEnvelope.serialize, CborObject.fromBytes_encoded s.msg.ordered_toCbor hlen, liftCbor,
    ok_bind]
  constructor
  · intro hread
    obtain ⟨msg, hmsg, hread⟩ := bind_eq_ok.1 hread
    obtain rfl : msg = s.msg := congrArg SignedMessage.msg (Except.ok.inj hread)
    exact hmsg
  · intro hmsg
    rw [hmsg]
    rfl

end Wire

end Peergos
