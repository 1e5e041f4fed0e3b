import PeergosClient.Fs.CapabilityCbor
import PeergosClient.Messaging.Chat

/-!
# Chat messages as they are stored

The CBOR of a signed message and of everything in it.  Here a signature is the bytes it is stored
as; `Messaging.Chat` keeps what was signed in its place.  Every message whose parts read back does
so itself, and its envelope is stored as the very bytes that are signed.
-/

namespace Peergos

namespace CborObject

/-- A field that has to be there, for the error of a `what`. -/
def fieldOf (what : String) (cbor : CborObject) (k : String) : Result CborObject :=
  match cbor.get k with
  | some v => .ok v
  | none => cborErr s!"{what} missing '{k}'"

/-- A field of a kind that has to be there, for the error of a `what`. -/
def readField {α : Type} (what : String) (read : CborObject → Option α) (cbor : CborObject)
    (k : String) : Result α :=
  match (cbor.get k).bind read with
  | some v => .ok v
  | none => cborErr s!"{what} missing '{k}'"

/-- A number, or the error. -/
def longOr (msg : String) (cbor : CborObject) : Result Int64 :=
  match cbor.asLong with
  | some v => .ok v
  | none => cborErr msg

end CborObject

/-! ## Ids and clocks -/

namespace MemberId

/-- The components of an id are `i32`s. -/
def Encodable (id : MemberId) : Prop := ∀ c ∈ id, -2 ^ 31 ≤ c ∧ c < 2 ^ 31

/-- A component `as i64`. -/
def partCbor (c : ℤ) : CborObject := .long (Int64.ofInt c)

/-- A number `as i32`. -/
def ofLong (v : Int64) : ℤ := v.toInt32.toInt

/-- `Id::to_cbor`. -/
def toCbor (id : MemberId) : CborObject := .list (id.map partCbor)

/-- `Id::from_cbor`. -/
def fromCbor (cbor : CborObject) : Result MemberId :=
  match cbor.asList with
  | none => cborErr "Incorrect cbor for Id"
  | some list => list.mapM fun e => do
      let v ← e.longOr "Id component not a long"
      pure (ofLong v)

theorem ofLong_ofInt {c : ℤ} (h : -2 ^ 31 ≤ c ∧ c < 2 ^ 31) : ofLong (Int64.ofInt c) = c := by
  have h64 : (Int64.ofInt c).toInt = c :=
    Int64.toInt_ofInt_of_le (by omega) (by omega)
  rw [ofLong, Int64.toInt_toInt32, h64]
  exact Int.bmod_eq_of_le (by omega) (by omega)

theorem fromCbor_toCbor {id : MemberId} (h : id.Encodable) : fromCbor id.toCbor = .ok id := by
  simp only [fromCbor, toCbor, CborObject.asList]
  refine mapM_map_eq_ok fun c hc => ?_
  simp only [partCbor, CborObject.longOr, CborObject.asLong, ok_bind, ofLong_ofInt (h c hc)]
  rfl

theorem ordered_toCbor (id : MemberId) : id.toCbor.Ordered := by
  refine CborObject.orderedItems_iff.2 fun v hv => ?_
  obtain ⟨c, -, rfl⟩ := List.mem_map.1 hv
  trivial

end MemberId

namespace TreeClock

/-- One entry of a clock: the id's components, then the counter. -/
def entryCbor (e : MemberId × Int64) : CborObject :=
  .list (e.1.map MemberId.partCbor ++ [.long e.2])

/-- `TreeClock::to_cbor`. -/
def toCbor (t : TreeClock) : CborObject := .list (t.time.entries.map entryCbor)

/-- One entry as `TreeClock::from_cbor` reads it. -/
def readEntry (m : CborObject) : Result (MemberId × Int64) :=
  match m.asList with
  | none => cborErr "TreeClock entry not a list"
  | some inner => do
      let longs ← inner.mapM (CborObject.longOr "TreeClock entry not a long")
      match longs.getLast? with
      | none => cborErr "Empty TreeClock entry"
      | some counter => .ok (longs.dropLast.map MemberId.ofLong, counter)

/-- `TreeClock::from_cbor`. -/
def fromCbor (cbor : CborObject) : Result TreeClock :=
  match cbor.asList with
  | none => cborErr "Incorrect cbor for TreeClock"
  | some list =>
      list.foldlM (fun (t : TreeClock) m => do
        let e ← readEntry m
        pure ⟨t.time.insert e.1 e.2⟩) ⟨∅⟩

/-- The ids of a clock are made of `i32`s. -/
def Encodable (t : TreeClock) : Prop := ∀ e ∈ t.time.entries, e.1.Encodable

theorem readEntry_entryCbor {e : MemberId × Int64} (h : e.1.Encodable) :
    readEntry (entryCbor e) = .ok e := by
  obtain ⟨id, counter⟩ := e
  have hitems : id.map MemberId.partCbor ++ [CborObject.long counter] =
      (id.map Int64.ofInt ++ [counter]).map CborObject.long := by
    simp [MemberId.partCbor]
  have hlongs : (id.map Int64.ofInt).map MemberId.ofLong = id := by
    rw [List.map_map]
    exact (List.map_congr_left fun c hc => MemberId.ofLong_ofInt (h c hc)).trans (List.map_id id)
  simp only [readEntry, entryCbor, CborObject.asList, hitems]
  have hread : ((id.map Int64.ofInt ++ [counter]).map CborObject.long).mapM
      (CborObject.longOr "TreeClock entry not a long") = .ok (id.map Int64.ofInt ++ [counter]) :=
    mapM_map_eq_ok fun _ _ => rfl
  rw [hread]
  simp only [ok_bind, List.getLast?_append, List.getLast?_singleton, Option.some_or,
    List.dropLast_concat, hlongs]

theorem fromCbor_toCbor {t : TreeClock} (h : t.Encodable) : fromCbor t.toCbor = .ok t := by
  -- the entries read so far have been put into the clock
  have hfold : ∀ (l : List (MemberId × Int64)) (acc : SortedMap MemberId Int64),
      (∀ e ∈ l, e.1.Encodable) →
      (l.map entryCbor).foldlM (fun (t : TreeClock) m => do
        let e ← readEntry m
        pure ⟨t.time.insert e.1 e.2⟩) ⟨acc⟩ =
        Except.ok (TreeClock.mk (l.foldl (fun m e => m.insert e.1 e.2) acc)) := by
    intro l
    induction l with
    | nil => exact fun acc _ => rfl
    | cons e l ih =>
        intro acc hl
        rw [List.forall_mem_cons] at hl
        rw [List.map_cons, List.foldlM_cons, readEntry_entryCbor hl.1]
        exact ih _ hl.2
  rw [fromCbor, toCbor]
  exact (hfold _ _ h).trans (by rw [SortedMap.foldl_insert_entries])

theorem ordered_toCbor (t : TreeClock) : t.toCbor.Ordered := by
  refine CborObject.orderedItems_iff.2 fun v hv => ?_
  obtain ⟨e, -, rfl⟩ := List.mem_map.1 hv
  refine CborObject.orderedItems_iff.2 fun v hv => ?_
  rcases List.mem_append.1 hv with hv | hv
  · obtain ⟨c, -, rfl⟩ := List.mem_map.1 hv
    trivial
  · rw [List.mem_singleton.1 hv]
    trivial

end TreeClock

/-! ## Files, references and bodies -/

namespace FileRef

/-- `FileRef::to_cbor`. -/
def toCbor (r : FileRef) : CborObject :=
  .build [("p", .str r.path), ("c", r.cap.toCbor), ("h", .merkleLink r.contentHash)]

/-- `FileRef::from_cbor`. -/
def fromCbor (cbor : CborObject) : Result FileRef := do
  let path ← CborObject.readField "FileRef" CborObject.asString cbor "p"
  let cap ← CborObject.fieldOf "FileRef" cbor "c" >>= AbsoluteCapability.fromCbor
  let contentHash ← CborObject.readField "FileRef" CborObject.asLink cbor "h"
  pure ⟨path, cap, contentHash⟩

theorem fromCbor_toCbor {r : FileRef} (h : r.cap.Encodable) : fromCbor r.toCbor = .ok r := by
  have hp : r.toCbor.get "p" = some (.str r.path) :=
    CborObject.get_build_of_mem (by simp) (by simp)
  have hc : r.toCbor.get "c" = some r.cap.toCbor :=
    CborObject.get_build_of_mem (by simp) (by simp)
  have hh : r.toCbor.get "h" = some (.merkleLink r.contentHash) :=
    CborObject.get_build_of_mem (by simp) (by simp)
  simp only [fromCbor, CborObject.readField, CborObject.fieldOf, hp, hc, hh, Option.bind_some,
    CborObject.asString, CborObject.asLink, ok_bind, AbsoluteCapability.fromCbor_toCbor h]
  rfl

theorem ordered_toCbor (r : FileRef) : r.toCbor.Ordered := by
  refine CborObject.ordered_build fun e he => ?_
  simp only [List.mem_cons, List.not_mem_nil, or_false] at he
  rcases he with rfl | rfl | rfl
  · trivial
  · exact r.cap.ordered_toCbor
  · trivial

end FileRef

namespace Content

/-- `Content::to_cbor`. -/
def toCbor : Content → CborObject
  | text s => .str s
  | reference r => .build [("t", .str "Ref"), ("r", r.toCbor)]

/-- `Content::from_cbor`. -/
def fromCbor : CborObject → Result Content
  | .str s => .ok (text s)
  | .map entries =>
      let cbor := CborObject.map entries
      let t := ((cbor.get "t").bind CborObject.asString).getD ""
      if t = "Ref" then do
        let r ← CborObject.fieldOf "Ref" cbor "r" >>= FileRef.fromCbor
        pure (reference r)
      else cborErr s!"unknown content type: {t}"
  | _ => cborErr "invalid Content cbor"

/-- The capability of a file in a body reads back. -/
def Encodable : Content → Prop
  | text _ => True
  | reference r => r.cap.Encodable

theorem fromCbor_toCbor {c : Content} (h : c.Encodable) : fromCbor c.toCbor = .ok c := by
  cases c with
  | text s => rfl
  | reference r =>
      have ht : (toCbor (reference r)).get "t" = some (.str "Ref") :=
        CborObject.get_build_of_mem (by simp) (by simp)
      have hr : (toCbor (reference r)).get "r" = some r.toCbor :=
        CborObject.get_build_of_mem (by simp) (by simp)
      obtain ⟨entries, hmap⟩ : ∃ entries, toCbor (reference r) = .map entries := ⟨_, rfl⟩
      rw [hmap] at ht hr ⊢
      simp only [fromCbor, ht, Option.bind_some, CborObject.asString, Option.getD_some, if_true,
        CborObject.fieldOf, hr, ok_bind, FileRef.fromCbor_toCbor h]
      rfl

theorem ordered_toCbor (c : Content) : c.toCbor.Ordered := by
  cases c with
  | text s => trivial
  | reference r =>
      refine CborObject.ordered_build fun e he => ?_
      simp only [List.mem_cons, List.not_mem_nil, or_false] at he
      rcases he with rfl | rfl
      · trivial
      · exact r.ordered_toCbor

end Content

namespace MessageRef

/-- `MessageRef::to_cbor`. -/
def toCbor (r : MessageRef) : CborObject := .build [("h", .byteString r.envelopeHash)]

/-- `MessageRef::from_cbor`. -/
def fromCbor (cbor : CborObject) : Result MessageRef :=
  match (cbor.get "h").bind CborObject.asBytes with
  | some h => .ok ⟨h⟩
  | none => cborErr "Incorrect cbor for MessageRef"

theorem fromCbor_toCbor (r : MessageRef) : fromCbor r.toCbor = .ok r := rfl

theorem ordered_toCbor (r : MessageRef) : r.toCbor.Ordered :=
  CborObject.ordered_build fun e he => by
    rw [List.mem_singleton.1 he]
    trivial

end MessageRef

namespace ApplicationMessage

/-- `ApplicationMessage::to_cbor`, with the value of `MessageType::Application`. -/
def toCbor (m : ApplicationMessage) : CborObject :=
  .build [("c", .long 2), ("b", .list (m.body.map Content.toCbor))]

/-- `ApplicationMessage::from_cbor`. -/
def fromCbor (cbor : CborObject) : Result ApplicationMessage := do
  let body ← CborObject.readField "ApplicationMessage" CborObject.asList cbor "b"
  let body ← body.mapM Content.fromCbor
  pure ⟨body⟩

/-- Every file in the body reads back. -/
def Encodable (m : ApplicationMessage) : Prop := ∀ c ∈ m.body, c.Encodable

theorem get_body (m : ApplicationMessage) :
    m.toCbor.get "b" = some (.list (m.body.map Content.toCbor)) :=
  CborObject.get_build_of_mem (by simp) (by simp)

theorem fromCbor_toCbor {m : ApplicationMessage} (h : m.Encodable) :
    fromCbor m.toCbor = .ok m := by
  simp only [fromCbor, CborObject.readField, m.get_body, Option.bind_some, CborObject.asList,
    ok_bind, mapM_map_eq_ok fun c hc => Content.fromCbor_toCbor (h c hc)]
  rfl

theorem ordered_toCbor (m : ApplicationMessage) : m.toCbor.Ordered := by
  refine CborObject.ordered_build fun e he => ?_
  simp only [List.mem_cons, List.not_mem_nil, or_false] at he
  rcases he with rfl | rfl
  · trivial
  · refine CborObject.orderedItems_iff.2 fun v hv => ?_
    obtain ⟨c, -, rfl⟩ := List.mem_map.1 hv
    exact c.ordered_toCbor

end ApplicationMessage

namespace PublicSigningKey

/-- `PublicSigningKey::to_cbor`, after the type `ED25519`. -/
def toCbor (k : PublicSigningKey) : CborObject := .list [.long 1, .byteString k.publicKey]

/-- `PublicSigningKey::from_cbor`. -/
def fromCbor (cbor : CborObject) : Result PublicSigningKey :=
  match cbor.asList with
  | none => cborErr "Invalid cbor for PublicSigningKey"
  | some list =>
      match list[1]?.bind CborObject.asBytes with
      | some key => .ok ⟨key⟩
      | none => cborErr "missing ed25519 public key bytes"

theorem fromCbor_toCbor (k : PublicSigningKey) : fromCbor k.toCbor = .ok k := rfl

theorem ordered_toCbor (k : PublicSigningKey) : k.toCbor.Ordered := ⟨trivial, trivial, trivial⟩

end PublicSigningKey

/-! ## Messages -/

namespace Wire

/-- `OwnerProof`, the signed owner as bytes. -/
structure OwnerProof where
  ownedKey : PublicKeyHash
  signedOwner : Bytes
  deriving DecidableEq

namespace OwnerProof

/-- `OwnerProof::to_cbor`. -/
def toCbor (p : OwnerProof) : CborObject :=
  .build [("o", p.ownedKey.toCbor), ("p", .byteString p.signedOwner)]

/-- `OwnerProof::from_cbor`. -/
def fromCbor (cbor : CborObject) : Result OwnerProof := do
  let owned ← CborObject.fieldOf "OwnerProof" cbor "o" >>= PublicKeyHash.fromCbor
  let signed ← CborObject.readField "OwnerProof" CborObject.asBytes cbor "p"
  pure ⟨owned, signed⟩

theorem fromCbor_toCbor {p : OwnerProof} (h : p.ownedKey.Encodable) :
    fromCbor p.toCbor = .ok p := by
  have ho : p.toCbor.get "o" = some p.ownedKey.toCbor :=
    CborObject.get_build_of_mem (by simp) (by simp)
  have hp : p.toCbor.get "p" = some (.byteString p.signedOwner) :=
    CborObject.get_build_of_mem (by simp) (by simp)
  simp only [fromCbor, CborObject.fieldOf, CborObject.readField, ho, hp, Option.bind_some,
    CborObject.asBytes, ok_bind, PublicKeyHash.fromCbor_toCbor h]
  rfl

theorem ordered_toCbor (p : OwnerProof) : p.toCbor.Ordered := by
  refine CborObject.ordered_build fun e he => ?_
  simp only [List.mem_cons, List.not_mem_nil, or_false] at he
  rcases he with rfl | rfl <;> trivial

end OwnerProof

/-- `Message`. -/
inductive Message where
  | join (username : String) (identity : PublicKeyHash) (chatIdentity : OwnerProof)
      (chatIdPublic : PublicSigningKey)
  | invite (username : String) (identity : PublicKeyHash) (recipientId : MemberId)
  | application (content : ApplicationMessage)
  | groupState (key value : String)
  | replyTo (parent : MessageRef) (content : ApplicationMessage)
  | delete (target : MessageRef)
  | edit (priorVersion : MessageRef) (content : ApplicationMessage)
  | removeMember (chatUid : String) (memberToRemove : MemberId)
  deriving DecidableEq

/-- `MessageType`. -/
inductive MessageType where
  | join | invite | application | groupState | replyTo | delete | edit | removeMember
  deriving DecidableEq

namespace MessageType

/-- `MessageType::value`. -/
def value : MessageType → Int64
  | join => 0
  | invite => 1
  | application => 2
  | groupState => 3
  | replyTo => 4
  | delete => 5
  | edit => 6
  | removeMember => 7

/-- `MessageType::by_value`. -/
def byValue (val : Int64) : Result MessageType :=
  if val = 0 then .ok join
  else if val = 1 then .ok invite
  else if val = 2 then .ok application
  else if val = 3 then .ok groupState
  else if val = 4 then .ok replyTo
  else if val = 5 then .ok delete
  else if val = 6 then .ok edit
  else if val = 7 then .ok removeMember
  else cborErr s!"Unknown message type: {val}"

theorem byValue_value (t : MessageType) : byValue t.value = .ok t := by
  cases t <;> rfl

end MessageType

namespace Message

/-- `Message::message_type`. -/
def messageType : Message → MessageType
  | join .. => .join
  | invite .. => .invite
  | application _ => .application
  | groupState .. => .groupState
  | replyTo .. => .replyTo
  | delete _ => .delete
  | edit .. => .edit
  | removeMember .. => .removeMember

/-- The fields of a message after its category, in the order they are put. -/
def fields : Message → List (String × CborObject)
  | join username identity chatIdentity chatIdPublic =>
      [("u", .str username), ("i", identity.toCbor), ("ci", chatIdentity.toCbor),
        ("p", chatIdPublic.toCbor)]
  | invite username identity recipientId =>
      [("u", .str username), ("r", recipientId.toCbor), ("i", identity.toCbor)]
  | application m => [("b", .list (m.body.map Content.toCbor))]
  | groupState key value => [("k", .str key), ("v", .str value)]
  | replyTo parent content => [("r", parent.toCbor), ("b", content.toCbor)]
  | edit priorVersion content => [("r", priorVersion.toCbor), ("b", content.toCbor)]
  | delete target => [("r", target.toCbor)]
  | removeMember chatUid memberToRemove =>
      [("u", .str chatUid), ("m", memberToRemove.toCbor)]

/-- `Message::to_cbor`. -/
def toCbor (m : Message) : CborObject :=
  .build (("c", .long m.messageType.value) :: m.fields)

/-- `Message::from_cbor`. -/
def fromCbor (cbor : CborObject) : Result Message := do
  let category ←
    match (cbor.get "c").bind CborObject.asLong with
    | some c => .ok c
    | none => cborErr "Incorrect cbor for Message"
  let getStr := CborObject.readField "Message" CborObject.asString cbor
  let get := CborObject.fieldOf "Message" cbor
  match ← MessageType.byValue category with
  | .join => do
      let username ← getStr "u"
      let identity ← get "i" >>= PublicKeyHash.fromCbor
      let chatIdentity ← get "ci" >>= OwnerProof.fromCbor
      let chatIdPublic ← get "p" >>= PublicSigningKey.fromCbor
      pure (join username identity chatIdentity chatIdPublic)
  | .invite => do
      let username ← getStr "u"
      let recipientId ← get "r" >>= MemberId.fromCbor
      let identity ← get "i" >>= PublicKeyHash.fromCbor
      pure (invite username identity recipientId)
  | .application => application <$> ApplicationMessage.fromCbor cbor
  | .groupState => do
      let key ← getStr "k"
      let value ← getStr "v"
      pure (groupState key value)
  | .replyTo => do
      let parent ← get "r" >>= MessageRef.fromCbor
      let content ← get "b" >>= ApplicationMessage.fromCbor
      pure (replyTo parent content)
  | .edit => do
      let priorVersion ← get "r" >>= MessageRef.fromCbor
      let content ← get "b" >>= ApplicationMessage.fromCbor
      pure (edit priorVersion content)
  | .delete => do
      let target ← get "r" >>= MessageRef.fromCbor
      pure (delete target)
  | .removeMember => do
      let chatUid ← getStr "u"
      let memberToRemove ← get "m" >>= MemberId.fromCbor
      pure (removeMember chatUid memberToRemove)

/-- The names, ids and files in a message read back. -/
def Encodable : Message → Prop
  | join _ identity chatIdentity _ => identity.Encodable ∧ chatIdentity.ownedKey.Encodable
  | invite _ identity recipientId => identity.Encodable ∧ recipientId.Encodable
  | application m => m.Encodable
  | groupState _ _ => True
  | replyTo _ content => content.Encodable
  | delete _ => True
  | edit _ content => content.Encodable
  | removeMember _ memberToRemove => memberToRemove.Encodable

theorem nodup_fields (m : Message) :
    ((("c", CborObject.long m.messageType.value) :: m.fields).map Prod.fst).Nodup := by
  cases m <;> simp [fields]

theorem get_category (m : Message) : m.toCbor.get "c" = some (.long m.messageType.value) :=
  CborObject.get_build_of_mem m.nodup_fields List.mem_cons_self

theorem get_field (m : Message) : ∀ e ∈ m.fields, m.toCbor.get e.1 = some e.2 := fun _ he =>
  CborObject.get_build_of_mem m.nodup_fields (List.mem_cons_of_mem _ he)

theorem fromCbor_toCbor {m : Message} (h : m.Encodable) : fromCbor m.toCbor = .ok m := by
  have hfields := m.get_field
  simp only [fromCbor, m.get_category, Option.bind_some, CborObject.asLong, ok_bind,
    MessageType.byValue_value]
  cases m with
  | join username identity chatIdentity chatIdPublic =>
      simp only [fields, List.forall_mem_cons] at hfields
      obtain ⟨hu, hi, hci, hp, -⟩ := hfields
      simp only [messageType, CborObject.readField, CborObject.fieldOf, hu, hi, hci, hp,
        Option.bind_some, CborObject.asString, ok_bind, PublicKeyHash.fromCbor_toCbor h.1,
        OwnerProof.fromCbor_toCbor h.2, PublicSigningKey.fromCbor_toCbor]
      rfl
  | invite username identity recipientId =>
      simp only [fields, List.forall_mem_cons] at hfields
      obtain ⟨hu, hr, hi, -⟩ := hfields
      simp only [messageType, CborObject.readField, CborObject.fieldOf, hu, hr, hi,
        Option.bind_some, CborObject.asString, ok_bind, PublicKeyHash.fromCbor_toCbor h.1,
        MemberId.fromCbor_toCbor h.2]
      rfl
  | application content =>
      have hsame : toCbor (application content) = content.toCbor := rfl
      simp only [messageType, hsame, ApplicationMessage.fromCbor_toCbor h]
      rfl
  | groupState key value =>
      simp only [fields, List.forall_mem_cons] at hfields
      obtain ⟨hk, hv, -⟩ := hfields
      simp only [messageType, CborObject.readField, hk, hv, Option.bind_some, CborObject.asString,
        ok_bind]
      rfl
  | replyTo parent content =>
      simp only [fields, List.forall_mem_cons] at hfields
      obtain ⟨hr, hb, -⟩ := hfields
      simp only [messageType, CborObject.fieldOf, hr, hb, ok_bind, MessageRef.fromCbor_toCbor,
        ApplicationMessage.fromCbor_toCbor h]
      rfl
  | delete target =>
      simp only [fields, List.forall_mem_cons] at hfields
      simp only [messageType, CborObject.fieldOf, hfields.1, ok_bind, MessageRef.fromCbor_toCbor]
      rfl
  | edit priorVersion content =>
      simp only [fields, List.forall_mem_cons] at hfields
      obtain ⟨hr, hb, -⟩ := hfields
      simp only [messageType, CborObject.fieldOf, hr, hb, ok_bind, MessageRef.fromCbor_toCbor,
        ApplicationMessage.fromCbor_toCbor h]
      rfl
  | removeMember chatUid memberToRemove =>
      simp only [fields, List.forall_mem_cons] at hfields
      obtain ⟨hu, hm, -⟩ := hfields
      simp only [messageType, CborObject.readField, CborObject.fieldOf, hu, hm, Option.bind_some,
        CborObject.asString, ok_bind, MemberId.fromCbor_toCbor h]
      rfl

theorem ordered_fields (m : Message) : ∀ e ∈ m.fields, e.2.Ordered := by
  cases m with
  | application m =>
      rw [fields, List.forall_mem_singleton]
      refine CborObject.orderedItems_iff.2 fun v hv => ?_
      obtain ⟨c, -, rfl⟩ := List.mem_map.1 hv
      exact c.ordered_toCbor
  | join username identity chatIdentity chatIdPublic =>
      simp only [fields, List.forall_mem_cons]
      exact ⟨trivial, trivial, chatIdentity.ordered_toCbor, chatIdPublic.ordered_toCbor,
        List.forall_mem_nil _⟩
  | invite username identity recipientId =>
      simp only [fields, List.forall_mem_cons]
      exact ⟨trivial, recipientId.ordered_toCbor, trivial, List.forall_mem_nil _⟩
  | groupState key value =>
      simp only [fields, List.forall_mem_cons]
      exact ⟨trivial, trivial, List.forall_mem_nil _⟩
  | replyTo parent content =>
      simp only [fields, List.forall_mem_cons]
      exact ⟨parent.ordered_toCbor, content.ordered_toCbor, List.forall_mem_nil _⟩
  | delete target =>
      rw [fields, List.forall_mem_singleton]
      exact target.ordered_toCbor
  | edit priorVersion content =>
      simp only [fields, List.forall_mem_cons]
      exact ⟨priorVersion.ordered_toCbor, content.ordered_toCbor, List.forall_mem_nil _⟩
  | removeMember chatUid memberToRemove =>
      simp only [fields, List.forall_mem_cons]
      exact ⟨trivial, memberToRemove.ordered_toCbor, List.forall_mem_nil _⟩

theorem ordered_toCbor (m : Message) : m.toCbor.Ordered :=
  CborObject.ordered_build (List.forall_mem_cons.2 ⟨trivial, m.ordered_fields⟩)

end Message

/-! ## Envelopes -/

/-- `MessageEnvelope`. -/
structure MessageEnvelope where
  author : MemberId
  timestamp : TreeClock
  creationTimeMillis : Int64
  previousMessages : List MessageRef
  payload : Message
  deriving DecidableEq

namespace MessageEnvelope

/-- The fields of an envelope, in the order they are put. -/
def fields (e : MessageEnvelope) : List (String × CborObject) :=
  [("a", e.author.toCbor), ("t", e.timestamp.toCbor), ("u", .long e.creationTimeMillis),
    ("r", .list (e.previousMessages.map MessageRef.toCbor)), ("p", e.payload.toCbor)]

/-- `MessageEnvelope::to_cbor`. -/
def toCbor (e : MessageEnvelope) : CborObject := .build e.fields

/-- `MessageEnvelope::serialize`. -/
def serialize (e : MessageEnvelope) : Bytes := e.toCbor.toBytes

/-- `MessageEnvelope::from_cbor`. -/
def fromCbor (cbor : CborObject) : Result MessageEnvelope := do
  let get := CborObject.fieldOf "MessageEnvelope" cbor
  let author ← get "a" >>= MemberId.fromCbor
  let timestamp ← get "t" >>= TreeClock.fromCbor
  let creationTimeMillis ← get "u" >>= CborObject.longOr "MessageEnvelope 'u' not a long"
  let refs ← get "r"
  let previousMessages ←
    match refs.asList with
    | some list => list.mapM MessageRef.fromCbor
    | none => cborErr "MessageEnvelope 'r' not a list"
  let payload ← get "p" >>= Message.fromCbor
  pure ⟨author, timestamp, creationTimeMillis, previousMessages, payload⟩

/-- The ids, names and files in an envelope read back. -/
structure Encodable (e : MessageEnvelope) : Prop where
  author : e.author.Encodable
  timestamp : e.timestamp.Encodable
  payload : e.payload.Encodable

theorem fromCbor_toCbor {e : MessageEnvelope} (h : e.Encodable) : fromCbor e.toCbor = .ok e := by
  have hfields : ∀ f ∈ e.fields, e.toCbor.get f.1 = some f.2 := fun _ hf =>
    CborObject.get_build_of_mem (by simp [fields]) hf
  simp only [fields, List.forall_mem_cons] at hfields
  obtain ⟨ha, ht, hu, hr, hp, -⟩ := hfields
  have hrefs : (e.previousMessages.map MessageRef.toCbor).mapM MessageRef.fromCbor =
      .ok e.previousMessages := mapM_map_eq_ok fun r _ => r.fromCbor_toCbor
  simp only [fromCbor, CborObject.fieldOf, ha, ht, hu, hr, hp, ok_bind,
    MemberId.fromCbor_toCbor h.author, TreeClock.fromCbor_toCbor h.timestamp, CborObject.longOr,
    CborObject.asLong, CborObject.asList, hrefs, Message.fromCbor_toCbor h.payload]
  rfl

theorem ordered_toCbor (e : MessageEnvelope) : e.toCbor.Ordered := by
  refine CborObject.ordered_build ?_
  simp only [fields, List.forall_mem_cons]
  refine ⟨e.author.ordered_toCbor, e.timestamp.ordered_toCbor, trivial, ?_,
    e.payload.ordered_toCbor, List.forall_mem_nil _⟩
  refine CborObject.orderedItems_iff.2 fun v hv => ?_
  obtain ⟨r, -, rfl⟩ := List.mem_map.1 hv
  exact r.ordered_toCbor

end MessageEnvelope

/-- `SignedMessage`. -/
structure SignedMessage where
  signature : Bytes
  msg : MessageEnvelope
  deriving DecidableEq

namespace SignedMessage

/-- `SignedMessage::to_cbor`. -/
def toCbor (s : SignedMessage) : CborObject :=
  .list [.byteString s.signature, .byteString s.msg.serialize]

/-- `SignedMessage::serialize`. -/
def serialize (s : SignedMessage) : Bytes := s.toCbor.toBytes

/-- `SignedMessage::from_cbor`. -/
def fromCbor (cbor : CborObject) : Result SignedMessage :=
  match cbor.asList with
  | none => cborErr "Incorrect cbor for SignedMessage"
  | some list =>
      match list.head?.bind CborObject.asBytes with
      | none => cborErr "SignedMessage missing signature"
      | some signature =>
          match list[1]?.bind CborObject.asBytes with
          | none => cborErr "SignedMessage missing envelope"
          | some msgBytes => do
              let cbor ← liftCbor (CborObject.fromBytes msgBytes)
              let msg ← MessageEnvelope.fromCbor cbor
              pure ⟨signature, msg⟩

/-- A message reads back from what it writes. -/
theorem fromCbor_toCbor {s : SignedMessage} (h : s.msg.Encodable)
    (hlen : s.msg.serialize.length < 2 ^ 63) : fromCbor s.toCbor = .ok s := by
  simp only [fromCbor, toCbor, CborObject.asList, List.head?_cons, Option.bind_some,
    CborObject.asBytes, List.getElem?_cons_succ, List.getElem?_cons_zero,
    MessageEnvelope.serialize, CborObject.fromBytes_encoded s.msg.ordered_toCbor hlen, liftCbor,
    ok_bind, MessageEnvelope.fromCbor_toCbor h]
  rfl

theorem ordered_toCbor (s : SignedMessage) : s.toCbor.Ordered := ⟨trivial, trivial, trivial⟩

theorem length_envelope_le (s : SignedMessage) :
    s.msg.serialize.length ≤ s.serialize.length := by
  simp only [serialize, toCbor, CborObject.toBytes, CborObject.listBytes, CborObject.writeString,
    List.length_append]
  omega

theorem serialize_ne_nil (s : SignedMessage) : s.serialize ≠ [] :=
  List.ne_nil_of_length_pos (CborObject.length_toBytes_pos _)

end SignedMessage

end Wire

end Peergos
