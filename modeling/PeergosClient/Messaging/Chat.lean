import PeergosClient.Fs.Cryptree
import PeergosClient.Messaging.Clock

/-!
# Chats

A `Chat` is one member's view of a conversation: the members and how much of each one's log has been
merged, the group properties, the clock of everything merged, and a window of recent messages.
Applying or merging messages gives a `ChatUpdate`: the new view and what has to be written with it.

A signature is kept as the key it was made with and what it signs, so it verifies with that key and
no other.  What the calls draw from outside is in `ChatEnv`: the keys the store can deliver, the
time, hashes of envelopes, and the key pair drawn when a removed member joins again.
-/

namespace Peergos

/-! ## Signatures -/

/-- A signature with what it signs. -/
structure Signed (α : Type) where
  signer : PublicKeyHash
  content : α
  deriving DecidableEq

/-- `SecretSigningKey::sign_message`, `signature_only`. -/
def SigningPrivateKeyAndPublicHash.sign {α : Type} (key : SigningPrivateKeyAndPublicHash)
    (content : α) : Signed α := ⟨key.publicKeyHash, content⟩

/-- `PublicSigningKey::unsign_message`. -/
def Signed.unsign {α : Type} (s : Signed α) (key : PublicKeyHash) : Result α :=
  if s.signer = key then .ok s.content
  else .error (.err (.crypto "signature verification failed"))

/-- `PublicSigningKey`. -/
structure PublicSigningKey where
  publicKey : Bytes
  deriving DecidableEq

/-- `OwnerProof`. -/
structure OwnerProof where
  ownedKey : PublicKeyHash
  signedOwner : Signed PublicKeyHash
  deriving DecidableEq

/-- `OwnerProof::build`. -/
def OwnerProof.build (ownedKeypair : SigningPrivateKeyAndPublicHash) (owner : PublicKeyHash) :
    OwnerProof := ⟨ownedKeypair.publicKeyHash, ownedKeypair.sign owner⟩

/-! ## Messages -/

/-- `FileRef`. -/
structure FileRef where
  path : String
  cap : AbsoluteCapability
  contentHash : Bytes
  deriving DecidableEq

/-- `Content`. -/
inductive Content where
  | text (text : String)
  | reference (file : FileRef)
  deriving DecidableEq

/-- `ApplicationMessage`. -/
structure ApplicationMessage where
  body : List Content
  deriving DecidableEq

/-- `ApplicationMessage::file_refs`. -/
def ApplicationMessage.fileRefs (m : ApplicationMessage) : List FileRef :=
  m.body.filterMap fun
    | .reference r => some r
    | .text _ => none

/-- `MessageRef`. -/
structure MessageRef where
  envelopeHash : Bytes
  deriving DecidableEq

/-- `Message`. -/
inductive Message where
  | join (username : String) (identity : PublicKeyHash) (chatIdentity : OwnerProof)
      (chatIdPublic : PublicSigningKey)
  | invite (username : String) (identity : PublicKeyHash) (recipientId : MemberId)
  | application (content : ApplicationMessage)
  | groupState (key value : String)
  | replyTo (parent : MessageRef) (content : ApplicationMessage)
  | delete (target : MessageRef)
  | edit (priorVersion : MessageRef) (content : ApplicationMessage)
  | removeMember (chatUid : String) (memberToRemove : MemberId)
  deriving DecidableEq

/-- `MessageEnvelope`. -/
structure MessageEnvelope where
  author : MemberId
  timestamp : TreeClock
  creationTimeMillis : ℤ
  previousMessages : List MessageRef
  payload : Message
  deriving DecidableEq

/-- `SignedMessage`. -/
structure SignedMessage where
  signature : Signed MessageEnvelope
  msg : MessageEnvelope
  deriving DecidableEq

/-! ## Members and private state -/

/-- `ADMINS_STATE_KEY`. -/
def adminsStateKey : String := "admins"

/-- `GroupProperty`. -/
structure GroupProperty where
  author : MemberId
  updateTimestamp : TreeClock
  value : String
  deriving DecidableEq

/-- `Member`. -/
structure Member where
  username : String
  id : MemberId
  identity : PublicKeyHash
  chatIdentity : Option OwnerProof
  messagesMergedUpto : ℤ
  membersInvited : ℤ
  removed : Bool
  deriving DecidableEq

namespace Member

/-- `Member::simple`. -/
def simple (username : String) (id : MemberId) (identity : PublicKeyHash)
    (messagesMergedUpto membersInvited : ℤ) : Member :=
  ⟨username, id, identity, none, messagesMergedUpto, membersInvited, false⟩

/-- `Member::increment_invited`. -/
def incrementInvited (m : Member) : Member := { m with membersInvited := m.membersInvited + 1 }

/-- `Member::increment_messages`. -/
def incrementMessages (m : Member) : Member :=
  { m with messagesMergedUpto := m.messagesMergedUpto + 1 }

/-- `Member::removed`. -/
def setRemoved (m : Member) (updated : Bool) : Member := { m with removed := updated }

/-- `Member::with_chat_id`. -/
def withChatId (m : Member) (proof : OwnerProof) : Member := { m with chatIdentity := some proof }

end Member

/-- `PrivateChatState`. -/
structure PrivateChatState where
  chatIdentity : SigningPrivateKeyAndPublicHash
  chatIdPublic : PublicSigningKey
  deletedMembers : Finset String
  deriving DecidableEq

namespace PrivateChatState

/-- `PrivateChatState::add_deleted`. -/
def addDeleted (p : PrivateChatState) (username : String) : PrivateChatState :=
  { p with deletedMembers := insert username p.deletedMembers }

/-- `PrivateChatState::apply`. -/
def apply (p newer : PrivateChatState) : PrivateChatState :=
  { newer with deletedMembers := p.deletedMembers ∪ newer.deletedMembers }

end PrivateChatState

/-! ## What calls draw from outside -/

/-- The store, the clock, the hash function and the random source of a call. -/
structure ChatEnv where
  /-- `get_signing_key` has the key with this hash. -/
  holdsKey : PublicKeyHash → Bool
  /-- `now_millis`, when the message with this clock is made. -/
  nowMillis : TreeClock → ℤ
  /-- `bare_hash` of an envelope's bytes. -/
  bareHash : MessageEnvelope → Bytes
  /-- `Chat::generate_chat_identity`, drawn to join again under this id. -/
  generateChatIdentity : MemberId → PrivateChatState

/-- `OwnerProof::get_and_verify_owner`. -/
def OwnerProof.getAndVerifyOwner (env : ChatEnv) (p : OwnerProof) : Result PublicKeyHash :=
  if env.holdsKey p.ownedKey then p.signedOwner.unsign p.ownedKey
  else .error (.err (.protocolCid "Couldn't retrieve owned key: " p.ownedKey.target))

/-! ## The log of a chat -/

/-- `MessageStore`: the messages of a log. -/
abbrev MessageStore := List SignedMessage

namespace MessageStore

/-- `get_messages_from`. -/
def getMessagesFrom (s : MessageStore) (index : ℤ) : List SignedMessage := s.drop index.toNat

/-- `get_messages`. -/
def getMessages (s : MessageStore) (fromIndex toIndex : ℤ) : List SignedMessage :=
  (s.take toIndex.toNat).drop fromIndex.toNat

end MessageStore

/-! ## The chat state -/

/-- `MAX_RECENT`. -/
def maxRecent : ℕ := 10

/-- `Chat`. -/
structure Chat where
  chatUid : String
  host : MemberId
  current : TreeClock
  members : SortedMap MemberId Member
  groupState : SortedMap String GroupProperty
  recentMessages : List MessageEnvelope
  deriving DecidableEq

/-- `ChatUpdate`. -/
structure ChatUpdate where
  state : Chat
  newMessages : List SignedMessage
  mediaToCopy : List FileRef
  toRevokeAccess : Finset String
  privState : Option PrivateChatState
  deriving DecidableEq

namespace ChatUpdate

/-- `ChatUpdate::new`. -/
def new (state : Chat) (newMessages : List SignedMessage) (mediaToCopy : List FileRef)
    (toRevokeAccess : Finset String) : ChatUpdate :=
  ⟨state, newMessages, mediaToCopy, toRevokeAccess, none⟩

/-- `ChatUpdate::empty`. -/
def empty (state : Chat) : ChatUpdate := ⟨state, [], [], ∅, none⟩

/-- `ChatUpdate::is_empty`. -/
def isEmpty (u : ChatUpdate) : Bool :=
  u.newMessages.isEmpty && u.mediaToCopy.isEmpty && decide (u.toRevokeAccess = ∅) &&
    u.privState.isNone

/-- `ChatUpdate::apply`. -/
def apply (u next : ChatUpdate) : ChatUpdate where
  state := next.state
  newMessages := u.newMessages ++ next.newMessages
  mediaToCopy := u.mediaToCopy ++ next.mediaToCopy
  toRevokeAccess := u.toRevokeAccess ∪ next.toRevokeAccess
  privState :=
    match u.privState, next.privState with
    | some a, some b => some (a.apply b)
    | _, _ => none

/-- `ChatUpdate::with_state`. -/
def withState (u : ChatUpdate) (c : Chat) : ChatUpdate := { u with state := c }

end ChatUpdate

namespace Chat

/-! ### Accessors -/

/-- `Chat::get_admins`. -/
def getAdmins (c : Chat) : List String :=
  match c.groupState.get adminsStateKey with
  | none => []
  | some prop => (prop.value.toList.splitOn ',').map String.ofList

/-- `Chat::host`, which expects the host to be a member. -/
def hostMember (c : Chat) : Result Member :=
  match c.members.get c.host with
  | some m => .ok m
  | none => .error .panic

/-- `Chat::get_member_by_id`. -/
def getMemberById (c : Chat) (id : MemberId) : Option Member := c.members.get id

/-- `Chat::get_member`. -/
def getMember (c : Chat) (username : String) : Option Member :=
  let hits := c.members.values.filter fun m => m.username = username
  (hits.find? fun m => !m.removed).or hits.head?

/-! ### Updates -/

/-- `Chat::with_members`. -/
def withMembers (c : Chat) (updated : SortedMap MemberId Member) : Chat :=
  { c with members := updated }

/-- `Chat::with_time`. -/
def withTime (c : Chat) (newTime : TreeClock) : Chat := { c with current := newTime }

/-- `Chat::with_host`. -/
def withHost (c : Chat) (host : MemberId) : Chat := { c with host := host }

/-- `Chat::with_properties`. -/
def withProperties (c : Chat) (updated : SortedMap String GroupProperty) : Chat :=
  { c with groupState := updated }

/-- `Chat::add_to_recent`. -/
def addToRecent (c : Chat) (m : MessageEnvelope) : Chat :=
  { c with recentMessages :=
      (if c.recentMessages.length ≥ maxRecent then c.recentMessages.tail else c.recentMessages) ++
        [m] }

/-- `Chat::increment_host`. -/
def incrementHost (c : Chat) (source : Member) : Chat :=
  c.withMembers (c.members.insert source.id source.incrementMessages)

/-- `Chat::merge_message_timestamp`, which expects the source and the host to be members.  Both new
records are computed from the members before either is put in. -/
def mergeMessageTimestamp (c : Chat) (timestamp : TreeClock) (source : Member) : Result Chat :=
  match c.members.get source.id, c.members.get c.host with
  | some src, some host =>
      .ok ((c.withMembers ((c.members.insert source.id src.incrementMessages).insert c.host
        host.incrementMessages)).withTime (c.current.merge timestamp))
  | _, _ => .error .panic

/-! ### Applying and merging messages

`apply_message`, `merge_message` and `send_message_refs` call each other: a removed host that is
invited again sends a `Join` while the invitation is applied.  The first three definitions take the
call that would close the circle as an argument. -/

section

variable (env : ChatEnv)

/-- The signature check of `Chat::merge_message`: the author's chat identity must have signed the
message, or the author's own identity if no chat identity is known yet. -/
def checkSignature (author : Member) (signed : SignedMessage) : Result Unit := do
  let signerHash ←
    match author.chatIdentity with
    | some proof => proof.getAndVerifyOwner env
    | none => pure author.identity
  if !env.holdsKey signerHash then protocolErr "Couldn't retrieve public signing key!"
  let envelope ← signed.signature.unsign signerHash
  if envelope ≠ signed.msg then .error (.err (.crypto "signature verification failed"))

/-- `Chat::merge_message`. -/
def mergeMessageWith (applyMessage : Chat → SignedMessage → Result ChatUpdate) (c : Chat)
    (signed : SignedMessage) (host : Member) : Result ChatUpdate :=
  match c.members.get signed.msg.author with
  | none => protocolErr "Unknown message author"
  | some author =>
      if !signed.msg.timestamp.isBeforeOrEqual c.current && !author.removed then do
        checkSignature env author signed
        let update ← applyMessage c signed
        let newState ← update.state.mergeMessageTimestamp signed.msg.timestamp host
        pure (update.withState newState)
      else pure (.empty (c.incrementHost host))

/-- `Chat::send_message_refs`. -/
def sendMessageRefsWith (applyMessage : Chat → SignedMessage → Result ChatUpdate) (c : Chat)
    (body : Message) (signer : SigningPrivateKeyAndPublicHash) (recentRefs : List MessageRef) :
    Result ChatUpdate := do
  let msgTime := c.current.increment c.host
  let msg : MessageEnvelope := ⟨c.host, msgTime, env.nowMillis msgTime, recentRefs, body⟩
  let host ← c.hostMember
  mergeMessageWith env applyMessage c ⟨signer.sign msg, msg⟩ host

/-- The case `Message::Invite` of `Chat::apply_message`. -/
def applyInvite
    (sendRefs : Chat → Message → SigningPrivateKeyAndPublicHash → List MessageRef →
      Result ChatUpdate)
    (userIdentity : SigningPrivateKeyAndPublicHash) (c : Chat) (signed : SignedMessage)
    (author : Member) (username : String) (identity : PublicKeyHash) (newMember : MemberId) :
    Result ChatUpdate :=
  if c.members.contains newMember then protocolErr "Id already exists in this chat!"
  else do
    let parent ← newMember.parent
    if parent ≠ author.id then protocolErr "Invalid invite Id!"
    let updated := c.members.insert author.id author.incrementInvited
    let indexIntoParent ←
      match c.getMemberById parent with
      | some m => pure m.messagesMergedUpto
      | none => protocolErr "Invite parent missing"
    let host ← c.hostMember
    let newRecord := Member.simple username newMember identity indexIntoParent 0
    let afterInvite := ChatUpdate.new
      ((c.withMembers (updated.insert newMember newRecord)).addToRecent signed.msg) [signed] [] ∅
    if host.username = username ∧ host.removed then
      let newIdentity := env.generateChatIdentity newMember
      let chatId := OwnerProof.build userIdentity newIdentity.chatIdentity.publicKeyHash
      let nextState := (afterInvite.state.withTime
        (afterInvite.state.current.withMember newRecord.id)).withHost newRecord.id
      let sent ← sendRefs nextState
        (.join host.username host.identity chatId newIdentity.chatIdPublic) userIdentity
        [⟨env.bareHash signed.msg⟩]
      pure (afterInvite.apply sent)
    else pure afterInvite

/-- The case `Message::Join` of `Chat::apply_message`. -/
def applyJoin (c : Chat) (signed : SignedMessage) (author : Member) (chatIdentity : OwnerProof) :
    Result ChatUpdate :=
  if author.chatIdentity.isNone then do
    if chatIdentity.ownedKey ≠ author.identity then protocolErr "Identity keys don't match!"
    let _ ← chatIdentity.getAndVerifyOwner env
    let updated := c.members.insert author.id (author.withChatId chatIdentity)
    pure (.new ((c.withMembers updated).addToRecent signed.msg) [signed] [] ∅)
  else pure (.new (c.addToRecent signed.msg) [signed] [] ∅)

/-- Whether `Message::GroupState` replaces what is set under its key. -/
def groupStateWins (c : Chat) (msg : MessageEnvelope) (author : Member) (key : String) : Bool :=
  let adminsOk := decide (key ≠ adminsStateKey) || decide (author.username ∈ c.getAdmins)
  match c.groupState.get key with
  | none => true
  | some existing =>
      adminsOk && (existing.updateTimestamp.isBeforeOrEqual msg.timestamp ||
        (existing.updateTimestamp.isConcurrentWith msg.timestamp &&
          decide (compare msg.author existing.author = .lt)))

/-- The case `Message::GroupState` of `Chat::apply_message`. -/
def applyGroupState (c : Chat) (signed : SignedMessage) (author : Member) (key value : String) :
    ChatUpdate :=
  if c.groupStateWins signed.msg author key then
    .new ((c.withProperties (c.groupState.insert key
      ⟨signed.msg.author, signed.msg.timestamp, value⟩)).addToRecent signed.msg) [signed] [] ∅
  else .new (c.addToRecent signed.msg) [signed] [] ∅

/-- The case `Message::RemoveMember` of `Chat::apply_message`. -/
def applyRemoveMember (c : Chat) (signed : SignedMessage) (author : Member) (chatUid : String)
    (memberToRemove : MemberId) : Result ChatUpdate :=
  if chatUid ≠ c.chatUid then pure (.new c [] [] ∅)
  else if memberToRemove = signed.msg.author ∨ author.username ∈ c.getAdmins then
    match c.members.get memberToRemove with
    | none => protocolErr "member to remove missing"
    | some m => do
        let host ← c.hostMember
        let updated := c.members.insert memberToRemove (m.setRemoved true)
        pure (.new ((c.addToRecent signed.msg).withMembers updated) [signed] []
          (if m.username = host.username then ∅ else {m.username}))
  else pure (.new (c.addToRecent signed.msg) [signed] [] ∅)

/-- `Chat::apply_message`. -/
def applyMessageWith
    (sendRefs : Chat → Message → SigningPrivateKeyAndPublicHash → List MessageRef →
      Result ChatUpdate)
    (userIdentity : SigningPrivateKeyAndPublicHash) (c : Chat) (signed : SignedMessage) :
    Result ChatUpdate :=
  match c.members.get signed.msg.author with
  | none => protocolErr "Unknown message author"
  | some author =>
      match signed.msg.payload with
      | .invite username identity recipientId =>
          applyInvite env sendRefs userIdentity c signed author username identity recipientId
      | .join _ _ chatIdentity _ => applyJoin env c signed author chatIdentity
      | .groupState key value => pure (applyGroupState c signed author key value)
      | .application content =>
          -- our own media is not copied
          if signed.msg.author = c.host then pure (.new (c.addToRecent signed.msg) [signed] [] ∅)
          else pure (.new (c.addToRecent signed.msg) [signed] content.fileRefs ∅)
      | .replyTo _ content => pure (.new (c.addToRecent signed.msg) [signed] content.fileRefs ∅)
      | .removeMember chatUid memberToRemove =>
          applyRemoveMember c signed author chatUid memberToRemove
      | .edit _ _ => pure (.new (c.addToRecent signed.msg) [signed] [] ∅)
      | .delete _ => pure (.new (c.addToRecent signed.msg) [signed] [] ∅)

/-- `Chat::apply_message`, nested at most `fuel` deep. -/
def applyMessageFuel (userIdentity : SigningPrivateKeyAndPublicHash) :
    ℕ → Chat → SignedMessage → Result ChatUpdate
  | 0 => fun _ _ => .error .fuel
  | fuel + 1 =>
      applyMessageWith env (sendMessageRefsWith env (applyMessageFuel userIdentity fuel))
        userIdentity

/-- `Chat::apply_message`.  A `Join` nests nothing, so two levels are all there are. -/
def applyMessage (userIdentity : SigningPrivateKeyAndPublicHash) :
    Chat → SignedMessage → Result ChatUpdate :=
  applyMessageFuel env userIdentity 2

/-- `Chat::merge_message`. -/
def mergeMessage (userIdentity : SigningPrivateKeyAndPublicHash) (c : Chat)
    (signed : SignedMessage) (host : Member) : Result ChatUpdate :=
  mergeMessageWith env (applyMessage env userIdentity) c signed host

/-- `Chat::send_message_refs`. -/
def sendMessageRefs (userIdentity : SigningPrivateKeyAndPublicHash) (c : Chat) (body : Message)
    (signer : SigningPrivateKeyAndPublicHash) (recentRefs : List MessageRef) : Result ChatUpdate :=
  sendMessageRefsWith env (applyMessage env userIdentity) c body signer recentRefs

/-- `Chat::send_message`. -/
def sendMessage (c : Chat) (body : Message) (signer userIdentity : SigningPrivateKeyAndPublicHash)
    (store : MessageStore) : Result ChatUpdate := do
  let host ← c.hostMember
  let upto := host.messagesMergedUpto
  let recent := if upto > 0 then store.getMessages (upto - 1) upto else []
  let recentRefs := recent.map fun s => (⟨env.bareHash s.msg⟩ : MessageRef)
  sendMessageRefs env userIdentity c body signer recentRefs

/-- One round of the loop of `Chat::merge`. -/
def mergeStep (mirrorHostId : MemberId) (userIdentity : SigningPrivateKeyAndPublicHash)
    (update : ChatUpdate) (msg : SignedMessage) : Result ChatUpdate :=
  match update.state.getMemberById mirrorHostId with
  | none => protocolErr "mirror host not a member"
  | some hostNow => do
      let step ← mergeMessage env userIdentity update.state msg hostNow
      pure (update.apply step)

/-- `Chat::merge`. -/
def merge (c : Chat) (mirrorHostId : MemberId) (userIdentity : SigningPrivateKeyAndPublicHash)
    (mirrorStore : MessageStore) : Result ChatUpdate :=
  match c.getMemberById mirrorHostId with
  | none => protocolErr "mirror host not a member"
  | some host =>
      (mirrorStore.getMessagesFrom host.messagesMergedUpto).foldlM
        (mergeStep env mirrorHostId userIdentity) (.empty c)

/-! ### Membership -/

/-- `Chat::join`. -/
def join (c : Chat) (host : Member) (chatId : OwnerProof) (chatIdPublic : PublicSigningKey)
    (identity : SigningPrivateKeyAndPublicHash) (ourStore : MessageStore) : Result ChatUpdate :=
  (c.withTime (c.current.withMember host.id)).sendMessage env
    (.join host.username host.identity chatId chatIdPublic) identity identity ourStore

/-- One round of the loop of `Chat::invite_members`. -/
def inviteStep (ourChatIdentity userIdentity : SigningPrivateKeyAndPublicHash)
    (ourStore : MessageStore) (update : ChatUpdate) (invited : String × PublicKeyHash) :
    Result ChatUpdate := do
  let us ← update.state.hostMember
  let newMember := update.state.host.fork us.membersInvited
  let newTime := update.state.current.withMember newMember
  let sent ← (update.state.withTime newTime).sendMessage env
    (.invite invited.1 invited.2 newMember) ourChatIdentity userIdentity ourStore
  pure (update.apply sent)

/-- `Chat::invite_members`. -/
def inviteMembers (c : Chat) (invited : List (String × PublicKeyHash))
    (ourChatIdentity userIdentity : SigningPrivateKeyAndPublicHash) (ourStore : MessageStore) :
    Result ChatUpdate :=
  invited.foldlM (inviteStep env ourChatIdentity userIdentity ourStore) (.empty c)

end

/-- `Chat::copy`. -/
def copy (c : Chat) (host : Member) : Result Chat :=
  if !c.members.contains host.id then
    protocolErr "Only an invited member can mirror a conversation!"
  else .ok ⟨c.chatUid, host.id, c.current, c.members.insert host.id host, c.groupState,
    c.recentMessages⟩

/-! ### Construction -/

/-- `Chat::create_new`. -/
def createNew (uid username : String) (identity : PublicKeyHash) : Chat :=
  let us := Member.simple username .creator identity 0 0
  ⟨uid, .creator, .init [us.id], (∅ : SortedMap MemberId Member).insert .creator us, ∅, []⟩

end Chat

end Peergos
