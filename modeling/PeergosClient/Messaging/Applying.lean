import PeergosClient.Messaging.Chat

/-!
# What applying a message does

`Applies` lists the outcomes of `apply_message`, one constructor for each, with the guards under
which the source takes them; `applyMessageWith_cases` says that there are no others, and
`mergeMessageWith_cases` the same of `merge_message`.  Facts about the chat are derived from these.
-/

namespace Peergos

namespace Chat

variable {env : ChatEnv}
  {sendRefs : Chat → Message → SigningPrivateKeyAndPublicHash → List MessageRef → Result ChatUpdate}
  {userIdentity : SigningPrivateKeyAndPublicHash} {c c' : Chat} {signed : SignedMessage}
  {u : ChatUpdate}

/-- The chat once the invitation of `record` is applied. -/
def withInvited (c : Chat) (msg : MessageEnvelope) (author record : Member) : Chat :=
  (c.withMembers ((c.members.insert author.id author.incrementInvited).insert record.id
    record)).addToRecent msg

/-- The chat in which a host that was invited again sends its `Join`. -/
def rejoining (c : Chat) (id : MemberId) : Chat :=
  (c.withTime (c.current.withMember id)).withHost id

/-- The removed host is the one invited. -/
def Reinvites (host : Member) (username : String) : Prop :=
  host.username = username ∧ host.removed = true

instance (host : Member) (username : String) : Decidable (Reinvites host username) :=
  inferInstanceAs (Decidable (_ ∧ _))

/-- The author may remove the member. -/
def MayRemove (c : Chat) (author : Member) (msg : MessageEnvelope) (id : MemberId) : Prop :=
  id = msg.author ∨ author.username ∈ c.getAdmins

instance (c : Chat) (author : Member) (msg : MessageEnvelope) (id : MemberId) :
    Decidable (c.MayRemove author msg id) :=
  inferInstanceAs (Decidable (_ ∨ _))

/-- The outcomes of `apply_message` for a message of the member `author`. -/
inductive Applies (env : ChatEnv)
    (sendRefs : Chat → Message → SigningPrivateKeyAndPublicHash → List MessageRef →
      Result ChatUpdate)
    (userIdentity : SigningPrivateKeyAndPublicHash) (c : Chat) (signed : SignedMessage)
    (author : Member) : ChatUpdate → Prop
  /-- Somebody is invited. -/
  | invited {username : String} {identity : PublicKeyHash} {newMember : MemberId}
      {inviter host : Member} (payload : signed.msg.payload = .invite username identity newMember)
      (new : c.members.get newMember = none) (parent : newMember.parent = .ok author.id)
      (inviterIs : c.members.get author.id = some inviter) (hostIs : c.hostMember = .ok host)
      (other : ¬ Reinvites host username) :
      Applies env sendRefs userIdentity c signed author
        (.new (c.withInvited signed.msg author
          (.simple username newMember identity inviter.messagesMergedUpto 0)) [signed] [] ∅)
  /-- The removed host is invited again, and joins under its new id. -/
  | reinvited {username : String} {identity : PublicKeyHash} {newMember : MemberId}
      {inviter host : Member} {invite sent : ChatUpdate}
      (payload : signed.msg.payload = .invite username identity newMember)
      (new : c.members.get newMember = none) (parent : newMember.parent = .ok author.id)
      (inviterIs : c.members.get author.id = some inviter) (hostIs : c.hostMember = .ok host)
      (again : Reinvites host username)
      (inviteIs : invite = .new (c.withInvited signed.msg author
        (.simple username newMember identity inviter.messagesMergedUpto 0)) [signed] [] ∅)
      (sends : sendRefs (invite.state.rejoining newMember)
        (.join host.username host.identity (.build userIdentity
            (env.generateChatIdentity newMember).chatIdentity.publicKeyHash)
          (env.generateChatIdentity newMember).chatIdPublic)
        userIdentity [⟨env.bareHash signed.msg⟩] = .ok sent) :
      Applies env sendRefs userIdentity c signed author (invite.apply sent)
  /-- The author announces its chat identity. -/
  | joined {username : String} {identity key : PublicKeyHash} {proof : OwnerProof}
      {chatIdPublic : PublicSigningKey}
      (payload : signed.msg.payload = .join username identity proof chatIdPublic)
      (first : author.chatIdentity = none) (owned : proof.ownedKey = author.identity)
      (verified : proof.getAndVerifyOwner env = .ok key) :
      Applies env sendRefs userIdentity c signed author
        (.new ((c.withMembers (c.members.insert author.id (author.withChatId proof))).addToRecent
          signed.msg) [signed] [] ∅)
  /-- A group property is set, if the message wins against what is there. -/
  | property {key value : String} (payload : signed.msg.payload = .groupState key value) :
      Applies env sendRefs userIdentity c signed author (c.applyGroupState signed author key value)
  /-- A member is removed. -/
  | removed {id : MemberId} {m host : Member}
      (payload : signed.msg.payload = .removeMember c.chatUid id)
      (may : c.MayRemove author signed.msg id) (memberIs : c.members.get id = some m)
      (hostIs : c.hostMember = .ok host) :
      Applies env sendRefs userIdentity c signed author
        (.new ((c.addToRecent signed.msg).withMembers (c.members.insert id (m.setRemoved true)))
          [signed] [] (if m.username = host.username then ∅ else {m.username}))
  /-- A removal for another chat is dropped. -/
  | foreign {chatUid : String} {id : MemberId}
      (payload : signed.msg.payload = .removeMember chatUid id) (other : chatUid ≠ c.chatUid) :
      Applies env sendRefs userIdentity c signed author (.new c [] [] ∅)
  /-- The message is noted and changes nothing else. -/
  | noted {media : List FileRef}
      (notInvite : ∀ username identity id, signed.msg.payload ≠ .invite username identity id)
      (notProperty : ∀ key value, signed.msg.payload ≠ .groupState key value)
      (announced : ∀ username identity proof key,
        signed.msg.payload = .join username identity proof key → author.chatIdentity ≠ none)
      (refused : ∀ chatUid id, signed.msg.payload = .removeMember chatUid id →
        chatUid = c.chatUid ∧ ¬ c.MayRemove author signed.msg id) :
      Applies env sendRefs userIdentity c signed author
        (.new (c.addToRecent signed.msg) [signed] media ∅)

theorem applyInvite_cases {author : Member} {username : String} {identity : PublicKeyHash}
    {newMember : MemberId} (hp : signed.msg.payload = .invite username identity newMember)
    (h : applyInvite env sendRefs userIdentity c signed author username identity newMember =
      .ok u) : Applies env sendRefs userIdentity c signed author u := by
  unfold applyInvite at h
  split at h
  · cases h
  · rename_i hnew
    rw [Bool.not_eq_true, SortedMap.contains_eq_false] at hnew
    obtain ⟨parent, hparent, h⟩ := bind_eq_ok.1 h
    by_cases hauthor : parent = author.id
    · subst hauthor
      rw [if_neg (by simp)] at h
      cases hinv : c.getMemberById author.id with
      | none => rw [hinv] at h; cases h
      | some inviter =>
          rw [hinv] at h
          obtain ⟨upto, hupto, h⟩ := bind_eq_ok.1 h
          cases hupto
          obtain ⟨host, hhost, h⟩ := bind_eq_ok.1 h
          dsimp only at h
          by_cases hre : host.username = username ∧ host.removed = true
          · rw [if_pos hre] at h
            obtain ⟨sent, hsent, h⟩ := bind_eq_ok.1 h
            cases h
            exact .reinvited hp hnew hparent hinv hhost hre rfl hsent
          · rw [if_neg hre] at h
            cases h
            exact .invited hp hnew hparent hinv hhost hre
    · rw [if_pos hauthor] at h
      cases h

theorem applyJoin_cases {author : Member} {username : String} {identity : PublicKeyHash}
    {proof : OwnerProof} {chatIdPublic : PublicSigningKey}
    (hp : signed.msg.payload = .join username identity proof chatIdPublic)
    (h : applyJoin env c signed author proof = .ok u) :
    Applies env sendRefs userIdentity c signed author u := by
  unfold applyJoin at h
  split at h
  · rename_i hfirst
    rw [Option.isNone_iff_eq_none] at hfirst
    by_cases howned : proof.ownedKey = author.identity
    · rw [if_neg (by simp [howned])] at h
      obtain ⟨key, hkey, h⟩ := bind_eq_ok.1 h
      cases h
      exact .joined hp hfirst howned hkey
    · rw [if_pos howned] at h
      cases h
  · rename_i hknown
    cases h
    refine .noted ?_ ?_ ?_ ?_ <;> intros <;> simp_all

theorem applyRemoveMember_cases {author : Member} {chatUid : String} {id : MemberId}
    (hp : signed.msg.payload = .removeMember chatUid id)
    (h : applyRemoveMember c signed author chatUid id = .ok u) :
    Applies env sendRefs userIdentity c signed author u := by
  unfold applyRemoveMember at h
  split at h
  · rename_i huid
    cases h
    exact .foreign hp huid
  · rename_i huid
    rw [not_not] at huid
    subst huid
    split at h
    · rename_i hmay
      cases hm : c.members.get id with
      | none => rw [hm] at h; cases h
      | some m =>
          rw [hm] at h
          obtain ⟨host, hhost, h⟩ := bind_eq_ok.1 h
          cases h
          exact .removed hp hmay hm hhost
    · rename_i hmay
      cases h
      refine .noted ?_ ?_ ?_ ?_
      · intros; simp [hp]
      · intros; simp [hp]
      · intros; simp_all
      · rintro chatUid' id' hp'
        rw [hp] at hp'
        cases hp'
        exact ⟨rfl, hmay⟩

/-- `apply_message` has no other outcomes. -/
theorem applyMessageWith_cases
    (h : applyMessageWith env sendRefs userIdentity c signed = .ok u) :
    ∃ author, c.members.get signed.msg.author = some author ∧
      Applies env sendRefs userIdentity c signed author u := by
  unfold applyMessageWith at h
  cases hauthor : c.members.get signed.msg.author with
  | none => rw [hauthor] at h; cases h
  | some author =>
      rw [hauthor] at h
      refine ⟨author, rfl, ?_⟩
      cases hp : signed.msg.payload with
      | invite username identity id => rw [hp] at h; exact applyInvite_cases hp h
      | join username identity proof key => rw [hp] at h; exact applyJoin_cases hp h
      | removeMember chatUid id => rw [hp] at h; exact applyRemoveMember_cases hp h
      | groupState key value =>
          rw [hp] at h
          cases h
          exact .property hp
      | application content =>
          rw [hp] at h
          dsimp only at h
          split at h <;> cases h <;> exact .noted (by simp [hp]) (by simp [hp]) (by simp [hp])
            (by simp [hp])
      | replyTo parent content =>
          rw [hp] at h
          cases h
          exact .noted (by simp [hp]) (by simp [hp]) (by simp [hp]) (by simp [hp])
      | edit prior content =>
          rw [hp] at h
          cases h
          exact .noted (by simp [hp]) (by simp [hp]) (by simp [hp]) (by simp [hp])
      | delete target =>
          rw [hp] at h
          cases h
          exact .noted (by simp [hp]) (by simp [hp]) (by simp [hp]) (by simp [hp])

/-! ## Merging one message -/

/-- The message is new to the chat and its author is not removed. -/
def Accepts (c : Chat) (signed : SignedMessage) (author : Member) : Prop :=
  signed.msg.timestamp.isBeforeOrEqual c.current = false ∧ author.removed = false

instance (c : Chat) (signed : SignedMessage) (author : Member) :
    Decidable (c.Accepts signed author) :=
  inferInstanceAs (Decidable (_ ∧ _))

variable {apply : Chat → SignedMessage → Result ChatUpdate} {host : Member}

/-- `merge_message` applies a message it accepts and counts any other as read. -/
theorem mergeMessageWith_cases (h : mergeMessageWith env apply c signed host = .ok u) :
    ∃ author, c.members.get signed.msg.author = some author ∧
      ((c.Accepts signed author ∧ checkSignature env author signed = .ok () ∧
          ∃ applied state, apply c signed = .ok applied ∧
            applied.state.mergeMessageTimestamp signed.msg.timestamp host = .ok state ∧
            u = applied.withState state) ∨
        (¬ c.Accepts signed author ∧ u = .empty (c.incrementHost host))) := by
  unfold mergeMessageWith at h
  cases hauthor : c.members.get signed.msg.author with
  | none => rw [hauthor] at h; cases h
  | some author =>
      rw [hauthor] at h
      refine ⟨author, rfl, ?_⟩
      dsimp only at h
      split at h
      · rename_i hacc
        rw [Bool.and_eq_true, Bool.not_eq_true', Bool.not_eq_true'] at hacc
        obtain ⟨⟨⟩, hcheck, h⟩ := bind_eq_ok.1 h
        obtain ⟨applied, happly, h⟩ := bind_eq_ok.1 h
        obtain ⟨state, hstate, h⟩ := bind_eq_ok.1 h
        cases h
        exact Or.inl ⟨hacc, hcheck, applied, state, happly, hstate, rfl⟩
      · rename_i hacc
        rw [Bool.and_eq_true, Bool.not_eq_true', Bool.not_eq_true'] at hacc
        cases h
        exact Or.inr ⟨hacc, rfl⟩

theorem hostMember_eq_ok : c.hostMember = .ok host ↔ c.members.get c.host = some host := by
  unfold hostMember
  cases c.members.get c.host with
  | none => simp
  | some m => simp

theorem mergeMessageTimestamp_eq_ok {timestamp : TreeClock} :
    c.mergeMessageTimestamp timestamp host = .ok c' ↔
      ∃ src us, c.members.get host.id = some src ∧ c.members.get c.host = some us ∧
        c' = (c.withMembers ((c.members.insert host.id src.incrementMessages).insert c.host
          us.incrementMessages)).withTime (c.current.merge timestamp) := by
  unfold mergeMessageTimestamp
  cases c.members.get host.id with
  | none => simp
  | some src =>
      cases c.members.get c.host with
      | none => simp
      | some us => simp [eq_comm]

/-- The message `send_message_refs` makes. -/
def outgoing (env : ChatEnv) (c : Chat) (body : Message) (signer : SigningPrivateKeyAndPublicHash)
    (recentRefs : List MessageRef) : SignedMessage :=
  let msg : MessageEnvelope := ⟨c.host, c.current.increment c.host,
    env.nowMillis (c.current.increment c.host), recentRefs, body⟩
  ⟨signer.sign msg, msg⟩

/-- Sending is merging one's own message. -/
theorem sendMessageRefsWith_eq_ok {body : Message} {signer : SigningPrivateKeyAndPublicHash}
    {recentRefs : List MessageRef} :
    sendMessageRefsWith env apply c body signer recentRefs = .ok u ↔
      ∃ us, c.members.get c.host = some us ∧
        mergeMessageWith env apply c (c.outgoing env body signer recentRefs) us = .ok u := by
  unfold sendMessageRefsWith
  rw [bind_eq_ok]
  constructor
  · rintro ⟨us, hus, h⟩
    exact ⟨us, hostMember_eq_ok.1 hus, h⟩
  · rintro ⟨us, hus, h⟩
    exact ⟨us, hostMember_eq_ok.2 hus, h⟩

end Chat

/-! ## How members change -/

/-- What can become of a member's record: names and keys stay, counts go up, a removal is final. -/
structure Member.Evolves (m m' : Member) : Prop where
  id : m'.id = m.id
  username : m'.username = m.username
  identity : m'.identity = m.identity
  chatIdentity : ∀ p, m.chatIdentity = some p → m'.chatIdentity = some p
  merged : m.messagesMergedUpto ≤ m'.messagesMergedUpto
  invited : m.membersInvited ≤ m'.membersInvited
  removed : m.removed = true → m'.removed = true

namespace Member.Evolves

variable {m m' m'' : Member}

theorem refl (m : Member) : m.Evolves m :=
  ⟨rfl, rfl, rfl, fun _ h => h, le_rfl, le_rfl, fun h => h⟩

theorem trans (h : m.Evolves m') (h' : m'.Evolves m'') : m.Evolves m'' where
  id := h'.id.trans h.id
  username := h'.username.trans h.username
  identity := h'.identity.trans h.identity
  chatIdentity := fun p hp => h'.chatIdentity p (h.chatIdentity p hp)
  merged := h.merged.trans h'.merged
  invited := h.invited.trans h'.invited
  removed := fun hr => h'.removed (h.removed hr)

theorem incrementMessages (m : Member) : m.Evolves m.incrementMessages :=
  ⟨rfl, rfl, rfl, fun _ h => h, by simp [Member.incrementMessages], le_rfl, fun h => h⟩

theorem incrementInvited (m : Member) : m.Evolves m.incrementInvited :=
  ⟨rfl, rfl, rfl, fun _ h => h, le_rfl, by simp [Member.incrementInvited], fun h => h⟩

theorem setRemoved (m : Member) : m.Evolves (m.setRemoved true) :=
  ⟨rfl, rfl, rfl, fun _ h => h, le_rfl, le_rfl, fun _ => rfl⟩

theorem withChatId (h : m.chatIdentity = none) (proof : OwnerProof) :
    m.Evolves (m.withChatId proof) :=
  ⟨rfl, rfl, rfl, fun p hp => absurd (h.symm.trans hp) (by simp), le_rfl, le_rfl, fun h => h⟩

instance : Std.Refl Member.Evolves := ⟨refl⟩

instance : IsTrans Member Member.Evolves := ⟨fun _ _ _ => trans⟩

end Member.Evolves

/-- Every member is filed under its own id. -/
def KeyedById (s : SortedMap MemberId Member) : Prop :=
  ∀ id m, s.get id = some m → m.id = id

/-- Members stay, with records that evolve. -/
abbrev MembersEvolve : SortedMap MemberId Member → SortedMap MemberId Member → Prop :=
  SortedMap.Relates Member.Evolves

theorem KeyedById.insert {s : SortedMap MemberId Member} (h : KeyedById s) {id : MemberId}
    {m : Member} (hm : m.id = id) : KeyedById (s.insert id m) := by
  intro id' m' hm'
  rw [SortedMap.get_insert] at hm'
  split at hm'
  · rename_i hid
    cases hm'
    rw [hm, hid]
  · exact h id' m' hm'

/-- Replacing the record of a member by one it can evolve into. -/
theorem KeyedById.replace {s : SortedMap MemberId Member} (h : KeyedById s) {id : MemberId}
    {m m' : Member} (hm : s.get id = some m) (he : m.Evolves m') : KeyedById (s.insert id m') :=
  h.insert (he.id.trans (h id m hm))

namespace Chat

/-- The chat stays well formed, is the same conversation, and its members evolve. -/
structure Grows (c c' : Chat) : Prop where
  keyed : KeyedById c'.members
  evolve : MembersEvolve c.members c'.members
  chatUid : c'.chatUid = c.chatUid

theorem Grows.trans {c c' c'' : Chat} (h : c.Grows c') (h' : c'.Grows c'') : c.Grows c'' :=
  ⟨h'.keyed, h.evolve.trans h'.evolve, h'.chatUid.trans h.chatUid⟩

section

variable {env : ChatEnv}
  {sendRefs : Chat → Message → SigningPrivateKeyAndPublicHash → List MessageRef → Result ChatUpdate}
  {apply : Chat → SignedMessage → Result ChatUpdate}
  {userIdentity : SigningPrivateKeyAndPublicHash} {c c' : Chat} {signed : SignedMessage}
  {u : ChatUpdate} {author host : Member}

theorem incrementHost_grows (hk : KeyedById c.members) (hhost : c.members.get host.id = some host) :
    c.Grows (c.incrementHost host) :=
  ⟨hk.insert rfl, .insert hhost (.incrementMessages host), rfl⟩

/-- The records after `merge_message_timestamp`: the host's is written last. -/
theorem get_mergeMessageTimestamp {timestamp : TreeClock} {src us : Member}
    (hsrc : c.members.get host.id = some src) (hus : c.members.get c.host = some us)
    (h : c.mergeMessageTimestamp timestamp host = .ok c') (id : MemberId) :
    c'.members.get id = if id = c.host then some us.incrementMessages
      else if id = host.id then some src.incrementMessages else c.members.get id := by
  obtain ⟨src', us', hsrc', hus', rfl⟩ := mergeMessageTimestamp_eq_ok.1 h
  rw [hsrc] at hsrc'
  rw [hus] at hus'
  cases hsrc'
  cases hus'
  show ((c.members.insert host.id src.incrementMessages).insert c.host
    us.incrementMessages).get id = _
  rw [SortedMap.get_insert, SortedMap.get_insert]

theorem mergeMessageTimestamp_grows {timestamp : TreeClock} (hk : KeyedById c.members)
    (h : c.mergeMessageTimestamp timestamp host = .ok c') : c.Grows c' := by
  obtain ⟨src, us, hsrc, hus, hc'⟩ := mergeMessageTimestamp_eq_ok.1 h
  have hget := get_mergeMessageTimestamp hsrc hus h
  refine ⟨?_, ?_, by rw [hc']; rfl⟩
  · intro id m hm
    rw [hget] at hm
    split at hm
    · rename_i hid
      cases hm
      rw [hid]
      exact hk c.host us hus
    · split at hm
      · rename_i hid
        cases hm
        rw [hid]
        exact hk host.id src hsrc
      · exact hk id m hm
  · intro id m hm
    rw [hget]
    split
    · rename_i hid
      rw [hid, hus] at hm
      cases hm
      exact ⟨_, rfl, .incrementMessages us⟩
    · split
      · rename_i hid
        rw [hid, hsrc] at hm
        cases hm
        exact ⟨_, rfl, .incrementMessages src⟩
      · exact ⟨m, hm, .refl m⟩

theorem withInvited_grows {record : Member} (msg : MessageEnvelope)
    (hk : KeyedById c.members) (hinv : c.members.get author.id = some author)
    (hnew : c.members.get record.id = none) : c.Grows (c.withInvited msg author record) := by
  refine ⟨(hk.replace hinv (.incrementInvited author)).insert (m := record) rfl, ?_, rfl⟩
  refine (SortedMap.Relates.insert hinv (.incrementInvited author)).trans (.insert_new record ?_)
  rw [SortedMap.get_insert_of_ne _ ?_, hnew]
  intro heq
  rw [heq, hinv] at hnew
  cases hnew

theorem mergeMessageWith_grows
    (happly : ∀ c s u, KeyedById c.members → apply c s = .ok u → c.Grows u.state)
    (hk : KeyedById c.members) (hhost : c.members.get host.id = some host)
    (h : mergeMessageWith env apply c signed host = .ok u) : c.Grows u.state := by
  obtain ⟨author, -, ⟨-, -, v, state, hv, hstate, rfl⟩ | ⟨-, rfl⟩⟩ := mergeMessageWith_cases h
  · have hgrow := happly c signed v hk hv
    exact hgrow.trans (mergeMessageTimestamp_grows hgrow.keyed hstate)
  · exact incrementHost_grows hk hhost

theorem sendMessageRefsWith_grows
    (happly : ∀ c s u, KeyedById c.members → apply c s = .ok u → c.Grows u.state)
    (hk : KeyedById c.members) {body : Message} {signer : SigningPrivateKeyAndPublicHash}
    {recentRefs : List MessageRef}
    (h : sendMessageRefsWith env apply c body signer recentRefs = .ok u) : c.Grows u.state := by
  obtain ⟨us, hus, h⟩ := sendMessageRefsWith_eq_ok.1 h
  exact mergeMessageWith_grows happly hk (hk _ _ hus ▸ hus) h

theorem Applies.grows
    (hsend : ∀ c body signer refs u, KeyedById c.members →
      sendRefs c body signer refs = .ok u → c.Grows u.state)
    (hk : KeyedById c.members) (hauthor : c.members.get author.id = some author)
    (h : Applies env sendRefs userIdentity c signed author u) : c.Grows u.state := by
  have hself : c.Grows (c.addToRecent signed.msg) := ⟨hk, .refl _, rfl⟩
  cases h with
  | invited payload new parent inviterIs hostIs other =>
      exact withInvited_grows signed.msg hk hauthor (by exact new)
  | @reinvited username identity newMember inviter host invite sent payload new parent inviterIs
      hostIs again inviteIs sends =>
      have hinvite : c.Grows invite.state := by
        rw [inviteIs]
        exact withInvited_grows signed.msg hk hauthor (by exact new)
      have hsent := hsend (invite.state.rejoining newMember) _ _ _ _ hinvite.keyed sends
      exact hinvite.trans ⟨hsent.keyed, hsent.evolve, hsent.chatUid⟩
  | joined payload first owned verified =>
      exact ⟨hk.insert rfl, .insert hauthor (.withChatId first _), rfl⟩
  | property payload =>
      unfold applyGroupState
      split
      · exact ⟨hk, .refl _, rfl⟩
      · exact hself
  | removed payload may memberIs hostIs =>
      exact ⟨hk.replace memberIs (.setRemoved _), .insert memberIs (.setRemoved _), rfl⟩
  | foreign payload other => exact ⟨hk, .refl _, rfl⟩
  | noted => exact hself

theorem applyMessageFuel_grows (fuel : ℕ) (c : Chat) (signed : SignedMessage) (u : ChatUpdate)
    (hk : KeyedById c.members) (h : applyMessageFuel env userIdentity fuel c signed = .ok u) :
    c.Grows u.state := by
  induction fuel generalizing c signed u with
  | zero => cases h
  | succ fuel ih =>
      obtain ⟨author, hauthor, h⟩ := applyMessageWith_cases h
      refine h.grows ?_ hk (hk _ _ hauthor ▸ hauthor)
      intro c body signer refs u hk h
      exact sendMessageRefsWith_grows ih hk h

/-! ## Messages that do not invite the removed host again -/

/-- The message does not invite the host while it is removed. -/
def KeepsHost (c : Chat) (signed : SignedMessage) : Prop :=
  ∀ username identity id host, signed.msg.payload = .invite username identity id →
    c.members.get c.host = some host → ¬ Reinvites host username

/-- The message is a removal for another chat. -/
def Foreign (c : Chat) (signed : SignedMessage) : Prop :=
  ∃ chatUid id, signed.msg.payload = .removeMember chatUid id ∧ chatUid ≠ c.chatUid

/-- Who a message invites. -/
def invitee : Message → Option String
  | .invite username _ _ => some username
  | _ => none

/-- The chat a message removes a member from. -/
def removalChat : Message → Option String
  | .removeMember chatUid _ => some chatUid
  | _ => none

theorem keepsHost_iff : (∀ username ∈ invitee signed.msg.payload, ∀ host ∈ c.members.get c.host,
    ¬ Reinvites host username) ↔ c.KeepsHost signed := by
  unfold KeepsHost invitee
  cases signed.msg.payload with
  | invite username identity id =>
      constructor
      · rintro h _ _ _ host ⟨⟩ hhost
        exact h username rfl host hhost
      · rintro h _ ⟨⟩ host hhost
        exact h username identity id host rfl hhost
  | _ => simp

theorem foreign_iff :
    (∃ chatUid ∈ removalChat signed.msg.payload, chatUid ≠ c.chatUid) ↔ c.Foreign signed := by
  unfold Foreign removalChat
  cases signed.msg.payload <;> simp

instance : Decidable (c.KeepsHost signed) := decidable_of_iff _ keepsHost_iff

instance : Decidable (c.Foreign signed) := decidable_of_iff _ foreign_iff

/-- Such a message leaves the host and the clock to `merge_message`, and is the only one to be
appended to the log. -/
theorem Applies.plain (h : Applies env sendRefs userIdentity c signed author u)
    (hkeeps : c.KeepsHost signed) :
    u.state.host = c.host ∧ u.state.current = c.current ∧
      (u.newMessages = [signed] ∨ u.newMessages = [] ∧ c.Foreign signed) := by
  cases h with
  | reinvited payload new parent inviterIs hostIs again =>
      exact absurd again (hkeeps _ _ _ _ payload (hostMember_eq_ok.1 hostIs))
  | property =>
      unfold applyGroupState
      split <;> exact ⟨rfl, rfl, Or.inl rfl⟩
  | foreign payload other => exact ⟨rfl, rfl, Or.inr ⟨rfl, _, _, payload, other⟩⟩
  | invited | joined | removed | noted => exact ⟨rfl, rfl, Or.inl rfl⟩

theorem applyMessageFuel_plain {fuel : ℕ}
    (h : applyMessageFuel env userIdentity fuel c signed = .ok u) (hkeeps : c.KeepsHost signed) :
    u.state.host = c.host ∧ u.state.current = c.current ∧
      (u.newMessages = [signed] ∨ u.newMessages = [] ∧ c.Foreign signed) := by
  cases fuel with
  | zero => cases h
  | succ fuel =>
      obtain ⟨author, -, h⟩ := applyMessageWith_cases h
      exact h.plain hkeeps

theorem keepsHost_outgoing_join {username : String} {identity : PublicKeyHash} {proof : OwnerProof}
    {key : PublicSigningKey} {signer : SigningPrivateKeyAndPublicHash}
    {recentRefs : List MessageRef} :
    c.KeepsHost (c.outgoing env (.join username identity proof key) signer recentRefs) :=
  fun _ _ _ _ hp => nomatch hp

theorem sendMessage_eq_ok {body : Message} {signer : SigningPrivateKeyAndPublicHash}
    {store : MessageStore} (h : c.sendMessage env body signer userIdentity store = .ok u) :
    ∃ us recentRefs, c.members.get c.host = some us ∧
      mergeMessage env userIdentity c (c.outgoing env body signer recentRefs) us = .ok u := by
  obtain ⟨host, -, h⟩ := bind_eq_ok.1 h
  obtain ⟨us, hus, h⟩ := sendMessageRefsWith_eq_ok.1 h
  exact ⟨us, _, hus, h⟩

/-- A round of a merge is the merge of one message, on behalf of the mirror. -/
theorem mergeStep_eq_ok {mirror : MemberId} {update update' : ChatUpdate} :
    mergeStep env mirror userIdentity update signed = .ok update' ↔
      ∃ host step, update.state.members.get mirror = some host ∧
        mergeMessage env userIdentity update.state signed host = .ok step ∧
        update' = update.apply step := by
  unfold mergeStep getMemberById
  cases update.state.members.get mirror with
  | none => simp [protocolErr]
  | some host =>
      dsimp only
      rw [bind_eq_ok]
      constructor
      · rintro ⟨step, hstep, h⟩
        cases h
        exact ⟨host, step, rfl, hstep, rfl⟩
      · rintro ⟨host', step, hhost, hstep, rfl⟩
        cases hhost
        exact ⟨step, hstep, rfl⟩

theorem merge_eq_ok {mirror : MemberId} {store : MessageStore} :
    c.merge env mirror userIdentity store = .ok u ↔
      ∃ host, c.members.get mirror = some host ∧
        (store.getMessagesFrom host.messagesMergedUpto).foldlM (mergeStep env mirror userIdentity)
          (.empty c) = .ok u := by
  unfold merge getMemberById
  cases c.members.get mirror with
  | none => simp [protocolErr]
  | some host => simp

theorem mergeMessage_grows (hk : KeyedById c.members) (hhost : c.members.get host.id = some host)
    (h : mergeMessage env userIdentity c signed host = .ok u) : c.Grows u.state :=
  mergeMessageWith_grows (applyMessageFuel_grows 2) hk hhost h

end

end Chat

end Peergos
