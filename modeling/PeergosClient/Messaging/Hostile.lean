import PeergosClient.Messaging.Log

/-!
# Messages from anybody

A message comes from the log of a mirror and can say anything.  `Hosted` is what every copy of a
chat keeps: its host is a member, the members are filed under their ids, and nobody has the empty
id.  In a hosted chat the expectations of the code are met, with one exception: the parent of an
invited id is taken before anything is known about that id, and the empty id has no parent.

`Outcome.Ensures x post Fault.IsErr` says of a call that it returns a value with `post` or an `Err`.
-/

namespace Peergos

open Outcome

namespace Chat

/-- The host is a member, the members are filed under their ids, and none has the empty id. -/
structure Hosted (c : Chat) : Prop where
  keyed : KeyedById c.members
  host : ∃ us, c.members.get c.host = some us
  root : c.members.get [] = none

/-- What a call that applies or merges a message returns. -/
def Keeps (c : Chat) (u : ChatUpdate) : Prop := c.Grows u.state ∧ u.state.Hosted

variable {env : ChatEnv}
  {sendRefs : Chat → Message → SigningPrivateKeyAndPublicHash → List MessageRef → Result ChatUpdate}
  {apply : Chat → SignedMessage → Result ChatUpdate}
  {userIdentity : SigningPrivateKeyAndPublicHash} {c c' : Chat} {signed : SignedMessage}
  {u : ChatUpdate} {author host : Member}

theorem Grows.refl (hk : KeyedById c.members) : c.Grows c := ⟨hk, .refl _, rfl⟩

/-! ## Signatures -/

theorem ensures_unsign {α : Type} (s : Signed α) (key : PublicKeyHash) :
    Ensures (s.unsign key) (fun _ => True) Fault.IsErr := by
  unfold Signed.unsign
  split
  · exact True.intro
  · exact ⟨_, rfl⟩

theorem ensures_getAndVerifyOwner (p : OwnerProof) :
    Ensures (p.getAndVerifyOwner env) (fun _ => True) Fault.IsErr := by
  unfold OwnerProof.getAndVerifyOwner
  split
  · exact ensures_unsign _ _
  · exact ⟨_, rfl⟩

theorem ensures_checkSignature :
    Ensures (checkSignature env author signed) (fun _ => True) Fault.IsErr := by
  -- the part after the key is known
  have hrest : ∀ key, Ensures ((do
      if !env.holdsKey key then protocolErr "Couldn't retrieve public signing key!"
      let envelope ← signed.signature.unsign key
      if envelope ≠ signed.msg then .error (.err (.crypto "signature verification failed"))) :
        Result Unit) (fun _ => True) Fault.IsErr := by
    intro key
    dsimp only
    split
    · exact ⟨_, rfl⟩
    · refine (ensures_unsign _ _).bind ?_
      intro envelope _
      split
      · exact ⟨_, rfl⟩
      · exact True.intro
  unfold checkSignature
  cases author.chatIdentity with
  | none => exact hrest author.identity
  | some proof => exact (ensures_getAndVerifyOwner proof).bind fun key _ => hrest key

/-! ## Members -/

theorem Hosted.insert (h : c.Hosted) {id : MemberId} {m m' : Member}
    (hm : c.members.get id = some m) (he : m.Evolves m') :
    (c.withMembers (c.members.insert id m')).Hosted := by
  refine ⟨h.keyed.replace hm he, ?_, ?_⟩
  · obtain ⟨us, hus⟩ := h.host
    obtain ⟨us', hus', -⟩ := SortedMap.Relates.insert (R := Member.Evolves) hm he _ _ hus
    exact ⟨us', hus'⟩
  · show (c.members.insert id m').get [] = none
    rw [SortedMap.get_insert_of_ne _ ?_, h.root]
    rintro rfl
    rw [h.root] at hm
    cases hm

theorem ensures_mergeMessageTimestamp {timestamp : TreeClock} (h : c.Hosted)
    (hsrc : ∃ src, c.members.get host.id = some src) :
    Ensures (c.mergeMessageTimestamp timestamp host) (fun c' => c.Grows c' ∧ c'.Hosted)
      Fault.IsErr := by
  obtain ⟨src, hsrc⟩ := hsrc
  obtain ⟨us, hus⟩ := h.host
  have hok : c.mergeMessageTimestamp timestamp host = .ok _ :=
    mergeMessageTimestamp_eq_ok.2 ⟨src, us, hsrc, hus, rfl⟩
  have hget := get_mergeMessageTimestamp hsrc hus hok
  have hgrow := mergeMessageTimestamp_grows h.keyed hok
  rw [hok]
  refine ⟨hgrow, hgrow.keyed, ⟨us.incrementMessages, ?_⟩, ?_⟩
  · rw [hget]
    exact if_pos rfl
  · rw [hget, if_neg, if_neg, h.root]
    · rintro hid
      rw [← hid, h.root] at hsrc
      cases hsrc
    · rintro hid
      rw [← hid, h.root] at hus
      cases hus

/-! ## Merging a message that can be applied -/

theorem ensures_mergeMessageWith (h : c.Hosted) (hhost : c.members.get host.id = some host)
    (happly : ∀ author, c.members.get signed.msg.author = some author → c.Accepts signed author →
      checkSignature env author signed = .ok () → Ensures (apply c signed) c.Keeps Fault.IsErr) :
    Ensures (mergeMessageWith env apply c signed host) c.Keeps Fault.IsErr := by
  unfold mergeMessageWith
  cases hauthor : c.members.get signed.msg.author with
  | none => exact ensures_protocolErr _ _
  | some author =>
      dsimp only
      split
      · rename_i hacc
        rw [Bool.and_eq_true, Bool.not_eq_true', Bool.not_eq_true'] at hacc
        cases hcheck : checkSignature env author signed with
        | error f =>
            have herr : Ensures (checkSignature env author signed) (fun _ => True) Fault.IsErr :=
              ensures_checkSignature
            rw [hcheck] at herr
            exact herr
        | ok _ =>
            refine (happly author hauthor hacc hcheck).bind ?_
            rintro applied ⟨hgrow, hosted⟩
            obtain ⟨src, hsrc, -⟩ := hgrow.evolve _ _ hhost
            refine (ensures_mergeMessageTimestamp hosted ⟨src, hsrc⟩).bind ?_
            rintro state ⟨hgrow', hosted'⟩
            exact ⟨hgrow.trans hgrow', hosted'⟩
      · exact ⟨incrementHost_grows h.keyed hhost, h.insert hhost (.incrementMessages host)⟩

/-! ## Applying a message -/

/-- The message invites the empty id. -/
def InvitesEmpty (signed : SignedMessage) : Prop :=
  ∃ username identity, signed.msg.payload = .invite username identity []

/-- The call sends a `Join` for any hosted chat. -/
def Joins (sendRefs : Chat → Message → SigningPrivateKeyAndPublicHash → List MessageRef →
    Result ChatUpdate) : Prop :=
  ∀ c username identity proof key signer refs, c.Hosted →
    Ensures (sendRefs c (.join username identity proof key) signer refs) c.Keeps Fault.IsErr

theorem withInvited_hosted {record : Member} (msg : MessageEnvelope) (h : c.Hosted)
    (hauthor : c.members.get author.id = some author) (hnew : c.members.get record.id = none)
    (hne : record.id ≠ []) : (c.withInvited msg author record).Hosted := by
  have hgrow := withInvited_grows msg h.keyed hauthor hnew
  obtain ⟨us, hus⟩ := h.host
  obtain ⟨us', hus', -⟩ := hgrow.evolve _ _ hus
  refine ⟨hgrow.keyed, ⟨us', hus'⟩, ?_⟩
  show ((c.members.insert author.id author.incrementInvited).insert record.id record).get [] = none
  rw [SortedMap.get_insert_of_ne _ hne.symm, SortedMap.get_insert_of_ne _ ?_, h.root]
  intro hid
  rw [← hid, h.root] at hauthor
  cases hauthor

theorem ensures_hostMember (h : c.Hosted) :
    Ensures c.hostMember (fun us => c.members.get c.host = some us) Fault.IsErr := by
  obtain ⟨us, hus⟩ := h.host
  rw [hostMember_eq_ok.2 hus]
  exact hus

theorem ensures_applyInvite {username : String} {identity : PublicKeyHash} {newMember : MemberId}
    (hsend : Joins sendRefs) (h : c.Hosted) (hauthor : c.members.get author.id = some author)
    (hne : newMember ≠ []) :
    Ensures (applyInvite env sendRefs userIdentity c signed author username identity newMember)
      c.Keeps Fault.IsErr := by
  unfold applyInvite
  split
  · exact ensures_protocolErr _ _
  · rename_i hnew
    rw [Bool.not_eq_true, SortedMap.contains_eq_false] at hnew
    rw [MemberId.parent, if_neg hne]
    by_cases hparent : newMember.dropLast = author.id
    · have hmember : c.getMemberById newMember.dropLast = some author := by
        rw [hparent]
        exact hauthor
      simp only [bind, Except.bind, hparent, ne_eq, not_true_eq_false, if_false]
      rw [hparent] at hmember
      rw [hmember]
      refine Ensures.bind (ensures_hostMember h) ?_
      intro us _
      have hgrow : c.Grows (c.withInvited signed.msg author (.simple username newMember identity
          author.messagesMergedUpto 0)) := withInvited_grows _ h.keyed hauthor hnew
      have hosted : (c.withInvited signed.msg author (.simple username newMember identity
          author.messagesMergedUpto 0)).Hosted := withInvited_hosted _ h hauthor hnew hne
      split
      · refine Ensures.bind (hsend _ _ _ _ _ _ _ ?_) ?_
        · exact ⟨hosted.keyed, ⟨_, SortedMap.get_insert_self _ _ _⟩, hosted.root⟩
        · rintro sent ⟨hgrow', hosted'⟩
          exact ⟨hgrow.trans ⟨hgrow'.keyed, hgrow'.evolve, hgrow'.chatUid⟩, hosted'⟩
      · exact ⟨hgrow, hosted⟩
    · simp only [bind, Except.bind, ne_eq, hparent, not_false_eq_true, if_true]
      exact ensures_protocolErr _ _

theorem ensures_applyJoin {proof : OwnerProof} (h : c.Hosted)
    (hauthor : c.members.get author.id = some author) :
    Ensures (applyJoin env c signed author proof) c.Keeps Fault.IsErr := by
  unfold applyJoin
  split
  · rename_i hfirst
    rw [Option.isNone_iff_eq_none] at hfirst
    have hjoined := h.insert hauthor (.withChatId hfirst proof)
    split
    · exact ensures_protocolErr _ _
    · refine Ensures.bind (ensures_getAndVerifyOwner proof) ?_
      intro key _
      exact ⟨⟨hjoined.keyed, .insert hauthor (.withChatId hfirst proof), rfl⟩,
        hjoined.keyed, hjoined.host, hjoined.root⟩
  · exact ⟨⟨h.keyed, .refl _, rfl⟩, h.keyed, h.host, h.root⟩

theorem ensures_applyRemoveMember {chatUid : String} {id : MemberId} (h : c.Hosted) :
    Ensures (applyRemoveMember c signed author chatUid id) c.Keeps Fault.IsErr := by
  unfold applyRemoveMember
  split
  · exact ⟨.refl h.keyed, h⟩
  · split
    · cases hm : c.members.get id with
      | none => exact ensures_protocolErr _ _
      | some m =>
          have hremoved := h.insert hm (.setRemoved m)
          refine Ensures.bind (ensures_hostMember h) ?_
          intro us _
          exact ⟨⟨hremoved.keyed, .insert hm (.setRemoved m), rfl⟩, hremoved.keyed,
            hremoved.host, hremoved.root⟩
    · exact ⟨⟨h.keyed, .refl _, rfl⟩, h.keyed, h.host, h.root⟩

/-- Applying any message but an invitation of the empty id gives a hosted chat or an `Err`. -/
theorem ensures_applyMessageWith (hsend : Joins sendRefs) (h : c.Hosted)
    (hne : ¬ InvitesEmpty signed) :
    Ensures (applyMessageWith env sendRefs userIdentity c signed) c.Keeps Fault.IsErr := by
  have hself : c.Keeps (.new (c.addToRecent signed.msg) [signed] [] ∅) :=
    ⟨⟨h.keyed, .refl _, rfl⟩, h.keyed, h.host, h.root⟩
  unfold applyMessageWith
  cases hauthor : c.members.get signed.msg.author with
  | none => exact ensures_protocolErr _ _
  | some author =>
      have hauthor' : c.members.get author.id = some author := h.keyed _ _ hauthor ▸ hauthor
      cases hp : signed.msg.payload with
      | invite username identity id =>
          refine ensures_applyInvite hsend h hauthor' ?_
          rintro rfl
          exact hne ⟨username, identity, hp⟩
      | join username identity proof key => exact ensures_applyJoin h hauthor'
      | removeMember chatUid id => exact ensures_applyRemoveMember h
      | groupState key value =>
          show c.Keeps (c.applyGroupState signed author key value)
          unfold applyGroupState
          split
          · exact ⟨⟨h.keyed, .refl _, rfl⟩, h.keyed, h.host, h.root⟩
          · exact hself
      | application content =>
          dsimp only
          split
          · exact hself
          · exact hself
      | replyTo parent content => exact hself
      | edit prior content => exact hself
      | delete target => exact hself

/-- A `Join` applies without another message being sent. -/
theorem joins_applyMessageFuel (fuel : ℕ) :
    Joins (sendMessageRefsWith env (applyMessageFuel env userIdentity (fuel + 1))) := by
  intro c username identity proof key signer refs h
  unfold sendMessageRefsWith
  obtain ⟨us, hus⟩ := h.host
  rw [hostMember_eq_ok.2 hus]
  refine ensures_mergeMessageWith h (h.keyed _ _ hus ▸ hus) ?_
  intro author hauthor _ _
  show Ensures (applyMessageWith env _ userIdentity c _) _ _
  unfold applyMessageWith
  dsimp only at hauthor ⊢
  rw [hauthor]
  exact ensures_applyJoin h (h.keyed _ _ hauthor ▸ hauthor)

/-! ## Merging a message -/

/-- The message invites the empty id, and nothing before keeps it from being applied. -/
def InvitesNobody (env : ChatEnv) (c : Chat) (signed : SignedMessage) : Prop :=
  InvitesEmpty signed ∧ ∃ author, c.members.get signed.msg.author = some author ∧
    c.Accepts signed author ∧ checkSignature env author signed = .ok ()

theorem ensures_mergeMessage (h : c.Hosted) (hhost : c.members.get host.id = some host)
    (hne : ¬ c.InvitesNobody env signed) :
    Ensures (c.mergeMessage env userIdentity signed host) c.Keeps Fault.IsErr := by
  refine ensures_mergeMessageWith h hhost ?_
  intro author hauthor hacc hcheck
  exact ensures_applyMessageWith (joins_applyMessageFuel 0) h
    fun hempty => hne ⟨hempty, author, hauthor, hacc, hcheck⟩

/-- The parent of the empty id is asked for. -/
theorem mergeMessage_panics (h : c.Hosted) (hempty : c.InvitesNobody env signed) :
    c.mergeMessage env userIdentity signed host = .error .panic := by
  obtain ⟨⟨username, identity, hp⟩, author, hauthor, hacc, hcheck⟩ := hempty
  have happly : applyMessage env userIdentity c signed = .error .panic := by
    show applyMessageWith env _ userIdentity c signed = _
    unfold applyMessageWith applyInvite
    rw [hauthor, hp]
    dsimp only
    rw [SortedMap.contains_eq_false.2 h.root]
    rfl
  unfold mergeMessage mergeMessageWith
  rw [hauthor]
  dsimp only
  rw [if_pos (by simp [hacc.1, hacc.2]), hcheck, happly]
  rfl

theorem mergeMessage_isErr_iff (h : c.Hosted) (hhost : c.members.get host.id = some host) :
    Ensures (c.mergeMessage env userIdentity signed host) (fun _ => True) Fault.IsErr ↔
      ¬ c.InvitesNobody env signed := by
  constructor
  · intro hens hempty
    rw [mergeMessage_panics h hempty] at hens
    obtain ⟨e, he⟩ := hens
    cases he
  · exact fun hne => (ensures_mergeMessage h hhost hne).mono (fun _ _ => True.intro) fun _ he => he

/-! ## Counters -/

/-- No count of messages exceeds the first bound, and no count of invitations the second. -/
def CountsLe (s : SortedMap MemberId Member) (messages invited : ℤ) : Prop :=
  ∀ id m, s.get id = some m → m.messagesMergedUpto ≤ messages ∧ m.membersInvited ≤ invited

variable {s : SortedMap MemberId Member} {messages invited messages' invited' : ℤ}

theorem CountsLe.mono (h : CountsLe s messages invited) (hm : messages ≤ messages')
    (hi : invited ≤ invited') : CountsLe s messages' invited' :=
  fun id m hid => ⟨(h id m hid).1.trans hm, (h id m hid).2.trans hi⟩

theorem CountsLe.insert (h : CountsLe s messages invited) {id : MemberId} {m : Member}
    (hm : m.messagesMergedUpto ≤ messages) (hi : m.membersInvited ≤ invited) :
    CountsLe (s.insert id m) messages invited := by
  intro id' m' hm'
  rw [SortedMap.get_insert] at hm'
  split at hm'
  · cases hm'
    exact ⟨hm, hi⟩
  · exact h id' m' hm'

theorem withInvited_countsLe {record : Member} (msg : MessageEnvelope)
    (h : CountsLe c.members messages invited) (hauthor : c.members.get author.id = some author)
    (hm : record.messagesMergedUpto ≤ messages) (hi : record.membersInvited ≤ invited + 1) :
    CountsLe (c.withInvited msg author record).members messages (invited + 1) := by
  have hle := h _ _ hauthor
  have hinviter : author.incrementInvited.membersInvited ≤ invited + 1 := by
    show author.membersInvited + 1 ≤ invited + 1
    omega
  have hmono : CountsLe c.members messages (invited + 1) := h.mono le_rfl (by omega)
  exact (hmono.insert (m := author.incrementInvited) hle.1 hinviter).insert hm hi

theorem mergeMessageTimestamp_countsLe {timestamp : TreeClock}
    (h : CountsLe c.members messages invited)
    (hstate : c.mergeMessageTimestamp timestamp host = .ok c') :
    CountsLe c'.members (messages + 1) invited := by
  obtain ⟨src, us, hsrc, hus, rfl⟩ := mergeMessageTimestamp_eq_ok.1 hstate
  have hsrcle := h _ _ hsrc
  have husle := h _ _ hus
  have hmono : CountsLe c.members (messages + 1) invited := h.mono (by omega) le_rfl
  refine (hmono.insert (m := src.incrementMessages) ?_ hsrcle.2).insert
    (m := us.incrementMessages) ?_ husle.2
  · exact Int.add_le_add_right hsrcle.1 1
  · exact Int.add_le_add_right husle.1 1

theorem mergeMessageWith_countsLe (h : CountsLe c.members messages invited)
    (hmessages : messages ≤ messages') (hinvited : invited ≤ invited')
    (hhost : c.members.get host.id = some host)
    (happly : ∀ v, apply c signed = .ok v → CountsLe v.state.members messages' invited')
    (hu : mergeMessageWith env apply c signed host = .ok u) :
    CountsLe u.state.members (messages' + 1) invited' := by
  obtain ⟨author, -, ⟨-, -, v, state, hv, hstate, rfl⟩ | ⟨-, rfl⟩⟩ := mergeMessageWith_cases hu
  · exact mergeMessageTimestamp_countsLe (happly v hv) hstate
  · have hle := h _ _ hhost
    have hmono : CountsLe c.members (messages' + 1) invited' := h.mono (by omega) hinvited
    exact hmono.insert (m := host.incrementMessages)
      (Int.add_le_add_right (hle.1.trans hmessages) 1) (hle.2.trans hinvited)

/-- A message that invites nobody leaves the counts to `merge_message`. -/
theorem applyMessageFuel_countsLe_of_join {fuel : ℕ} {username : String} {identity : PublicKeyHash}
    {proof : OwnerProof} {key : PublicSigningKey} (h : CountsLe c.members messages invited)
    (hp : signed.msg.payload = .join username identity proof key)
    (hu : applyMessageFuel env userIdentity fuel c signed = .ok u) :
    CountsLe u.state.members messages invited := by
  cases fuel with
  | zero => cases hu
  | succ fuel =>
      obtain ⟨author, hauthor, hu⟩ := applyMessageWith_cases hu
      have hle := h _ _ hauthor
      cases hu with
      | @joined username identity key proof chatIdPublic payload first owned verified =>
          exact h.insert (m := author.withChatId proof) hle.1 hle.2
      | noted => exact h
      | invited payload | reinvited payload | property payload | removed payload
      | foreign payload => rw [hp] at payload; cases payload

theorem applyMessageFuel_countsLe {fuel : ℕ} (hk : KeyedById c.members) (hzero : 0 ≤ invited)
    (h : CountsLe c.members messages invited)
    (hu : applyMessageFuel env userIdentity fuel c signed = .ok u) :
    CountsLe u.state.members (messages + 1) (invited + 1) := by
  cases fuel with
  | zero => cases hu
  | succ fuel =>
      obtain ⟨author, hauthor, hu⟩ := applyMessageWith_cases hu
      have hauthor' : c.members.get author.id = some author := hk _ _ hauthor ▸ hauthor
      have hone : (0 : ℤ) ≤ invited + 1 := by omega
      have hmono : CountsLe c.members (messages + 1) (invited + 1) :=
        h.mono (by omega) (by omega)
      cases hu with
      | @invited username identity newMember inviter us payload new parent inviterIs hostIs other =>
          have hinvite : CountsLe (c.withInvited signed.msg author (.simple username newMember
              identity inviter.messagesMergedUpto 0)).members messages (invited + 1) :=
            withInvited_countsLe _ h hauthor' (h _ _ inviterIs).1 hone
          exact hinvite.mono (by omega) le_rfl
      | @reinvited username identity newMember inviter us invite sent payload new parent inviterIs
          hostIs again inviteIs sends =>
          have hgrow : c.Grows invite.state := by
            rw [inviteIs]
            exact withInvited_grows signed.msg hk hauthor' (by exact new)
          have hinvite : CountsLe invite.state.members messages (invited + 1) := by
            rw [inviteIs]
            exact withInvited_countsLe _ h hauthor' (h _ _ inviterIs).1 hone
          obtain ⟨joiner, hjoiner, hmerge⟩ := sendMessageRefsWith_eq_ok.1 sends
          have hsent : CountsLe sent.state.members (messages + 1) (invited + 1) :=
            mergeMessageWith_countsLe (c := invite.state.rejoining newMember) hinvite le_rfl
              le_rfl (hgrow.keyed _ _ hjoiner ▸ hjoiner)
              (fun v hv => applyMessageFuel_countsLe_of_join
                (c := invite.state.rejoining newMember) hinvite rfl hv) hmerge
          exact hsent
      | @joined username identity key proof chatIdPublic payload first owned verified =>
          have hm := hmono _ _ hauthor
          exact hmono.insert (m := author.withChatId proof) hm.1 hm.2
      | property =>
          unfold applyGroupState
          split <;> exact hmono
      | removed payload may memberIs =>
          have hm := hmono _ _ memberIs
          exact hmono.insert (m := Member.setRemoved _ true) hm.1 hm.2
      | foreign => exact hmono
      | noted => exact hmono

/-- Merging a message raises no count of messages by more than two, and no count of invitations by
more than one. -/
theorem mergeMessage_countsLe (hk : KeyedById c.members)
    (hhost : c.members.get host.id = some host) (hzero : 0 ≤ invited)
    (h : CountsLe c.members messages invited)
    (hu : c.mergeMessage env userIdentity signed host = .ok u) :
    CountsLe u.state.members (messages + 2) (invited + 1) :=
  (mergeMessageWith_countsLe h (by omega) (by omega) hhost
    (fun _ => applyMessageFuel_countsLe hk hzero h) hu).mono (by omega) le_rfl

end Chat

/-! ## Every copy of a chat -/

namespace LocalChat

open Chat

variable {r : LocalChat}

theorem createNew_hosted (uid username : String) (identity : PublicKeyHash) :
    Hosted (.createNew uid username identity) := by
  refine ⟨(createNew_logInv uid username identity).keyed,
    ⟨.simple username .creator identity 0 0, ?_⟩, ?_⟩
  · rw [get_createNew]
    exact if_pos rfl
  · rw [get_createNew]
    exact if_neg (by decide)

theorem clone_hosted {source : LocalChat} {user : SigningPrivateKeyAndPublicHash}
    {username : String} {priv : PrivateChatState} (h : source.chat.Hosted)
    (hclone : source.clone user username priv = .ok r) : r.chat.Hosted := by
  obtain ⟨m, host, -, -, hcontains, rfl⟩ := clone_eq_ok.1 hclone
  refine ⟨h.keyed.insert (by rfl), ⟨_, SortedMap.get_insert_self _ _ _⟩, ?_⟩
  obtain ⟨m', hm'⟩ := SortedMap.contains_eq_true.1 hcontains
  refine (SortedMap.get_insert_of_ne _ ?_ _).trans h.root
  intro hid
  rw [← hid, h.root] at hm'
  cases hm'

theorem mergeMessage_hosted {env : ChatEnv} {user : SigningPrivateKeyAndPublicHash} {c : Chat}
    {signed : SignedMessage} {host : Member} {u : ChatUpdate} (h : c.Hosted)
    (hhost : c.members.get host.id = some host)
    (hu : c.mergeMessage env user signed host = .ok u) : u.state.Hosted := by
  have hne : ¬ c.InvitesNobody env signed := by
    intro hempty
    rw [mergeMessage_panics h hempty] at hu
    cases hu
  exact ((ensures_mergeMessage h hhost hne).of_eq_ok hu).2

theorem hosted_of_held (h : Held (fun _ _ => True) r) : r.chat.Hosted := by
  induction h with
  | create user uid username priv => exact createNew_hosted uid username user.publicKeyHash
  | clone held clones ih => exact clone_hosted ih clones
  | @call r call u held ok runs ih =>
      refine run_keeps (fun _ _ _ => True) (fun c _ => c.Hosted) ?_ ?_ ?_ ?_ ih runs
      · exact fun c log time hc => ⟨hc.keyed, hc.host, hc.root⟩
      · intro env c log body signer refs us u hc hus _ hu
        exact mergeMessage_hosted hc (hc.keyed _ _ hus ▸ hus) hu
      · intro env c log signed mirror host u hc hhost _ hu
        exact mergeMessage_hosted hc (hc.keyed _ _ hhost ▸ hhost) hu
      · cases call with
        | merge env mirror store => exact fun host _ => Along.trivial _ _
        | send | invite | join => exact True.intro

/-- Merging a log never panics if none of its messages invites the empty id. -/
theorem ensures_merge {env : ChatEnv} {mirror : MemberId} {store : MessageStore}
    (h : r.chat.Hosted) (hstore : ∀ signed ∈ store, ¬ InvitesEmpty signed) :
    Ensures (r.run (.merge env mirror store)) (fun u => u.state.Hosted) Fault.IsErr := by
  show Ensures (r.chat.merge env mirror r.user store) _ _
  unfold Chat.merge getMemberById
  cases hmirror : r.chat.members.get mirror with
  | none => exact ensures_protocolErr _ _
  | some host =>
      refine Ensures.foldlM (fun _ (update : ChatUpdate) => update.state.Hosted) ?_ h
      intro done signed rest hl update hupdate
      have hmem : signed ∈ store := by
        have hdrop : signed ∈ store.getMessagesFrom host.messagesMergedUpto := by
          rw [hl]
          simp
        exact List.mem_of_mem_drop hdrop
      unfold mergeStep getMemberById
      cases hnow : update.state.members.get mirror with
      | none => exact ensures_protocolErr _ _
      | some hostNow =>
          refine (ensures_mergeMessage hupdate (hupdate.keyed _ _ hnow ▸ hnow)
            fun hempty => hstore signed hmem hempty.1).bind ?_
          exact fun step hstep => hstep.2

/-- **Hostile messages.**  A copy of a chat merges any message with a value or an `Err`, unless the
message, otherwise acceptable, invites the empty id.  A whole log without such invitations merges so
too; where a merge fails, the copy stays as it is; and no count grows by more than two. -/
theorem merge_fails_cleanly_iff {r : LocalChat} (h : Held (fun _ _ => True) r) (env : ChatEnv)
    (userIdentity : SigningPrivateKeyAndPublicHash) (signed : SignedMessage) (mirror : MemberId)
    (host : Member) (hmirror : r.chat.members.get mirror = some host) :
    (Ensures (r.chat.mergeMessage env userIdentity signed host) (fun _ => True) Fault.IsErr ↔
        ¬ r.chat.InvitesNobody env signed) ∧
      (∀ store : MessageStore, (∀ s ∈ store, ¬ InvitesEmpty s) →
        Ensures (r.run (.merge env mirror store)) (fun _ => True) Fault.IsErr) ∧
      (∀ store f, r.run (.merge env mirror store) = .error f →
        r.after (.merge env mirror store) = r) ∧
      ∀ u messages invited, 0 ≤ invited → CountsLe r.chat.members messages invited →
        r.chat.mergeMessage env userIdentity signed host = .ok u →
          CountsLe u.state.members (messages + 2) (invited + 1) := by
  have hosted := hosted_of_held h
  have hhost : r.chat.members.get host.id = some host := hosted.keyed _ _ hmirror ▸ hmirror
  refine ⟨mergeMessage_isErr_iff hosted hhost, ?_, ?_, ?_⟩
  · intro store hstore
    exact (ensures_merge hosted hstore).mono (fun _ _ => True.intro) fun _ he => he
  · intro store f hf
    rw [after, hf]
  · intro u messages invited hzero hcounts hu
    exact mergeMessage_countsLe hosted.keyed hhost hzero hcounts hu

end LocalChat

/-! ## An invitation of nobody -/

theorem held_aliceInvitedBob : Held (fun _ _ => True) aliceInvitedBob :=
  LocalChat.held_after (LocalChat.held_after (.create _ _ _ _) trivial) trivial

/-- A message Bob writes by hand: it invites Eve under the id `id`. -/
def bobInvitesEve (id : MemberId) : SignedMessage :=
  let msg : MessageEnvelope := ⟨[0, 0], ⟨(SortedMap.empty.insert [0] 2).insert [0, 0] 1⟩, 0, [],
    .invite "eve" (byteKey 4) id⟩
  ⟨(byteSigner 3).sign msg, msg⟩

theorem merge_fails_cleanly_bob_invites_eve :
    Ensures (aliceInvitedBob.chat.mergeMessage stillEnv (byteSigner 1) (bobInvitesEve [0, 0, 0])
      ⟨"bob", [0, 0], byteKey 3, none, 1, 0, false⟩) (fun _ => True) Fault.IsErr :=
  (LocalChat.merge_fails_cleanly_iff held_aliceInvitedBob stillEnv (byteSigner 1)
    (bobInvitesEve [0, 0, 0]) [0, 0] ⟨"bob", [0, 0], byteKey 3, none, 1, 0, false⟩
    (by decide +kernel)).1.2 (by rintro ⟨⟨username, identity, hp⟩, -⟩; cases hp)

/-- Bob invites the empty id, and Alice's client panics. -/
theorem invite_of_empty_id_panics :
    ¬ ∀ (r : LocalChat) (env : ChatEnv) (signed : SignedMessage) (mirror : MemberId)
      (host : Member), Held (fun _ _ => True) r → r.chat.members.get mirror = some host →
        Ensures (r.chat.mergeMessage env r.user signed host) (fun _ => True) Fault.IsErr := by
  intro hclaim
  have hpanic : aliceInvitedBob.chat.mergeMessage stillEnv aliceInvitedBob.user (bobInvitesEve [])
      ⟨"bob", [0, 0], byteKey 3, none, 1, 0, false⟩ = .error .panic := by decide +kernel
  have hens := hclaim aliceInvitedBob stillEnv (bobInvitesEve []) [0, 0]
    ⟨"bob", [0, 0], byteKey 3, none, 1, 0, false⟩ held_aliceInvitedBob (by decide +kernel)
  rw [hpanic] at hens
  obtain ⟨e, he⟩ := hens
  cases he

end Peergos
