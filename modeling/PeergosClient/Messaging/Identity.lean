import PeergosClient.Messaging.Log

/-!
# The host's chat identity

A member signs with a key pair drawn for the chat.  Its `Join` message certifies the key: the other
members keep the certificate in its record and check every later message of the member against it.
The secret part is in the private state, which is written separately.

The two belong together as long as the host is not invited again while it is removed.  In that case
`apply_message` draws a new key pair and certifies it, and the key pair itself is forgotten.
-/

namespace Peergos

namespace Chat

variable {env : ChatEnv} {apply : Chat → SignedMessage → Result ChatUpdate}
  {userIdentity : SigningPrivateKeyAndPublicHash} {c c' : Chat} {signed : SignedMessage}
  {u : ChatUpdate} {author host : Member}

/-! ## Updates carry no private state -/

theorem mergeMessageWith_privState
    (happly : ∀ v, apply c signed = .ok v → v.privState = none)
    (h : mergeMessageWith env apply c signed host = .ok u) : u.privState = none := by
  obtain ⟨author, -, ⟨-, -, v, state, hv, -, rfl⟩ | ⟨-, rfl⟩⟩ := mergeMessageWith_cases h
  · exact happly v hv
  · rfl

/-- Applying a message never updates the private state, not even when it draws a new key pair. -/
theorem applyMessageFuel_privState (fuel : ℕ)
    (h : applyMessageFuel env userIdentity fuel c signed = .ok u) : u.privState = none := by
  induction fuel generalizing c signed u with
  | zero => cases h
  | succ fuel ih =>
      obtain ⟨author, -, h⟩ := applyMessageWith_cases h
      cases h with
      | reinvited payload new parent inviterIs hostIs again inviteIs sends =>
          rw [inviteIs]
          rfl
      | property =>
          unfold applyGroupState
          split <;> rfl
      | invited | joined | removed | foreign | noted => rfl

theorem mergeMessage_privState (h : mergeMessage env userIdentity c signed host = .ok u) :
    u.privState = none :=
  mergeMessageWith_privState (fun _ => applyMessageFuel_privState 2) h

theorem apply_privState {u next : ChatUpdate} (h : u.privState = none) :
    (u.apply next).privState = none := by
  simp [ChatUpdate.apply, h]

/-! ## The signature check -/

/-- The key a member's messages are checked with. -/
def SigningKeyIs (env : ChatEnv) (author : Member) (key : PublicKeyHash) : Prop :=
  match author.chatIdentity with
  | some proof => proof.getAndVerifyOwner env = .ok key
  | none => key = author.identity

theorem checkSignature_eq_ok :
    checkSignature env author signed = .ok () ↔
      ∃ key, SigningKeyIs env author key ∧ env.holdsKey key = true ∧
        signed.signature.signer = key ∧ signed.signature.content = signed.msg := by
  -- the part after the key is known
  have hrest : ∀ key, ((do
        if !env.holdsKey key then protocolErr "Couldn't retrieve public signing key!"
        let envelope ← signed.signature.unsign key
        if envelope ≠ signed.msg then .error (.err (.crypto "signature verification failed"))) :
          Result Unit) = .ok () ↔
      env.holdsKey key = true ∧ signed.signature.signer = key ∧
        signed.signature.content = signed.msg := by
    intro key
    by_cases hk : env.holdsKey key = true
    · by_cases hs : signed.signature.signer = key
      · by_cases hc : signed.signature.content = signed.msg
        · simp [hk, hs, hc, Signed.unsign, pure, Except.pure]
        · simp [hk, hs, hc, Signed.unsign]
      · simp [hk, hs, Signed.unsign]
    · simp [hk, protocolErr]
  unfold checkSignature SigningKeyIs
  cases author.chatIdentity with
  | none =>
      simp only [pure_bind]
      rw [hrest]
      simp
  | some proof =>
      dsimp only
      rw [bind_eq_ok]
      simp only [hrest]

/-- A certificate verifies as the key it was built for. -/
theorem getAndVerifyOwner_build {user : SigningPrivateKeyAndPublicHash} {key : PublicKeyHash}
    (h : env.holdsKey user.publicKeyHash = true) :
    (OwnerProof.build user key).getAndVerifyOwner env = .ok key := by
  simp [OwnerProof.getAndVerifyOwner, OwnerProof.build, h, Signed.unsign,
    SigningPrivateKeyAndPublicHash.sign]

theorem getAndVerifyOwner_build_eq {user : SigningPrivateKeyAndPublicHash}
    {key key' : PublicKeyHash} (h : (OwnerProof.build user key).getAndVerifyOwner env = .ok key') :
    key' = key := by
  unfold OwnerProof.getAndVerifyOwner at h
  split at h
  · simp [OwnerProof.build, Signed.unsign, SigningPrivateKeyAndPublicHash.sign] at h
    exact h.symm
  · cases h

end Chat

/-! ## Where chat identities come from -/

/-- The message is a `Join` with this certificate. -/
def SignedMessage.Certifies (s : SignedMessage) (proof : OwnerProof) : Prop :=
  ∃ username identity key, s.msg.payload = .join username identity proof key

/-- The chat identities in the members' records are those announced in the log. -/
structure Announced (c : Chat) (log : List SignedMessage) : Prop where
  keyed : KeyedById c.members
  authors : ∀ s ∈ log, ∃ m, c.members.get s.msg.author = some m
  announced : ∀ id m proof, c.members.get id = some m → m.chatIdentity = some proof →
    ∃ s ∈ log, s.msg.author = id ∧ s.signature.signer = m.identity ∧ s.Certifies proof
  pending : ∀ id m, c.members.get id = some m → m.chatIdentity = none →
    ∀ s ∈ log, s.msg.author = id → ∀ proof, ¬ s.Certifies proof

namespace Announced

variable {c c' : Chat} {log : List SignedMessage}

/-- Nothing depends on the rest of the records. -/
theorem of_members (h : Announced c log) (hk : KeyedById c'.members)
    (hstay : ∀ id m, c.members.get id = some m → ∃ m', c'.members.get id = some m')
    (hsame : ∀ id m', c'.members.get id = some m' → ∃ m, c.members.get id = some m ∧
      m.chatIdentity = m'.chatIdentity ∧ m.identity = m'.identity) : Announced c' log where
  keyed := hk
  authors := by
    intro s hs
    obtain ⟨m, hm⟩ := h.authors s hs
    exact hstay _ m hm
  announced := by
    intro id m' proof hm' hproof
    obtain ⟨m, hm, hchat, hidentity⟩ := hsame id m' hm'
    rw [← hidentity]
    exact h.announced id m proof hm (hchat.trans hproof)
  pending := by
    intro id m' hm' hnone
    obtain ⟨m, hm, hchat, -⟩ := hsame id m' hm'
    exact h.pending id m hm (hchat.trans hnone)

/-- Replacing a record by one with the same keys. -/
theorem insert (h : Announced c log) {id : MemberId} {m m' : Member}
    (hm : c.members.get id = some m) (he : m.Evolves m') (hchat : m'.chatIdentity = m.chatIdentity)
    (hc' : c'.members = c.members.insert id m') : Announced c' log := by
  refine h.of_members ?_ ?_ ?_
  · rw [hc']
    exact h.keyed.replace hm he
  · intro id' m₀ hm₀
    rw [hc', SortedMap.get_insert]
    split
    · exact ⟨m', rfl⟩
    · exact ⟨m₀, hm₀⟩
  · intro id' m₀ hm₀
    rw [hc', SortedMap.get_insert] at hm₀
    split at hm₀
    · rename_i hid
      cases hm₀
      exact ⟨m, hid ▸ hm, hchat.symm, he.identity.symm⟩
    · exact ⟨m₀, hm₀, rfl, rfl⟩

/-- Adding a member that has announced nothing. -/
theorem insert_new (h : Announced c log) {m : Member} (hnew : c.members.get m.id = none)
    (hnone : m.chatIdentity = none) (hc' : c'.members = c.members.insert m.id m) :
    Announced c' log := by
  have hget : ∀ id, c'.members.get id = if id = m.id then some m else c.members.get id := by
    intro id
    rw [hc', SortedMap.get_insert]
  refine ⟨?_, ?_, ?_, ?_⟩
  · rw [hc']
    exact h.keyed.insert rfl
  · intro s hs
    obtain ⟨m₀, hm₀⟩ := h.authors s hs
    rw [hget]
    split
    · exact ⟨m, rfl⟩
    · exact ⟨m₀, hm₀⟩
  · intro id m₀ proof hm₀ hproof
    rw [hget] at hm₀
    split at hm₀
    · cases hm₀
      rw [hnone] at hproof
      cases hproof
    · exact h.announced id m₀ proof hm₀ hproof
  · intro id m₀ hm₀ hchat s hs hauthor
    rw [hget] at hm₀
    split at hm₀
    · -- a message of the new member would have made it a member before
      rename_i hid
      obtain ⟨m₁, hm₁⟩ := h.authors s hs
      rw [hauthor, hid, hnew] at hm₁
      cases hm₁
    · exact h.pending id m₀ hm₀ hchat s hs hauthor

/-- Noting a message that announces nothing new. -/
theorem append (h : Announced c log) {signed : SignedMessage} {author : Member}
    (hauthor : c.members.get signed.msg.author = some author)
    (hold : ∀ proof, signed.Certifies proof → author.chatIdentity ≠ none) :
    Announced c (log ++ [signed]) where
  keyed := h.keyed
  authors := by
    intro s hs
    rcases List.mem_append.1 hs with hs | hs
    · exact h.authors s hs
    · rw [List.mem_singleton.1 hs]
      exact ⟨author, hauthor⟩
  announced := by
    intro id m proof hm hproof
    obtain ⟨s, hs, hrest⟩ := h.announced id m proof hm hproof
    exact ⟨s, List.mem_append_left _ hs, hrest⟩
  pending := by
    intro id m hm hnone s hs hid proof hcert
    rcases List.mem_append.1 hs with hs | hs
    · exact h.pending id m hm hnone s hs hid proof hcert
    · rw [List.mem_singleton] at hs
      subst hs
      rw [hid, hm] at hauthor
      cases hauthor
      exact hold proof hcert hnone

end Announced

namespace Chat

variable {env : ChatEnv} {apply : Chat → SignedMessage → Result ChatUpdate}
  {userIdentity : SigningPrivateKeyAndPublicHash} {c c' : Chat} {signed : SignedMessage}
  {u : ChatUpdate} {author host : Member} {log : List SignedMessage}

theorem mergeMessageTimestamp_announced {timestamp : TreeClock} (h : Announced c log)
    (hmerge : c.mergeMessageTimestamp timestamp host = .ok c') : Announced c' log := by
  have hgrows := mergeMessageTimestamp_grows h.keyed hmerge
  obtain ⟨src, us, hsrc, hus, -⟩ := mergeMessageTimestamp_eq_ok.1 hmerge
  refine h.of_members hgrows.keyed ?_ ?_
  · intro id m hm
    obtain ⟨m', hm', -⟩ := hgrows.evolve id m hm
    exact ⟨m', hm'⟩
  · intro id m' hm'
    rw [get_mergeMessageTimestamp hsrc hus hmerge] at hm'
    split at hm'
    · rename_i hid
      cases hm'
      exact ⟨us, hid ▸ hus, rfl, rfl⟩
    · split at hm'
      · rename_i hid
        cases hm'
        exact ⟨src, hid ▸ hsrc, rfl, rfl⟩
      · exact ⟨m', hm', rfl, rfl⟩

/-- A member without a chat identity signs with its own. -/
def SignedByIdentity (c : Chat) (signed : SignedMessage) : Prop :=
  ∀ author, c.members.get signed.msg.author = some author → author.chatIdentity = none →
    signed.signature.signer = author.identity

theorem mergeMessageWith_announced
    (happly : ∀ v, c.SignedByIdentity signed → apply c signed = .ok v →
      Announced v.state (log ++ v.newMessages))
    (h : Announced c log) (hhost : c.members.get host.id = some host)
    (hmerge : mergeMessageWith env apply c signed host = .ok u) :
    Announced u.state (log ++ u.newMessages) := by
  obtain ⟨author, hauthor, ⟨-, hcheck, v, state, hv, hstate, rfl⟩ | ⟨-, rfl⟩⟩ :=
    mergeMessageWith_cases hmerge
  · refine mergeMessageTimestamp_announced (happly v ?_ hv) hstate
    intro author' hauthor' hnone
    rw [hauthor] at hauthor'
    cases hauthor'
    obtain ⟨key, hkey, -, hsigner, -⟩ := checkSignature_eq_ok.1 hcheck
    unfold SigningKeyIs at hkey
    rw [hnone] at hkey
    exact hsigner.trans hkey
  · rw [ChatUpdate.empty, List.append_nil]
    exact h.insert hhost (.incrementMessages host) rfl rfl

theorem withInvited_announced {record : Member} (h : Announced c log)
    (hauthor : c.members.get signed.msg.author = some author)
    (hnotJoin : ∀ proof, ¬ signed.Certifies proof) (hnew : c.members.get record.id = none)
    (hnone : record.chatIdentity = none) :
    Announced (c.withInvited signed.msg author record) (log ++ [signed]) := by
  have hid : author.id = signed.msg.author := h.keyed _ _ hauthor
  have hauthor' : c.members.get author.id = some author := hid.symm ▸ hauthor
  have happended := h.append hauthor fun proof hcert => absurd hcert (hnotJoin proof)
  have hfirst : Announced (c.withMembers (c.members.insert author.id author.incrementInvited))
      (log ++ [signed]) := happended.insert hauthor' (.incrementInvited author) rfl rfl
  refine hfirst.insert_new ?_ hnone rfl
  show (c.members.insert author.id author.incrementInvited).get record.id = none
  rw [SortedMap.get_insert_of_ne _ ?_, hnew]
  intro heq
  rw [heq, hauthor'] at hnew
  cases hnew

theorem applyMessageFuel_announced (fuel : ℕ) (h : Announced c log)
    (hsigned : c.SignedByIdentity signed)
    (happly : applyMessageFuel env userIdentity fuel c signed = .ok u) :
    Announced u.state (log ++ u.newMessages) := by
  induction fuel generalizing c signed u log with
  | zero => cases happly
  | succ fuel ih =>
      obtain ⟨author, hauthor, happly⟩ := applyMessageWith_cases happly
      have hid : author.id = signed.msg.author := h.keyed _ _ hauthor
      have hauthor' : c.members.get author.id = some author := hid.symm ▸ hauthor
      cases happly with
      | invited payload new =>
          refine withInvited_announced h hauthor ?_ new rfl
          rintro proof ⟨_, _, _, hp⟩
          rw [payload] at hp
          cases hp
      | @reinvited username identity newMember inviter host invite sent payload new parent
          inviterIs hostIs again inviteIs sends =>
          have hinvite : Announced (invite.state.rejoining newMember) (log ++ [signed]) := by
            rw [inviteIs]
            refine (withInvited_announced h hauthor ?_ new rfl :
              Announced (c.withInvited signed.msg author
                (.simple username newMember identity inviter.messagesMergedUpto 0)) _).of_members
              ?_ (fun _ m hm => ⟨m, hm⟩) fun _ m hm => ⟨m, hm, rfl, rfl⟩
            · rintro proof ⟨_, _, _, hp⟩
              rw [payload] at hp
              cases hp
            · exact (withInvited_grows signed.msg h.keyed hauthor' (by exact new)).keyed
          obtain ⟨us, hus, hmerge⟩ := sendMessageRefsWith_eq_ok.1 sends
          have husid := hinvite.keyed _ _ hus
          have hsent := mergeMessageWith_announced (fun v hsig hv => ih hinvite hsig hv) hinvite
            (husid.symm ▸ hus) hmerge
          have hnew : invite.newMessages = [signed] := by rw [inviteIs]; rfl
          show Announced sent.state (log ++ (invite.newMessages ++ sent.newMessages))
          rw [hnew, ← List.append_assoc]
          exact hsent
      | @joined username identity key proof chatIdPublic payload first owned verified =>
          have hget : ∀ id, (c.members.insert author.id (author.withChatId proof)).get id =
              if id = author.id then some (author.withChatId proof) else c.members.get id :=
            fun id => SortedMap.get_insert _ _ _ _
          refine ⟨h.keyed.replace hauthor' (.withChatId first proof), ?_, ?_, ?_⟩
          · intro s hs
            show ∃ m, (c.members.insert author.id (author.withChatId proof)).get _ = some m
            rw [hget]
            split
            · exact ⟨_, rfl⟩
            · rename_i hne
              rcases List.mem_append.1 hs with hs | hs
              · exact h.authors s hs
              · rw [List.mem_singleton.1 hs] at hne
                exact absurd hid.symm hne
          · intro id m proof' hm hproof
            have hm : (c.members.insert author.id (author.withChatId proof)).get id = some m := hm
            rw [hget] at hm
            split at hm
            · rename_i hauthorId
              cases hm
              cases hproof
              exact ⟨signed, by simp [ChatUpdate.new], by rw [hauthorId, hid],
                hsigned author hauthor first, _, _, _, payload⟩
            · obtain ⟨s, hs, hrest⟩ := h.announced id m proof' hm hproof
              exact ⟨s, List.mem_append_left _ hs, hrest⟩
          · intro id m hm hnone s hs hauthorId
            have hm : (c.members.insert author.id (author.withChatId proof)).get id = some m := hm
            rw [hget] at hm
            split at hm
            · cases hm
              cases hnone
            · rename_i hne
              rcases List.mem_append.1 hs with hs | hs
              · exact h.pending id m hm hnone s hs hauthorId
              · rw [List.mem_singleton.1 hs] at hauthorId
                exact absurd (hauthorId.symm.trans hid.symm) hne
      | @property key value payload =>
          have hnot : ∀ proof, ¬ signed.Certifies proof := by
            rintro proof ⟨_, _, _, hp⟩
            rw [payload] at hp
            cases hp
          have happended := h.append hauthor fun proof hcert => absurd hcert (hnot proof)
          unfold applyGroupState
          split <;> exact happended.of_members h.keyed (fun _ m hm => ⟨m, hm⟩)
            fun _ m hm => ⟨m, hm, rfl, rfl⟩
      | removed payload may memberIs =>
          have hnot : ∀ proof, ¬ signed.Certifies proof := by
            rintro proof ⟨_, _, _, hp⟩
            rw [payload] at hp
            cases hp
          have happended := h.append hauthor fun proof hcert => absurd hcert (hnot proof)
          exact happended.insert memberIs (.setRemoved _) rfl rfl
      | foreign =>
          rw [ChatUpdate.new, List.append_nil]
          exact h
      | noted notInvite notProperty announced =>
          have happended := h.append hauthor fun proof hcert => by
            obtain ⟨_, _, _, hp⟩ := hcert
            exact announced _ _ _ _ hp
          exact happended.of_members h.keyed (fun _ m hm => ⟨m, hm⟩)
            fun _ m hm => ⟨m, hm, rfl, rfl⟩

theorem mergeMessage_announced (h : Announced c log) (hhost : c.members.get host.id = some host)
    (hmerge : mergeMessage env userIdentity c signed host = .ok u) :
    Announced u.state (log ++ u.newMessages) :=
  mergeMessageWith_announced (fun _ hsig hv => applyMessageFuel_announced 2 h hsig hv) h hhost hmerge

/-! ## The host's own certificate -/

/-- The host's record certifies the key, and a `Join` of the host in the log either certifies it too
or was signed with it. -/
structure HostCertified (user : SigningPrivateKeyAndPublicHash) (key : PublicKeyHash) (c : Chat)
    (log : List SignedMessage) : Prop where
  keyed : KeyedById c.members
  certified : ∃ us, c.members.get c.host = some us ∧ us.chatIdentity = some (.build user key)
  joins : ∀ s ∈ log, s.msg.author = c.host → ∀ proof, s.Certifies proof →
    proof = .build user key ∨ s.signature.signer = key

variable {user : SigningPrivateKeyAndPublicHash} {key : PublicKeyHash}

/-- A message that does not invite the removed host again leaves the host's certificate alone. -/
theorem mergeMessage_hostCertified (h : HostCertified user key c log)
    (hhost : c.members.get host.id = some host)
    (hkeeps : ∀ author, c.members.get signed.msg.author = some author → c.Accepts signed author →
      c.KeepsHost signed)
    (hmerge : mergeMessage env userIdentity c signed host = .ok u) :
    HostCertified user key u.state (log ++ u.newMessages) := by
  obtain ⟨us, hus, hcert⟩ := h.certified
  have hgrows := mergeMessage_grows h.keyed hhost hmerge
  obtain ⟨us', hus', he⟩ := hgrows.evolve _ us hus
  have hcert' := he.chatIdentity _ hcert
  obtain ⟨author, hauthor, ⟨haccepts, hcheck, v, state, hv, hstate, rfl⟩ | ⟨-, rfl⟩⟩ :=
    mergeMessageWith_cases hmerge
  · obtain ⟨hvhost, -, hnew⟩ := applyMessageFuel_plain hv (hkeeps author hauthor haccepts)
    have hstatehost : state.host = c.host := by
      obtain ⟨_, _, _, _, rfl⟩ := mergeMessageTimestamp_eq_ok.1 hstate
      exact hvhost
    refine ⟨hgrows.keyed, ⟨us', hstatehost ▸ hus', hcert'⟩, ?_⟩
    intro s hs hself proof hproof
    have hself : s.msg.author = c.host := hself.trans hstatehost
    rcases List.mem_append.1 hs with hs | hs
    · exact h.joins s hs hself proof hproof
    · -- an accepted message of the host was signed with the certified key
      have hsigned : s = signed := by
        rcases hnew with hnew | ⟨hnew, -⟩
        · have hs : s ∈ v.newMessages := hs
          rw [hnew] at hs
          exact List.mem_singleton.1 hs
        · have hs : s ∈ v.newMessages := hs
          rw [hnew] at hs
          cases hs
      subst hsigned
      rw [hself, hus] at hauthor
      cases hauthor
      obtain ⟨key', hkey', -, hsigner, -⟩ := checkSignature_eq_ok.1 hcheck
      unfold SigningKeyIs at hkey'
      rw [hcert] at hkey'
      exact Or.inr (hsigner.trans (getAndVerifyOwner_build_eq hkey'))
  · rw [ChatUpdate.empty, List.append_nil]
    exact ⟨hgrows.keyed, ⟨us', hus', hcert'⟩, h.joins⟩

/-- The `Join` of a member that has announced nothing is accepted, and certifies its key. -/
theorem mergeMessage_join {username : String} {identity : PublicKeyHash}
    {chatIdPublic : PublicSigningKey} {signer : SigningPrivateKeyAndPublicHash}
    {refs : List MessageRef} {us : Member} (hk : KeyedById c.members)
    (hus : c.members.get c.host = some us) (hpresent : us.removed = false)
    (hnone : us.chatIdentity = none) (hcount : c.current.counterOf c.host ≠ Int64.maxValue)
    (hjoins : ∀ s ∈ log, s.msg.author = c.host → ∀ proof, ¬ s.Certifies proof)
    (hmerge : mergeMessage env userIdentity c (c.outgoing env
      (.join username identity (.build user key) chatIdPublic) signer refs) us = .ok u) :
    HostCertified user key u.state (log ++ u.newMessages) := by
  have husid : us.id = c.host := hk _ _ hus
  have hgrows := mergeMessage_grows hk (husid.symm ▸ hus) hmerge
  obtain ⟨author, hauthor, ⟨-, -, v, state, hv, hstate, rfl⟩ | ⟨hrejects, -⟩⟩ :=
    mergeMessageWith_cases hmerge
  · obtain ⟨hvhost, -, hnew⟩ := applyMessageFuel_plain hv keepsHost_outgoing_join
    have hstatehost : state.host = c.host := by
      obtain ⟨_, _, _, _, rfl⟩ := mergeMessageTimestamp_eq_ok.1 hstate
      exact hvhost
    have hv' : applyMessageWith env
      (sendMessageRefsWith env (applyMessageFuel env userIdentity 1)) userIdentity c _ = .ok v := hv
    obtain ⟨author', hauthor', happlies⟩ := applyMessageWith_cases hv'
    have hauthor' : c.members.get c.host = some author' := hauthor'
    rw [hus] at hauthor'
    cases hauthor'
    -- of the outcomes of `apply_message`, only the first announcement is left
    have hrecord : v.state.members.get c.host = some (us.withChatId (.build user key)) ∧
        v.newMessages = [c.outgoing env (.join username identity (.build user key) chatIdPublic)
          signer refs] := by
      cases happlies with
      | joined payload first owned verified =>
          cases payload
          refine ⟨?_, rfl⟩
          rw [← husid]
          exact SortedMap.get_insert_self _ _ _
      | noted notInvite notProperty announced =>
          exact absurd hnone (announced _ _ _ _ rfl)
      | invited payload | reinvited payload | property payload | removed payload
      | foreign payload => cases payload
    obtain ⟨m, hm, he⟩ := (mergeMessageTimestamp_grows
      (applyMessageFuel_grows 2 _ _ _ hk hv).keyed hstate).evolve _ _ hrecord.1
    refine ⟨hgrows.keyed, ⟨m, hstatehost ▸ hm, he.chatIdentity _ rfl⟩, ?_⟩
    intro s hs hself proof hproof
    have hself : s.msg.author = c.host := hself.trans hstatehost
    rcases List.mem_append.1 hs with hs | hs
    · exact absurd hproof (hjoins s hs hself proof)
    · have hs : s ∈ v.newMessages := hs
      rw [hrecord.2, List.mem_singleton] at hs
      subst hs
      obtain ⟨_, _, _, hp⟩ := hproof
      cases hp
      exact Or.inl rfl
  · have hauthor : c.members.get c.host = some author := hauthor
    rw [hus] at hauthor
    cases hauthor
    exact absurd ⟨TreeClock.not_increment_isBeforeOrEqual hcount, hpresent⟩ hrejects

end Chat

/-! ## Members that have joined -/

/-- A copy of a chat whose owner has joined it: created or cloned, followed at once by the `Join`, and
then changed by allowed calls. -/
inductive Joined (allowed : LocalChat → ChatCall → Prop) (mayClone : LocalChat → String → Prop) :
    LocalChat → Prop
  | create {user : SigningPrivateKeyAndPublicHash} {uid username : String} {priv : PrivateChatState}
      {env : ChatEnv} {u : ChatUpdate}
      (joins : (LocalChat.create user uid username priv).run (.join env) = .ok u) :
      Joined allowed mayClone ((LocalChat.create user uid username priv).commit u)
  | clone {source r : LocalChat} {user : SigningPrivateKeyAndPublicHash} {username : String}
      {priv : PrivateChatState} {env : ChatEnv} {u : ChatUpdate}
      (joined : Joined allowed mayClone source) (may : mayClone source username)
      (clones : source.clone user username priv = .ok r) (joins : r.run (.join env) = .ok u) :
      Joined allowed mayClone (r.commit u)
  | call {r : LocalChat} {call : ChatCall} {u : ChatUpdate} (joined : Joined allowed mayClone r)
      (ok : allowed r call) (runs : r.run call = .ok u) : Joined allowed mayClone (r.commit u)

namespace LocalChat

variable {r : LocalChat} {call : ChatCall} {u : ChatUpdate}

/-- No call updates the private state. -/
theorem run_privState (h : r.run call = .ok u) : u.privState = none := by
  have hsend : ∀ {env : ChatEnv} {c : Chat} {body signer store u},
      c.sendMessage env body signer r.user store = .ok u → u.privState = none := by
    intro env c body signer store u h
    obtain ⟨us, refs, -, h⟩ := Chat.sendMessage_eq_ok h
    exact Chat.mergeMessage_privState h
  cases call with
  | send env body => exact hsend h
  | join env =>
      obtain ⟨us, -, h⟩ := bind_eq_ok.1 h
      exact hsend h
  | invite env invited =>
      refine Outcome.Along.inv (fun update => update.privState = none) ?_
        (Outcome.Along.trivial _ _) rfl h
      intro update who update' hnone _ h
      obtain ⟨us, -, h⟩ := bind_eq_ok.1 h
      obtain ⟨sent, -, h⟩ := bind_eq_ok.1 h
      cases h
      exact Chat.apply_privState hnone
  | merge env mirror store =>
      obtain ⟨host, -, h⟩ := Chat.merge_eq_ok.1 h
      refine Outcome.Along.inv (fun update => update.privState = none) ?_
        (Outcome.Along.trivial _ _) rfl h
      intro update signed update' hnone _ h
      obtain ⟨host, step, -, -, rfl⟩ := Chat.mergeStep_eq_ok.1 h
      exact Chat.apply_privState hnone

theorem commit_priv (h : r.run call = .ok u) : (r.commit u).priv = r.priv := by
  rw [commit, run_privState h, Option.getD_none]

/-- No message that the call accepts from a mirror invites the host while it is removed. -/
def Stays (r : LocalChat) (call : ChatCall) : Prop :=
  r.MergesMeet (fun c signed _ => ∀ author, c.members.get signed.msg.author = some author →
    c.Accepts signed author → c.KeepsHost signed) call

instance (r : LocalChat) (call : ChatCall) : Decidable (r.Stays call) :=
  haveI : ∀ (c : Chat) (signed : SignedMessage) (_ : MemberId),
      Decidable (∀ author, c.members.get signed.msg.author = some author →
        c.Accepts signed author → c.KeepsHost signed) := fun c signed _ =>
    inferInstanceAs (Decidable (∀ author ∈ c.members.get signed.msg.author,
      c.Accepts signed author → c.KeepsHost signed))
  inferInstanceAs (Decidable (r.MergesMeet _ call))

/-- The member has not joined under the id it would take up. -/
def NotJoinedYet (source : LocalChat) (username : String) : Prop :=
  ∀ m, source.chat.getMember username = some m → m.chatIdentity = none

theorem run_announced (h : Announced r.chat r.log) (hrun : r.run call = .ok u) :
    Announced u.state (r.log ++ u.newMessages) := by
  refine run_keeps (fun _ _ _ => True) Announced ?_ ?_ ?_ ?_ h hrun
  · intro c log time h
    exact h.of_members h.keyed (fun _ m hm => ⟨m, hm⟩) fun _ m hm => ⟨m, hm, rfl, rfl⟩
  · intro env c log body signer refs us u h hus _ hmerge
    exact Chat.mergeMessage_announced h (h.keyed _ _ hus ▸ hus) hmerge
  · intro env c log signed mirror host u h hhost _ hmerge
    exact Chat.mergeMessage_announced h (h.keyed _ _ hhost ▸ hhost) hmerge
  · cases call with
    | merge env mirror store => exact fun _ _ => Outcome.Along.trivial _ _
    | _ => trivial

theorem run_hostCertified {user : SigningPrivateKeyAndPublicHash} {key : PublicKeyHash}
    (h : Chat.HostCertified user key r.chat r.log) (hstays : r.Stays call)
    (hrun : r.run call = .ok u) : Chat.HostCertified user key u.state (r.log ++ u.newMessages) := by
  refine run_keeps _ (Chat.HostCertified user key) ?_ ?_ ?_ hstays h hrun
  · intro c log time h
    exact ⟨h.keyed, h.certified, h.joins⟩
  · intro env c log body signer refs us u h hus _ hmerge
    refine Chat.mergeMessage_hostCertified h (h.keyed _ _ hus ▸ hus) ?_ hmerge
    -- a host whose message is accepted is not removed
    rintro author hauthor ⟨-, hpresent⟩ username identity id host - hhost ⟨-, hremoved⟩
    have hauthor : c.members.get c.host = some author := hauthor
    rw [hauthor] at hhost
    cases hhost
    rw [hpresent] at hremoved
    cases hremoved
  · intro env c log signed mirror host u h hhost hkeeps hmerge
    exact Chat.mergeMessage_hostCertified h (h.keyed _ _ hhost ▸ hhost) hkeeps hmerge

/-- Joining certifies the key of the private state. -/
theorem join_hostCertified {env : ChatEnv} {us : Member} (hk : KeyedById r.chat.members)
    (hus : r.chat.members.get r.chat.host = some us) (hpresent : us.removed = false)
    (hnone : us.chatIdentity = none)
    (hjoins : ∀ s ∈ r.log, s.msg.author = r.chat.host → ∀ proof, ¬ s.Certifies proof)
    (h : r.run (.join env) = .ok u) :
    Chat.HostCertified r.user r.priv.chatIdentity.publicKeyHash u.state
      (r.log ++ u.newMessages) := by
  obtain ⟨us', hus', h⟩ := bind_eq_ok.1 h
  rw [Chat.hostMember_eq_ok, hus] at hus'
  cases hus'
  have husid : us.id = r.chat.host := hk _ _ hus
  unfold Chat.join at h
  obtain ⟨us', refs, hus', h⟩ := Chat.sendMessage_eq_ok h
  have hus' : r.chat.members.get r.chat.host = some us' := hus'
  rw [hus] at hus'
  cases hus'
  refine Chat.mergeMessage_join (c := r.chat.withTime (r.chat.current.withMember us.id)) hk hus
    hpresent hnone ?_ hjoins h
  show TreeClock.counterOf _ _ ≠ _
  rw [TreeClock.counterOf, Chat.withTime, TreeClock.get_withMember, husid, if_pos rfl]
  decide

theorem getMember_mem {c : Chat} {username : String} {m : Member}
    (h : c.getMember username = some m) : ∃ id, c.members.get id = some m := by
  unfold Chat.getMember at h
  rw [Option.or_eq_some_iff] at h
  have hmem : m ∈ c.members.values.filter fun m => m.username = username := by
    rcases h with h | ⟨-, h⟩
    · exact List.mem_of_find?_eq_some h
    · exact List.mem_of_mem_head? h
  exact SortedMap.mem_values.1 (List.mem_filter.1 hmem).1

theorem clone_announced {source : LocalChat} {user : SigningPrivateKeyAndPublicHash}
    {username : String} {priv : PrivateChatState} (h : Announced source.chat source.log)
    (hmay : source.NotJoinedYet username) (hclone : source.clone user username priv = .ok r) :
    Announced r.chat r.log ∧
      ∀ s ∈ r.log, s.msg.author = r.chat.host → ∀ proof, ¬ s.Certifies proof := by
  obtain ⟨m, host, hm, hhost, -, rfl⟩ := clone_eq_ok.1 hclone
  have hnone := hmay m hm
  obtain ⟨id, hid⟩ := getMember_mem hm
  have hmid : m.id = id := h.keyed _ _ hid
  subst hmid
  have hpending := h.pending m.id m hid hnone
  refine ⟨⟨h.keyed.insert (by rfl), ?_, ?_, ?_⟩, hpending⟩
  · intro s hs
    show ∃ m', (source.chat.members.insert m.id _).get _ = some m'
    rw [SortedMap.get_insert]
    split
    · exact ⟨_, rfl⟩
    · exact h.authors s hs
  · intro id' m' proof hm' hproof
    have hm' : (source.chat.members.insert m.id _).get id' = some m' := hm'
    rw [SortedMap.get_insert] at hm'
    split at hm'
    · cases hm'
      cases hproof
    · exact h.announced id' m' proof hm' hproof
  · intro id' m' hm' hnone' s hs hauthor
    have hm' : (source.chat.members.insert m.id _).get id' = some m' := hm'
    rw [SortedMap.get_insert] at hm'
    split at hm'
    · rename_i hid'
      exact hpending s hs (hauthor.trans hid')
    · exact h.pending id' m' hm' hnone' s hs hauthor

theorem createNew_announced (uid username : String) (identity : PublicKeyHash) :
    Announced (.createNew uid username identity) [] := by
  refine ⟨(createNew_logInv uid username identity).keyed, ?_, ?_, ?_⟩
  · intro s hs
    cases hs
  · intro id m proof hm hproof
    rw [get_createNew] at hm
    split at hm
    · cases hm
      cases hproof
    · cases hm
  · intro id m hm hnone s hs
    cases hs

end LocalChat

namespace Joined

variable {allowed : LocalChat → ChatCall → Prop} {r : LocalChat}

theorem announced (h : Joined allowed LocalChat.NotJoinedYet r) : Announced r.chat r.log := by
  induction h with
  | @create user uid username priv env u joins =>
      exact LocalChat.run_announced (LocalChat.createNew_announced uid username user.publicKeyHash)
        joins
  | clone joined may clones joins ih =>
      exact LocalChat.run_announced (LocalChat.clone_announced ih may clones).1 joins
  | call joined ok runs ih => exact LocalChat.run_announced ih runs

theorem hostCertified (h : Joined LocalChat.Stays LocalChat.NotJoinedYet r) :
    Chat.HostCertified r.user r.priv.chatIdentity.publicKeyHash r.chat r.log := by
  induction h with
  | @create user uid username priv env u joins =>
      rw [LocalChat.commit_priv joins]
      have hk := (LocalChat.createNew_logInv uid username user.publicKeyHash).keyed
      have hus : (LocalChat.create user uid username priv).chat.members.get .creator =
          some (.simple username .creator user.publicKeyHash 0 0) :=
        (LocalChat.get_createNew _).trans (if_pos rfl)
      refine LocalChat.join_hostCertified hk hus rfl rfl ?_ joins
      intro s hs
      cases hs
  | @clone source r user username priv env u joined may clones joins ih =>
      rw [LocalChat.commit_priv joins]
      obtain ⟨hannounced, hjoins⟩ := LocalChat.clone_announced joined.announced may clones
      obtain ⟨m, host, -, hhost, -, hr⟩ := LocalChat.clone_eq_ok.1 clones
      have hus : r.chat.members.get r.chat.host = some ⟨username, m.id, user.publicKeyHash, none,
          host.messagesMergedUpto, 0, false⟩ := by
        rw [hr]
        exact SortedMap.get_insert_self _ _ _
      exact LocalChat.join_hostCertified hannounced.keyed hus rfl rfl hjoins joins
  | @call r call u joined ok runs ih =>
      rw [LocalChat.commit_priv runs]
      exact LocalChat.run_hostCertified ih ok runs

end Joined

/-- As long as the host is not invited again while it is removed, its record certifies the key it
signs with, and what it signs with that key verifies at every member that has merged the same
messages. -/
theorem host_signs_verifiably {r : LocalChat}
    (h : Joined LocalChat.Stays LocalChat.NotJoinedYet r) :
    (∃ us proof, r.chat.members.get r.chat.host = some us ∧ us.chatIdentity = some proof ∧
      ∀ env : ChatEnv, env.holdsKey r.user.publicKeyHash = true →
        proof.getAndVerifyOwner env = .ok r.priv.chatIdentity.publicKeyHash) ∧
    ∀ r', Joined (fun _ _ => True) LocalChat.NotJoinedYet r' →
      (∀ s, s ∈ r'.log ↔ s ∈ r.log) →
      -- the key pair drawn for the chat is nobody's identity
      (∀ id m, r'.chat.members.get id = some m →
        m.identity ≠ r.priv.chatIdentity.publicKeyHash) →
      ∀ (env : ChatEnv) signed, env.holdsKey r.user.publicKeyHash = true →
        env.holdsKey r.priv.chatIdentity.publicKeyHash = true → signed.msg.author = r.chat.host →
        signed.signature = r.priv.chatIdentity.sign signed.msg →
        ∃ m, r'.chat.members.get r.chat.host = some m ∧
          Chat.checkSignature env m signed = .ok () := by
  have hcertified := h.hostCertified
  obtain ⟨us, hus, hproof⟩ := hcertified.certified
  refine ⟨⟨us, _, hus, hproof, fun env henv => Chat.getAndVerifyOwner_build henv⟩, ?_⟩
  intro r' hr' hlog hfresh env signed huser hkey hauthor hsigned
  have hannounced := hr'.announced
  -- the host's `Join` is in both logs, so the other member has some certificate for the host
  obtain ⟨s, hs, hself, -, hcert⟩ := h.announced.announced _ us _ hus hproof
  obtain ⟨m, hm⟩ := hannounced.authors s ((hlog s).2 hs)
  rw [hself] at hm
  refine ⟨m, hm, ?_⟩
  cases hchat : m.chatIdentity with
  | none => exact absurd hcert (hannounced.pending _ m hm hchat s ((hlog s).2 hs) hself _)
  | some proof =>
      -- it is from a `Join` signed with the host's identity, which can only be the host's own
      obtain ⟨s', hs', hself', hsigner', hcert'⟩ := hannounced.announced _ m proof hm hchat
      have hproof' : proof = .build r.user r.priv.chatIdentity.publicKeyHash := by
        refine (hcertified.joins s' ((hlog s').1 hs') hself' proof hcert').resolve_right ?_
        intro hkey'
        exact hfresh _ m hm (hsigner'.symm.trans hkey')
      rw [Chat.checkSignature_eq_ok]
      refine ⟨r.priv.chatIdentity.publicKeyHash, ?_, hkey, by rw [hsigned]; rfl, by rw [hsigned]; rfl⟩
      unfold Chat.SigningKeyIs
      rw [hchat, hproof']
      exact Chat.getAndVerifyOwner_build huser

theorem joined_after {allowed : LocalChat → ChatCall → Prop} {mayClone : LocalChat → String → Prop}
    {r : LocalChat} {call : ChatCall} (h : Joined allowed mayClone r) (hcall : allowed r call) :
    Joined allowed mayClone (r.after call) := by
  unfold LocalChat.after
  cases hrun : r.run call with
  | ok u => exact h.call hcall hrun
  | error e => exact h

theorem joined_aliceJoined {allowed : LocalChat → ChatCall → Prop}
    {mayClone : LocalChat → String → Prop} : Joined allowed mayClone aliceJoined := by
  obtain ⟨u, hu⟩ := exists_eq_ok (x := aliceCreated.run (.join stillEnv)) (by decide)
  have hr : aliceJoined = aliceCreated.commit u := by rw [aliceJoined, LocalChat.after, hu]
  rw [hr]
  exact .create hu

/-- Alice, who has merged Bob's `Join`. -/
theorem joined_aliceTitled : Joined LocalChat.Stays LocalChat.NotJoinedYet aliceTitled :=
  joined_after (joined_after (joined_after joined_aliceJoined trivial) (by decide +kernel)) trivial

/-- Bob, who has merged what Alice sent. -/
theorem joined_bobMerged : Joined (fun _ _ => True) LocalChat.NotJoinedYet bobMerged := by
  have hmay : ∀ m ∈ aliceInvitedBob.chat.getMember "bob", m.chatIdentity = none := by
    decide +kernel
  obtain ⟨u, hu⟩ := exists_eq_ok (x := bobCloned.run (.join stillEnv)) (by decide +kernel)
  have hr : bobJoined = bobCloned.commit u := by rw [bobJoined, LocalChat.after, hu]
  have hjoined : Joined (fun _ _ => True) LocalChat.NotJoinedYet bobJoined := by
    rw [hr]
    exact .clone (joined_after joined_aliceJoined trivial) hmay clone_bobCloned hu
  exact joined_after hjoined trivial

/-- What Alice signs verifies at Bob. -/
theorem host_signs_verifiably_aliceTitled :
    (∃ us proof, aliceTitled.chat.members.get aliceTitled.chat.host = some us ∧
      us.chatIdentity = some proof ∧ ∀ env : ChatEnv, env.holdsKey aliceTitled.user.publicKeyHash =
        true → proof.getAndVerifyOwner env = .ok aliceTitled.priv.chatIdentity.publicKeyHash) ∧
    ∀ msg : MessageEnvelope, msg.author = aliceTitled.chat.host →
      ∃ m, bobMerged.chat.members.get aliceTitled.chat.host = some m ∧
        Chat.checkSignature stillEnv m ⟨aliceTitled.priv.chatIdentity.sign msg, msg⟩ = .ok () := by
  obtain ⟨hcertified, hverifies⟩ := host_signs_verifiably joined_aliceTitled
  refine ⟨hcertified, fun msg hauthor => ?_⟩
  have hlog : bobMerged.log = aliceTitled.log := by decide +kernel
  have hfresh : ∀ e ∈ bobMerged.chat.members.entries,
      e.2.identity ≠ aliceTitled.priv.chatIdentity.publicKeyHash := by decide +kernel
  exact hverifies bobMerged joined_bobMerged (fun s => by rw [hlog])
    (fun id m hm => hfresh (id, m) (SortedMap.mem_entries.2 hm)) stillEnv _ rfl rfl hauthor rfl

/-! ## Removed and invited again -/

/-- Alice's chat once she has invited Bob and left. -/
def aliceLeft : LocalChat :=
  (aliceJoined.after (.invite stillEnv [("bob", byteKey 3)])).after
    (.send stillEnv (.removeMember "chat" [0]))

/-- Bob, who has seen her leave, invites Alice again. -/
def bobInvites : SignedMessage :=
  let msg : MessageEnvelope := ⟨[0, 0],
    ⟨((SortedMap.empty.insert [0] 3).insert [0, 0] 1).insert [0, 0, 0] 0⟩, 0, [],
    .invite "alice" (byteKey 1) [0, 0, 0]⟩
  ⟨(byteSigner 3).sign msg, msg⟩

/-- Alice's chat once she has merged Bob's log. -/
def aliceBack : LocalChat :=
  aliceLeft.after (.merge stillEnv [0, 0] (aliceLeft.log ++ [bobInvites]))

/-- Alice is invited again: her record certifies a key that is not the one in her private state. -/
theorem host_key_lost_on_reinvite :
    ¬ ∀ r : LocalChat, Joined (fun _ _ => True) (fun _ _ => True) r →
      ∃ us proof, r.chat.members.get r.chat.host = some us ∧ us.chatIdentity = some proof ∧
        ∀ env : ChatEnv, env.holdsKey r.user.publicKeyHash = true →
          proof.getAndVerifyOwner env = .ok r.priv.chatIdentity.publicKeyHash := by
  intro hclaim
  have hback : Joined (fun _ _ => True) (fun _ _ => True) aliceBack :=
    joined_after (joined_after (joined_after joined_aliceJoined trivial) trivial) trivial
  obtain ⟨us, proof, hus, hproof, hverifies⟩ := hclaim _ hback
  have hrecord : (aliceBack.chat.members.get aliceBack.chat.host).bind (·.chatIdentity) =
      some (.build (byteSigner 1) (byteKey 9)) := by decide
  have hpriv : aliceBack.priv.chatIdentity.publicKeyHash = byteKey 2 := by decide
  rw [hus, Option.bind_some, hproof] at hrecord
  cases hrecord
  have hkey := Chat.getAndVerifyOwner_build_eq (hverifies stillEnv rfl)
  rw [hpriv] at hkey
  exact absurd hkey (by decide)

end Peergos
