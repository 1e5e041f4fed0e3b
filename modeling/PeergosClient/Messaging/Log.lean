import PeergosClient.Messaging.LocalChat

/-!
# The log and the counts

Each member's record counts how many messages of that member's log have been merged; the host's
counts the messages of its own log.  `LogInv` is what ties them together: the host's count is the
length of the log, the clock covers every message of the log, and no message of the log is covered
by an earlier one.

Not every message keeps this.  A removal that names another chat and a message of a removed host are
counted without being appended, a host that is invited again takes over the count of its inviter,
and naming a member in the clock resets what the clock knew of it.  `Fits` and `Regular` leave just
these out.
-/

namespace Peergos

namespace Chat

/-! ## Applying a message leaves the counts alone -/

/-- The records count the same number of messages. -/
def SameCount (m m' : Member) : Prop := m'.messagesMergedUpto = m.messagesMergedUpto

instance : Std.Refl SameCount := ⟨fun _ => rfl⟩

instance : IsTrans Member SameCount := ⟨fun _ _ _ h h' => Eq.trans h' h⟩

variable {env : ChatEnv}
  {sendRefs : Chat → Message → SigningPrivateKeyAndPublicHash → List MessageRef → Result ChatUpdate}
  {apply : Chat → SignedMessage → Result ChatUpdate}
  {userIdentity : SigningPrivateKeyAndPublicHash} {c c' : Chat} {signed : SignedMessage}
  {u : ChatUpdate} {author host : Member}

theorem withInvited_sameCount {record : Member} (msg : MessageEnvelope)
    (hinv : c.members.get author.id = some author) (hnew : c.members.get record.id = none) :
    SortedMap.Relates SameCount c.members (c.withInvited msg author record).members := by
  have hfirst : SortedMap.Relates SameCount c.members
      (c.members.insert author.id author.incrementInvited) := .insert hinv rfl
  refine hfirst.trans (.insert_new record ?_)
  rw [SortedMap.get_insert_of_ne _ ?_, hnew]
  intro heq
  rw [heq, hinv] at hnew
  cases hnew

/-- Merging a message counts it for the source and for the host. -/
theorem mergeMessageTimestamp_count {timestamp : TreeClock} {id : MemberId} {m : Member}
    (h : c.mergeMessageTimestamp timestamp host = .ok c') (hm : c.members.get id = some m) :
    ∃ m', c'.members.get id = some m' ∧ m'.messagesMergedUpto =
      m.messagesMergedUpto + if id = c.host ∨ id = host.id then 1 else 0 := by
  obtain ⟨src, us, hsrc, hus, -⟩ := mergeMessageTimestamp_eq_ok.1 h
  rw [get_mergeMessageTimestamp hsrc hus h]
  by_cases hhost : id = c.host
  · rw [hhost, hus] at hm
    cases hm
    exact ⟨_, if_pos hhost, by simp [hhost, Member.incrementMessages]⟩
  · rw [if_neg hhost]
    by_cases hsource : id = host.id
    · rw [hsource, hsrc] at hm
      cases hm
      exact ⟨_, if_pos hsource, by simp [hsource, Member.incrementMessages]⟩
    · exact ⟨m, by rw [if_neg hsource, hm], by simp [hhost, hsource]⟩

/-- Applying a message leaves the counts of all members alone.  The `Join` that a host sends when it
is invited again is counted for its new id only. -/
theorem applyMessageFuel_sameCount (fuel : ℕ) (hk : KeyedById c.members)
    (h : applyMessageFuel env userIdentity fuel c signed = .ok u) :
    SortedMap.Relates SameCount c.members u.state.members := by
  induction fuel generalizing c signed u with
  | zero => cases h
  | succ fuel ih =>
      obtain ⟨author, hauthor, h⟩ := applyMessageWith_cases h
      have hauthor' : c.members.get author.id = some author := hk _ _ hauthor ▸ hauthor
      cases h with
      | invited payload new => exact withInvited_sameCount signed.msg hauthor' (by exact new)
      | @reinvited username identity newMember inviter host invite sent payload new parent
          inviterIs hostIs again inviteIs sends =>
          have hgrows : c.Grows invite.state := by
            rw [inviteIs]
            exact withInvited_grows signed.msg hk hauthor' (by exact new)
          have hinvite : SortedMap.Relates SameCount c.members invite.state.members := by
            rw [inviteIs]
            exact withInvited_sameCount signed.msg hauthor' (by exact new)
          obtain ⟨us, hus, hmerge⟩ := sendMessageRefsWith_eq_ok.1 sends
          have husid : us.id = newMember := hgrows.keyed _ _ hus
          intro id m hm
          have hne : id ≠ newMember := by
            rintro rfl
            rw [new] at hm
            cases hm
          obtain ⟨m₁, hm₁, hcount₁⟩ := hinvite id m hm
          obtain ⟨-, -, ⟨-, -, v, state, hv, hstate, rfl⟩ | ⟨-, rfl⟩⟩ :=
            mergeMessageWith_cases hmerge
          · obtain ⟨m₂, hm₂, hcount₂⟩ := ih (c := invite.state.rejoining newMember) hgrows.keyed hv
              id m₁ hm₁
            obtain ⟨m₃, hm₃, hcount₃⟩ := mergeMessageTimestamp_count hstate hm₂
            have hhost : v.state.host = newMember :=
              (applyMessageFuel_plain hv keepsHost_outgoing_join).1
            rw [hhost, husid, if_neg (by simp [hne]), add_zero] at hcount₃
            exact ⟨m₃, hm₃, hcount₃.trans (Eq.trans hcount₂ hcount₁)⟩
          · refine ⟨m₁, ?_, hcount₁⟩
            show (invite.state.members.insert us.id us.incrementMessages).get id = some m₁
            rw [husid, SortedMap.get_insert_of_ne _ hne, hm₁]
      | joined payload first => exact .insert hauthor' rfl
      | property payload =>
          unfold applyGroupState
          split <;> exact .refl _
      | removed payload may memberIs => exact .insert memberIs rfl
      | foreign => exact .refl _
      | noted => exact .refl _

/-! ## Merging one message -/

/-- Whatever becomes of a message of a mirror, it is counted for that mirror. -/
theorem mergeMessage_count (hk : KeyedById c.members) (hhost : c.members.get host.id = some host)
    (h : mergeMessage env userIdentity c signed host = .ok u) :
    ∃ m, u.state.members.get host.id = some m ∧
      m.messagesMergedUpto = host.messagesMergedUpto + 1 := by
  obtain ⟨-, -, ⟨-, -, v, state, hv, hstate, rfl⟩ | ⟨-, rfl⟩⟩ := mergeMessageWith_cases h
  · obtain ⟨m, hm, hcount⟩ := applyMessageFuel_sameCount 2 hk hv host.id host hhost
    obtain ⟨m', hm', hcount'⟩ := mergeMessageTimestamp_count hstate hm
    refine ⟨m', hm', ?_⟩
    rw [hcount', hcount, if_pos (Or.inr rfl)]
  · exact ⟨host.incrementMessages, SortedMap.get_insert_self _ _ _, rfl⟩

/-- The message keeps the host's count the length of its log: if it is accepted, it is neither a
removal for another chat nor does it invite the removed host again; if it is not, it is not counted
for the host. -/
def Fits (c : Chat) (signed : SignedMessage) (source : MemberId) : Prop :=
  ∀ author, c.members.get signed.msg.author = some author →
    (c.Accepts signed author → ¬ c.Foreign signed ∧ c.KeepsHost signed) ∧
    (¬ c.Accepts signed author → source ≠ c.host)

instance (c : Chat) (signed : SignedMessage) (source : MemberId) :
    Decidable (c.Fits signed source) :=
  inferInstanceAs (Decidable (∀ author ∈ c.members.get signed.msg.author,
    (c.Accepts signed author → ¬ c.Foreign signed ∧ c.KeepsHost signed) ∧
      (¬ c.Accepts signed author → source ≠ c.host)))

/-- No record has a negative count. -/
def NonnegCounts (s : SortedMap MemberId Member) : Prop :=
  ∀ id m, s.get id = some m → 0 ≤ m.messagesMergedUpto

theorem NonnegCounts.insert {s : SortedMap MemberId Member} (h : NonnegCounts s) {id : MemberId}
    {m : Member} (hm : 0 ≤ m.messagesMergedUpto) : NonnegCounts (s.insert id m) := by
  intro id' m' hm'
  rw [SortedMap.get_insert] at hm'
  split at hm'
  · cases hm'
    exact hm
  · exact h id' m' hm'

/-- The counts, the clock and the log belong together. -/
structure LogInv (c : Chat) (log : List SignedMessage) : Prop where
  keyed : KeyedById c.members
  counted : ∃ us, c.members.get c.host = some us ∧ us.messagesMergedUpto = log.length
  covered : ∀ s ∈ log, s.msg.timestamp.isBeforeOrEqual c.current = true
  fresh : log.Pairwise fun a b => b.msg.timestamp.isBeforeOrEqual a.msg.timestamp = false
  nonneg : NonnegCounts c.members

variable {log : List SignedMessage}

theorem LogInv.nodup (h : LogInv c log) : log.Nodup := by
  refine h.fresh.imp ?_
  rintro a b hab rfl
  rw [TreeClock.isBeforeOrEqual_refl] at hab
  cases hab

/-- The clock may be set to a later one. -/
theorem LogInv.withTime (h : LogInv c log) {time : TreeClock}
    (hle : c.current.isBeforeOrEqual time = true) : LogInv (c.withTime time) log :=
  ⟨h.keyed, h.counted, fun s hs => TreeClock.isBeforeOrEqual_trans (h.covered s hs) hle, h.fresh,
    h.nonneg⟩

theorem incrementMessages_nonneg {m : Member} (h : 0 ≤ m.messagesMergedUpto) :
    0 ≤ m.incrementMessages.messagesMergedUpto := by
  have : m.incrementMessages.messagesMergedUpto = m.messagesMergedUpto + 1 := rfl
  omega

theorem mergeMessageTimestamp_nonneg {timestamp : TreeClock} (hnonneg : NonnegCounts c.members)
    (h : c.mergeMessageTimestamp timestamp host = .ok c') : NonnegCounts c'.members := by
  obtain ⟨src, us, hsrc, hus, rfl⟩ := mergeMessageTimestamp_eq_ok.1 h
  have hfirst : NonnegCounts (c.members.insert host.id src.incrementMessages) :=
    hnonneg.insert (incrementMessages_nonneg (hnonneg _ _ hsrc))
  exact hfirst.insert (incrementMessages_nonneg (hnonneg _ _ hus))

/-- Applying a message invents no negative counts: a member that is invited gets the count of its
inviter. -/
theorem applyMessageFuel_nonneg {fuel : ℕ} (hkeeps : c.KeepsHost signed)
    (hnonneg : NonnegCounts c.members)
    (h : applyMessageFuel env userIdentity fuel c signed = .ok u) :
    NonnegCounts u.state.members := by
  cases fuel with
  | zero => cases h
  | succ fuel =>
      obtain ⟨author, hauthor, h⟩ := applyMessageWith_cases h
      have hcount := hnonneg _ _ hauthor
      cases h with
      | invited payload new parent inviterIs =>
          have hinviter := hnonneg _ _ inviterIs
          have hfirst : NonnegCounts (c.members.insert author.id author.incrementInvited) :=
            hnonneg.insert hcount
          exact hfirst.insert hinviter
      | reinvited payload new parent inviterIs hostIs again =>
          exact absurd again (hkeeps _ _ _ _ payload (hostMember_eq_ok.1 hostIs))
      | joined => exact hnonneg.insert hcount
      | property =>
          unfold applyGroupState
          split <;> exact hnonneg
      | removed payload may memberIs =>
          have hmember := hnonneg _ _ memberIs
          exact hnonneg.insert hmember
      | foreign => exact hnonneg
      | noted => exact hnonneg

/-- The step lemma: a message that fits keeps the invariant. -/
theorem mergeMessage_logInv (hinv : LogInv c log) (hhost : c.members.get host.id = some host)
    (hfits : c.Fits signed host.id) (h : mergeMessage env userIdentity c signed host = .ok u) :
    LogInv u.state (log ++ u.newMessages) := by
  obtain ⟨us, hus, hcount⟩ := hinv.counted
  have hgrows := mergeMessage_grows hinv.keyed hhost h
  obtain ⟨author, hauthor, ⟨haccepts, -, v, state, hv, hstate, rfl⟩ | ⟨hrejects, rfl⟩⟩ :=
    mergeMessageWith_cases h
  · obtain ⟨hforeign, hkeeps⟩ := (hfits author hauthor).1 haccepts
    obtain ⟨hvhost, hvtime, hnew⟩ := applyMessageFuel_plain hv hkeeps
    have hnew : v.newMessages = [signed] := hnew.resolve_right fun hc => hforeign hc.2
    obtain ⟨_, _, _, _, hstate'⟩ := mergeMessageTimestamp_eq_ok.1 hstate
    have htime : state.current = c.current.merge signed.msg.timestamp := by
      rw [hstate', ← hvtime]
      rfl
    have hstatehost : state.host = c.host := by
      rw [hstate', ← hvhost]
      rfl
    show LogInv state (log ++ v.newMessages)
    rw [hnew]
    refine ⟨hgrows.keyed, ?_, ?_, ?_, ?_⟩
    · obtain ⟨us', hus', hcount'⟩ := applyMessageFuel_sameCount 2 hinv.keyed hv _ us hus
      obtain ⟨us'', hus'', hcount''⟩ := mergeMessageTimestamp_count hstate hus'
      refine ⟨us'', by rw [hstatehost, hus''], ?_⟩
      rw [hcount'', hcount', hcount, if_pos (Or.inl hvhost.symm), List.length_append,
        List.length_singleton, Nat.cast_add, Nat.cast_one]
    · intro s hs
      rw [htime]
      rcases List.mem_append.1 hs with hs | hs
      · exact TreeClock.isBeforeOrEqual_trans (hinv.covered s hs)
          (TreeClock.isBeforeOrEqual_merge_left _ _)
      · rw [List.mem_singleton.1 hs]
        exact TreeClock.isBeforeOrEqual_merge_right _ _
    · -- a message that an old one covers would have been covered by the clock
      rw [List.pairwise_append]
      refine ⟨hinv.fresh, List.pairwise_singleton _ _, ?_⟩
      intro a ha b hb
      rw [List.mem_singleton.1 hb, Bool.eq_false_iff]
      intro hle
      have hcovered := TreeClock.isBeforeOrEqual_trans hle (hinv.covered a ha)
      rw [haccepts.1] at hcovered
      cases hcovered
    · exact mergeMessageTimestamp_nonneg (applyMessageFuel_nonneg hkeeps hinv.nonneg hv) hstate
  · have hne : host.id ≠ c.host := (hfits author hauthor).2 hrejects
    rw [ChatUpdate.empty, List.append_nil]
    refine ⟨hgrows.keyed, ⟨us, ?_, hcount⟩, hinv.covered, hinv.fresh, ?_⟩
    · show (c.members.insert host.id host.incrementMessages).get c.host = some us
      rw [SortedMap.get_insert_of_ne _ hne.symm, hus]
    · exact hinv.nonneg.insert (incrementMessages_nonneg (hinv.nonneg _ _ hhost))

/-! ## Sending -/

/-- The host can send the message: it is not removed, it can still count its own messages, and a
removal is for this chat. -/
@[mk_iff]
structure MaySend (c : Chat) (body : Message) : Prop where
  present : ∀ us, c.members.get c.host = some us → us.removed = false
  countable : c.current.counterOf c.host ≠ Int64.maxValue
  thisChat : ∀ chatUid id, body = .removeMember chatUid id → chatUid = c.chatUid

theorem thisChat_iff (body : Message) (uid : String) :
    (∀ chatUid ∈ removalChat body, chatUid = uid) ↔
      ∀ chatUid id, body = .removeMember chatUid id → chatUid = uid := by
  cases body <;> simp [removalChat]

instance (c : Chat) (body : Message) : Decidable (c.MaySend body) :=
  haveI : Decidable (∀ us, c.members.get c.host = some us → us.removed = false) :=
    inferInstanceAs (Decidable (∀ us ∈ c.members.get c.host, us.removed = false))
  haveI := decidable_of_iff _ (thisChat_iff body c.chatUid)
  decidable_of_iff _ (maySend_iff c body).symm

theorem MaySend.fits {body : Message} {signer : SigningPrivateKeyAndPublicHash}
    {recentRefs : List MessageRef} (h : c.MaySend body) :
    c.Fits (c.outgoing env body signer recentRefs) c.host := by
  intro us hus
  have hpresent := h.present us hus
  have haccepts : c.Accepts (c.outgoing env body signer recentRefs) us :=
    ⟨TreeClock.not_increment_isBeforeOrEqual h.countable, hpresent⟩
  refine ⟨fun _ => ⟨?_, ?_⟩, fun hrejects => absurd haccepts hrejects⟩
  · rintro ⟨chatUid, id, hbody, hother⟩
    exact hother (h.thisChat chatUid id hbody)
  · rintro username identity id host - hhost ⟨-, hremoved⟩
    rw [h.present host hhost] at hremoved
    cases hremoved

theorem sendMessage_logInv {body : Message} {signer : SigningPrivateKeyAndPublicHash}
    {store : MessageStore} (hinv : LogInv c log) (hmay : c.MaySend body)
    (h : c.sendMessage env body signer userIdentity store = .ok u) :
    LogInv u.state (log ++ u.newMessages) := by
  obtain ⟨us, recentRefs, hus, h⟩ := sendMessage_eq_ok h
  have hid : us.id = c.host := hinv.keyed _ _ hus
  exact mergeMessage_logInv hinv (hid ▸ hus) (hid ▸ hmay.fits) h

end Chat

namespace LocalChat

/-! ## Calls that keep the log exact -/

/-- The host can name the id in its clock and then send. -/
@[mk_iff]
structure MayName (c : Chat) (id : MemberId) : Prop where
  present : ∀ us, c.members.get c.host = some us → us.removed = false
  countable : c.current.counterOf c.host ≠ Int64.maxValue
  uncounted : c.current.counterOf id ≤ 0

/-- Every message the call merges fits, and every id it names in the clock is one the clock has no
messages of. -/
def Regular (r : LocalChat) : ChatCall → Prop
  | .send _ body => r.chat.MaySend body
  | .invite env invited =>
      Outcome.Along (Chat.inviteStep env r.priv.chatIdentity r.user r.log)
        (fun update _ => ∀ us, update.state.members.get update.state.host = some us →
          MayName update.state (update.state.host.fork us.membersInvited))
        (.empty r.chat) invited
  | .join _ => MayName r.chat r.chat.host
  | .merge env mirror store =>
      ∀ host, r.chat.members.get mirror = some host →
        Outcome.Along (Chat.mergeStep env mirror r.user)
          (fun update msg => update.state.Fits msg mirror) (.empty r.chat)
          (store.getMessagesFrom host.messagesMergedUpto)

instance (c : Chat) (id : MemberId) : Decidable (MayName c id) :=
  haveI : Decidable (∀ us, c.members.get c.host = some us → us.removed = false) :=
    inferInstanceAs (Decidable (∀ us ∈ c.members.get c.host, us.removed = false))
  decidable_of_iff _ (mayName_iff c id).symm

instance (r : LocalChat) : ∀ call, Decidable (r.Regular call)
  | .send _ body => inferInstanceAs (Decidable (r.chat.MaySend body))
  | .invite env invited =>
      inferInstanceAs (Decidable (Outcome.Along (Chat.inviteStep env r.priv.chatIdentity r.user r.log)
        (fun update _ => ∀ us ∈ update.state.members.get update.state.host,
          MayName update.state (update.state.host.fork us.membersInvited))
        (.empty r.chat) invited))
  | .join _ => inferInstanceAs (Decidable (MayName r.chat r.chat.host))
  | .merge env mirror store =>
      inferInstanceAs (Decidable (∀ host ∈ r.chat.members.get mirror,
        Outcome.Along (Chat.mergeStep env mirror r.user)
          (fun update msg => update.state.Fits msg mirror) (.empty r.chat)
          (store.getMessagesFrom host.messagesMergedUpto)))

variable {r : LocalChat} {u : ChatUpdate}

theorem inviteStep_logInv {env : ChatEnv} {ours user : SigningPrivateKeyAndPublicHash}
    {store : MessageStore} {log : List SignedMessage} {invited : String × PublicKeyHash}
    {update update' : ChatUpdate} (hinv : Chat.LogInv update.state (log ++ update.newMessages))
    (hmay : ∀ us, update.state.members.get update.state.host = some us →
      MayName update.state (update.state.host.fork us.membersInvited))
    (h : Chat.inviteStep env ours user store update invited = .ok update') :
    Chat.LogInv update'.state (log ++ update'.newMessages) := by
  obtain ⟨us, hus, h⟩ := bind_eq_ok.1 h
  obtain ⟨sent, hsent, h⟩ := bind_eq_ok.1 h
  cases h
  have hmay := hmay us (Chat.hostMember_eq_ok.1 hus)
  show Chat.LogInv sent.state (log ++ (update.newMessages ++ sent.newMessages))
  rw [← List.append_assoc]
  refine Chat.sendMessage_logInv
    (hinv.withTime (TreeClock.isBeforeOrEqual_withMember hmay.uncounted)) ?_ hsent
  refine ⟨hmay.present, ?_, fun _ _ hbody => nomatch hbody⟩
  -- the new member is not the host, so the host's own counter is as before
  have hne : update.state.host ≠ update.state.host.fork us.membersInvited :=
    (MemberId.fork_ne_self _ _).symm
  show TreeClock.counterOf _ _ ≠ _
  rw [TreeClock.counterOf, Chat.withTime, TreeClock.get_withMember, if_neg hne]
  exact hmay.countable

theorem mergeStep_logInv {env : ChatEnv} {user : SigningPrivateKeyAndPublicHash}
    {mirror : MemberId} {log : List SignedMessage} {msg : SignedMessage}
    {update update' : ChatUpdate} (hinv : Chat.LogInv update.state (log ++ update.newMessages))
    (hfits : update.state.Fits msg mirror)
    (h : Chat.mergeStep env mirror user update msg = .ok update') :
    Chat.LogInv update'.state (log ++ update'.newMessages) := by
  obtain ⟨host, step, hmirror, hstep, rfl⟩ := Chat.mergeStep_eq_ok.1 h
  have hid : host.id = mirror := hinv.keyed _ _ hmirror
  show Chat.LogInv step.state (log ++ (update.newMessages ++ step.newMessages))
  rw [← List.append_assoc]
  exact Chat.mergeMessage_logInv hinv (hid ▸ hmirror) (hid ▸ hfits) hstep

/-- A regular call keeps the invariant. -/
theorem run_logInv {call : ChatCall} (hinv : Chat.LogInv r.chat r.log) (hregular : r.Regular call)
    (h : r.run call = .ok u) : Chat.LogInv u.state (r.log ++ u.newMessages) := by
  have hstart : Chat.LogInv (ChatUpdate.empty r.chat).state
      (r.log ++ (ChatUpdate.empty r.chat).newMessages) := by
    rw [ChatUpdate.empty, List.append_nil]
    exact hinv
  cases call with
  | send env body => exact Chat.sendMessage_logInv hinv hregular h
  | invite env invited =>
      exact Outcome.Along.inv
        (fun update => Chat.LogInv update.state (r.log ++ update.newMessages))
        (fun _ _ _ => inviteStep_logInv) hregular hstart h
  | join env =>
      obtain ⟨us, hus, h⟩ := bind_eq_ok.1 h
      have hid : us.id = r.chat.host := hinv.keyed _ _ (Chat.hostMember_eq_ok.1 hus)
      unfold Chat.join at h
      rw [hid] at h
      refine Chat.sendMessage_logInv
        (hinv.withTime (TreeClock.isBeforeOrEqual_withMember hregular.uncounted)) ?_ h
      refine ⟨hregular.present, ?_, by intro _ _ hbody; cases hbody⟩
      show TreeClock.counterOf _ _ ≠ _
      rw [TreeClock.counterOf, Chat.withTime, TreeClock.get_withMember, if_pos rfl]
      decide
  | merge env mirror store =>
      obtain ⟨host, hmirror, h⟩ := Chat.merge_eq_ok.1 h
      exact Outcome.Along.inv
        (fun update => Chat.LogInv update.state (r.log ++ update.newMessages))
        (fun _ _ _ => mergeStep_logInv) (hregular host hmirror) hstart h

theorem get_createNew {uid username : String} {identity : PublicKeyHash} (id : MemberId) :
    (Chat.createNew uid username identity).members.get id =
      if id = .creator then some (.simple username .creator identity 0 0) else none := by
  rw [Chat.createNew, SortedMap.get_insert, SortedMap.get_empty]

theorem createNew_logInv (uid username : String) (identity : PublicKeyHash) :
    Chat.LogInv (.createNew uid username identity) [] := by
  refine ⟨?_, ⟨.simple username .creator identity 0 0, ?_, ?_⟩, ?_, .nil, ?_⟩
  · intro id m hm
    rw [get_createNew] at hm
    split at hm
    · rename_i hid
      cases hm
      exact hid.symm
    · cases hm
  · rw [get_createNew]
    exact if_pos rfl
  · simp [Member.simple]
  · intro s hs
    cases hs
  · intro id m hm
    rw [get_createNew] at hm
    split at hm
    · cases hm
      exact le_rfl
    · cases hm

theorem clone_logInv {source : LocalChat} {user : SigningPrivateKeyAndPublicHash}
    {username : String} {priv : PrivateChatState} (hinv : Chat.LogInv source.chat source.log)
    (h : source.clone user username priv = .ok r) : Chat.LogInv r.chat r.log := by
  obtain ⟨m, host, -, hhost, -, rfl⟩ := clone_eq_ok.1 h
  obtain ⟨us, hus, hcount⟩ := hinv.counted
  rw [hhost] at hus
  cases hus
  have hnonneg := hinv.nonneg _ _ hhost
  exact ⟨hinv.keyed.insert (by rfl), ⟨_, SortedMap.get_insert_self _ _ _, hcount⟩, hinv.covered,
    hinv.fresh, hinv.nonneg.insert hnonneg⟩

theorem logInv_of_held (h : Held Regular r) : Chat.LogInv r.chat r.log := by
  induction h with
  | create user uid username priv => exact createNew_logInv uid username user.publicKeyHash
  | clone held clones ih => exact clone_logInv ih clones
  | call held ok runs ih => exact run_logInv ih ok runs

/-! ## Merging a mirror twice -/

/-- A merge counts every message it read. -/
theorem foldlM_mergeStep_count {env : ChatEnv} {user : SigningPrivateKeyAndPublicHash}
    {mirror : MemberId} {msgs : List SignedMessage} {update : ChatUpdate} {host : Member}
    (hk : KeyedById update.state.members) (hhost : update.state.members.get mirror = some host)
    (h : msgs.foldlM (Chat.mergeStep env mirror user) update = .ok u) :
    ∃ m, u.state.members.get mirror = some m ∧
      m.messagesMergedUpto = host.messagesMergedUpto + msgs.length := by
  induction msgs generalizing update host with
  | nil =>
      cases h
      exact ⟨host, hhost, by simp⟩
  | cons msg msgs ih =>
      rw [List.foldlM_cons] at h
      obtain ⟨update', hstep, h⟩ := bind_eq_ok.1 h
      obtain ⟨host', step, hhost', hmerge, rfl⟩ := Chat.mergeStep_eq_ok.1 hstep
      rw [hhost] at hhost'
      cases hhost'
      have hid : host.id = mirror := hk _ _ hhost
      have hgrows := Chat.mergeMessage_grows hk (hid ▸ hhost) hmerge
      obtain ⟨host', hhost', hcount⟩ := Chat.mergeMessage_count hk (hid ▸ hhost) hmerge
      rw [hid] at hhost'
      have hkeyed : KeyedById (update.apply step).state.members := hgrows.keyed
      obtain ⟨m, hm, hcount'⟩ := ih hkeyed hhost' h
      refine ⟨m, hm, ?_⟩
      rw [hcount', hcount, List.length_cons, Nat.cast_add, Nat.cast_one]
      ring

/-- Merging the same log of a mirror again appends nothing and changes nothing. -/
theorem merge_again {env env' : ChatEnv} {user user' : SigningPrivateKeyAndPublicHash}
    {mirror : MemberId} {store : MessageStore} {c : Chat} {log : List SignedMessage}
    (hinv : Chat.LogInv c log) (h : c.merge env mirror user store = .ok u) :
    u.state.merge env' mirror user' store = .ok (.empty u.state) := by
  obtain ⟨host, hmirror, h⟩ := Chat.merge_eq_ok.1 h
  have hkeyed : KeyedById (ChatUpdate.empty c).state.members := hinv.keyed
  obtain ⟨m, hm, hcount⟩ := foldlM_mergeStep_count hkeyed hmirror h
  have hnonneg := hinv.nonneg _ _ hmirror
  have hend : store.getMessagesFrom m.messagesMergedUpto = [] := by
    rw [MessageStore.getMessagesFrom, List.drop_eq_nil_iff, hcount,
      MessageStore.getMessagesFrom, List.length_drop]
    omega
  rw [Chat.merge_eq_ok]
  refine ⟨m, hm, ?_⟩
  rw [hend]
  rfl

end LocalChat

/-- For every copy of a chat reached by regular calls, the host's count is the length of the log, no
message is in the log twice, and merging a mirror's log a second time appends nothing. -/
theorem log_exact {r : LocalChat} (h : Held LocalChat.Regular r) :
    (∃ us, r.chat.members.get r.chat.host = some us ∧ us.messagesMergedUpto = r.log.length) ∧
    r.log.Nodup ∧
    ∀ env mirror store u, r.chat.merge env mirror r.user store = .ok u →
      ∀ env', u.state.merge env' mirror r.user store = .ok (.empty u.state) := by
  have hinv := LocalChat.logInv_of_held h
  refine ⟨hinv.counted, hinv.nodup, ?_⟩
  intro env mirror store u hmerge env'
  exact LocalChat.merge_again hinv hmerge

theorem regular_aliceInvitedBob : Held LocalChat.Regular aliceInvitedBob :=
  LocalChat.held_after (LocalChat.held_after (.create _ _ _ _) (by decide +kernel))
    (by decide +kernel)

theorem regular_bobJoined : Held LocalChat.Regular bobJoined :=
  LocalChat.held_after (.clone regular_aliceInvitedBob clone_bobCloned) (by decide +kernel)

theorem regular_bobMerges : bobJoined.Regular (.merge stillEnv [0] aliceTitled.log) := by
  decide +kernel

/-- Alice invites Bob and merges what he sends, and he merges hers: his count is right, and reading
her log once more changes nothing. -/
theorem log_exact_bobMerged :
    bobMerged.log.length = 4 ∧
    (∃ us, bobMerged.chat.members.get bobMerged.chat.host = some us ∧
      us.messagesMergedUpto = bobMerged.log.length) ∧ bobMerged.log.Nodup ∧
    ∀ env, bobMerged.chat.merge env [0] bobJoined.user aliceTitled.log =
      .ok (.empty bobMerged.chat) := by
  have hheld : Held LocalChat.Regular bobMerged :=
    LocalChat.held_after regular_bobJoined regular_bobMerges
  have hexact := log_exact hheld
  obtain ⟨u, hu⟩ := exists_eq_ok (x := bobJoined.run (.merge stillEnv [0] aliceTitled.log))
    (by decide +kernel)
  have hr : bobMerged = bobJoined.commit u := by rw [bobMerged, LocalChat.after, hu]
  have hchat : u.state = bobMerged.chat := by rw [hr, LocalChat.commit]
  have hagain := (log_exact regular_bobJoined).2.2 stillEnv [0] aliceTitled.log u hu
  rw [hchat] at hagain
  exact ⟨by decide +kernel, hexact.1, hexact.2.1, hagain⟩

/-- A removal that names another chat is counted although it is not appended. -/
theorem log_miscounts_foreign_removal :
    ¬ ∀ r : LocalChat, Held (fun _ _ => True) r →
      (∃ us, r.chat.members.get r.chat.host = some us ∧ us.messagesMergedUpto = r.log.length) ∧
      r.log.Nodup ∧
      ∀ env mirror store u, r.chat.merge env mirror r.user store = .ok u →
        ∀ env', u.state.merge env' mirror r.user store = .ok (.empty u.state) := by
  intro hclaim
  have hjoined : Held (fun _ _ => True) aliceJoined := LocalChat.held_after (.create _ _ _ _) trivial
  have hsent : Held (fun _ _ => True)
      (aliceJoined.after (.send stillEnv (.removeMember "elsewhere" [0]))) :=
    LocalChat.held_after hjoined trivial
  obtain ⟨us, hus, hcount⟩ := (hclaim _ hsent).1
  have hlog : (aliceJoined.after (.send stillEnv (.removeMember "elsewhere" [0]))).log.length = 1 := by
    decide
  have hcounted : ((aliceJoined.after (.send stillEnv (.removeMember "elsewhere" [0]))).chat.members.get
      (aliceJoined.after (.send stillEnv (.removeMember "elsewhere" [0]))).chat.host).map
        (·.messagesMergedUpto) = some 2 := by decide
  rw [hus, Option.map_some, hcount, hlog] at hcounted
  cases hcounted

end Peergos
