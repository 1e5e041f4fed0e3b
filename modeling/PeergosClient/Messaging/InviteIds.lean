import PeergosClient.Messaging.Hostile
import PeergosClient.Messaging.Identity

/-!
# The ids of invited members

An inviter forks its own id by a counter that only its own record has, so no two members have to
agree on the ids they give out.  A `World` holds the copies of one chat, one for each user that has
one, and changes by calls on one of the copies at a time.

What keeps the ids apart is where the invitations of an id are to be found: every id ever given out
below `p` is a member in the copy of the user that is known under `p`.  That user is the only one to
give out ids below `p`, and `apply_message` refuses an id that its copy already has, whatever the
counter says.
-/

namespace Peergos

/-- An id is the fork of its parent. -/
theorem MemberId.exists_fork_of_parent {id p : MemberId} (h : id.parent = .ok p) :
    ∃ k, id = p.fork k := by
  unfold MemberId.parent at h
  split at h
  · cases h
  · rename_i hne
    cases h
    exact ⟨id.getLast hne, (List.dropLast_append_getLast hne).symm⟩

namespace Chat

variable {env : ChatEnv}
  {sendRefs : Chat → Message → SigningPrivateKeyAndPublicHash → List MessageRef → Result ChatUpdate}
  {apply : Chat → SignedMessage → Result ChatUpdate}
  {userIdentity : SigningPrivateKeyAndPublicHash} {c c' : Chat} {signed : SignedMessage}
  {u : ChatUpdate} {author host : Member}

/-! ## The invitations of a log -/

/-- The id and the name a message invites. -/
def invitation (s : SignedMessage) : Option (MemberId × String) :=
  match s.msg.payload with
  | .invite username _ id => some (id, username)
  | _ => none

/-- The ids and names a log invites. -/
def invitations (log : List SignedMessage) : List (MemberId × String) := log.filterMap invitation

@[simp] theorem invitations_nil : invitations [] = [] := rfl

@[simp] theorem invitations_append (log log' : List SignedMessage) :
    invitations (log ++ log') = invitations log ++ invitations log' := by
  simp [invitations]

theorem invitations_singleton (s : SignedMessage) : invitations [s] = (invitation s).toList := by
  cases h : invitation s <;> simp [invitations, h]

theorem invitation_eq_some {s : SignedMessage} {id : MemberId} {username : String} :
    invitation s = some (id, username) ↔
      ∃ identity, s.msg.payload = .invite username identity id := by
  unfold invitation
  cases s.msg.payload <;> simp [and_comm]

/-! ## Who becomes a member -/

/-- The name of a member. -/
def nameOf (c : Chat) (id : MemberId) : Option String := (c.members.get id).map (·.username)

theorem nameOf_eq_none {id : MemberId} : c.nameOf id = none ↔ c.members.get id = none := by
  simp [nameOf]

/-- Putting in a record. -/
theorem nameOf_insert (c : Chat) (id id' : MemberId) (m : Member) :
    (c.withMembers (c.members.insert id m)).nameOf id' =
      if id' = id then some m.username else c.nameOf id' := by
  show ((c.members.insert id m).get id').map _ = _
  rw [SortedMap.get_insert]
  split <;> rfl

/-- Replacing a record by one with the same name. -/
theorem nameOf_replace {id : MemberId} {m : Member} (m' : Member) (hm : c.members.get id = some m)
    (hname : m'.username = m.username) :
    (c.withMembers (c.members.insert id m')).nameOf = c.nameOf := by
  funext id'
  rw [nameOf_insert]
  split
  · rename_i hid
    rw [hid, nameOf, hm, hname]
    rfl
  · rfl

theorem mergeMessageTimestamp_nameOf {timestamp : TreeClock}
    (h : c.mergeMessageTimestamp timestamp host = .ok c') :
    c'.nameOf = c.nameOf ∧ c'.host = c.host := by
  obtain ⟨src, us, hsrc, hus, hc'⟩ := mergeMessageTimestamp_eq_ok.1 h
  have hget := get_mergeMessageTimestamp hsrc hus h
  refine ⟨?_, by rw [hc']; rfl⟩
  funext id
  rw [nameOf, nameOf, hget]
  split
  · rename_i hid
    rw [hid, hus]
    rfl
  · split
    · rename_i hid
      rw [hid, hsrc]
      rfl
    · rfl

/-- What a message does to the members: nobody comes in, or the one it invites.  In the second case
the id is new to the chat and below the author's, and the host can only become the invited. -/
inductive Admits (c : Chat) (signed : SignedMessage) (u : ChatUpdate) : Prop
  | nobody (names : u.state.nameOf = c.nameOf) (host : u.state.host = c.host)
      (log : invitations u.newMessages = [])
  | invited {id : MemberId} {username : String} (invites : invitation signed = some (id, username))
      (new : c.nameOf id = none) (parent : id.parent = .ok signed.msg.author)
      (names : u.state.nameOf = Function.update c.nameOf id (some username))
      (host : u.state.host = c.host ∨
        (u.state.host = id ∧ c.nameOf c.host = some username))
      (log : invitations u.newMessages = [(id, username)])

/-- What comes after the message changes neither the names nor the host. -/
theorem Admits.withState (h : Admits c signed u) (hnames : c'.nameOf = u.state.nameOf)
    (hhost : c'.host = u.state.host) : Admits c signed (u.withState c') := by
  cases h with
  | nobody names host log => exact .nobody (hnames.trans names) (hhost.trans host) log
  | invited invites new parent names host log =>
      refine .invited invites new parent (hnames.trans names) ?_ log
      show c'.host = c.host ∨ (c'.host = _ ∧ _)
      rw [hhost]
      exact host

theorem Admits.invitation_eq (h : Admits c signed u) {e : MemberId × String}
    (he : e ∈ invitations u.newMessages) : invitation signed = some e := by
  cases h with
  | nobody names host log =>
      rw [log] at he
      cases he
  | invited invites new parent names host log =>
      rw [log] at he
      rw [List.mem_singleton.1 he]
      exact invites

theorem mergeMessageWith_admits (hhost : c.members.get host.id = some host)
    (happly : ∀ v, apply c signed = .ok v → Admits c signed v)
    (h : mergeMessageWith env apply c signed host = .ok u) : Admits c signed u := by
  obtain ⟨author, -, ⟨-, -, v, state, hv, hstate, rfl⟩ | ⟨-, rfl⟩⟩ := mergeMessageWith_cases h
  · obtain ⟨hnames, hsame⟩ := mergeMessageTimestamp_nameOf hstate
    exact (happly v hv).withState hnames hsame
  · exact .nobody (nameOf_replace _ hhost rfl) rfl rfl

theorem withInvited_nameOf (record : Member) (msg : MessageEnvelope)
    (hauthor : c.members.get author.id = some author) :
    (c.withInvited msg author record).nameOf =
      Function.update c.nameOf record.id (some record.username) := by
  funext id'
  have hname := nameOf_replace author.incrementInvited hauthor rfl
  show ((c.withMembers (c.members.insert author.id author.incrementInvited)).withMembers
    ((c.withMembers (c.members.insert author.id author.incrementInvited)).members.insert record.id
      record)).nameOf id' = _
  rw [nameOf_insert, hname, Function.update_apply]

theorem applyMessageFuel_admits (fuel : ℕ) (hk : KeyedById c.members)
    (h : applyMessageFuel env userIdentity fuel c signed = .ok u) : Admits c signed u := by
  induction fuel generalizing c signed u with
  | zero => cases h
  | succ fuel ih =>
      obtain ⟨author, hauthor, h⟩ := applyMessageWith_cases h
      have hid : author.id = signed.msg.author := hk _ _ hauthor
      have hauthor' : c.members.get author.id = some author := hid ▸ hauthor
      have hquiet : (∀ username identity id, signed.msg.payload ≠ .invite username identity id) →
          invitations [signed] = [] := by
        intro hnot
        rw [invitations_singleton]
        unfold invitation
        split
        · rename_i username identity id hp
          exact absurd hp (hnot username identity id)
        · rfl
      cases h with
      | @invited username identity newMember inviter us payload new parent inviterIs hostIs other =>
          have hinvites : invitation signed = some (newMember, username) :=
            invitation_eq_some.2 ⟨identity, payload⟩
          refine .invited hinvites (nameOf_eq_none.2 new) (hid ▸ parent)
            (withInvited_nameOf _ _ hauthor') (Or.inl rfl) ?_
          show invitations [signed] = _
          rw [invitations_singleton, hinvites]
          rfl
      | @reinvited username identity newMember inviter us invite sent payload new parent inviterIs
          hostIs again inviteIs sends =>
          have hinvites : invitation signed = some (newMember, username) :=
            invitation_eq_some.2 ⟨identity, payload⟩
          have hgrow : c.Grows invite.state := by
            rw [inviteIs]
            exact withInvited_grows signed.msg hk hauthor' (by exact new)
          have hnames : invite.state.nameOf =
              Function.update c.nameOf newMember (some username) := by
            rw [inviteIs]
            exact withInvited_nameOf _ _ hauthor'
          have hlog : invitations invite.newMessages = [(newMember, username)] := by
            rw [inviteIs]
            show invitations [signed] = _
            rw [invitations_singleton, hinvites]
            rfl
          have hhost : c.nameOf c.host = some username := by
            rw [nameOf, hostMember_eq_ok.1 hostIs, Option.map_some, again.1]
          -- the Join that is sent admits nobody
          obtain ⟨joiner, hjoiner, hmerge⟩ := sendMessageRefsWith_eq_ok.1 sends
          have hsent := mergeMessageWith_admits (c := invite.state.rejoining newMember)
            (hgrow.keyed _ _ hjoiner ▸ hjoiner) (fun v hv => ih hgrow.keyed hv) hmerge
          cases hsent with
          | invited invites => cases invites
          | nobody snames shost slog =>
              refine .invited hinvites (nameOf_eq_none.2 new) (hid ▸ parent)
                (Eq.trans snames hnames) (Or.inr ⟨shost, hhost⟩) ?_
              show invitations (invite.newMessages ++ sent.newMessages) = _
              rw [invitations_append, slog, hlog, List.append_nil]
      | @joined username identity key proof chatIdPublic payload first owned verified =>
          exact .nobody (nameOf_replace (author.withChatId proof) hauthor' rfl) rfl
            (hquiet (by simp [payload]))
      | property payload =>
          unfold applyGroupState
          split <;> exact .nobody rfl rfl (hquiet (by simp [payload]))
      | @removed id m us payload may memberIs hostIs =>
          exact .nobody (nameOf_replace (m.setRemoved true) memberIs rfl) rfl
            (hquiet (by simp [payload]))
      | foreign => exact .nobody rfl rfl rfl
      | noted notInvite => exact .nobody rfl rfl (hquiet notInvite)

theorem mergeMessage_admits (hk : KeyedById c.members)
    (hhost : c.members.get host.id = some host)
    (h : mergeMessage env userIdentity c signed host = .ok u) : Admits c signed u :=
  mergeMessageWith_admits hhost (fun _ => applyMessageFuel_admits 2 hk) h

/-- A member that is not removed does not become another by what it sends. -/
theorem mergeMessage_host_of_own (hown : signed.msg.author = c.host)
    (h : mergeMessage env userIdentity c signed host = .ok u) : u.state.host = c.host := by
  obtain ⟨author, hauthor, ⟨hacc, -, v, state, hv, hstate, rfl⟩ | ⟨-, rfl⟩⟩ :=
    mergeMessageWith_cases h
  · have hkeeps : c.KeepsHost signed := by
      intro username identity id us _ hus hre
      rw [← hown, hauthor] at hus
      cases hus
      exact absurd (hacc.2.symm.trans hre.2) (by decide)
    exact (mergeMessageTimestamp_nameOf hstate).2.trans (applyMessageFuel_plain hv hkeeps).1
  · rfl

end Chat

/-! ## The copies of a chat -/

/-- The copies of a chat, by the name of the user that holds each. -/
abbrev ChatWorld := String → Option LocalChat

namespace ChatWorld

open Chat

/-- What the call reads is there: a merge is fed with messages of the logs of copies. -/
def Offers (W : ChatWorld) : ChatCall → Prop
  | .merge _ _ store => ∀ s ∈ store, ∃ name r, W name = some r ∧ s ∈ r.log
  | _ => True

/-- A user without a copy clones one, or a user calls an operation on its own. -/
inductive Step : ChatWorld → ChatWorld → Prop
  | clone {W : ChatWorld} {name other : String} {source r : LocalChat}
      {user : SigningPrivateKeyAndPublicHash} {priv : PrivateChatState} (new : W name = none)
      (holds : W other = some source) (clones : source.clone user name priv = .ok r) :
      Step W (Function.update W name (some r))
  | call {W : ChatWorld} {name : String} {r : LocalChat} {call : ChatCall} {u : ChatUpdate}
      (holds : W name = some r) (offers : W.Offers call) (runs : r.run call = .ok u) :
      Step W (Function.update W name (some (r.commit u)))

/-- The copies of a chat that somebody created, after any steps. -/
inductive Reached : ChatWorld → Prop
  | create (user : SigningPrivateKeyAndPublicHash) (uid name : String) (priv : PrivateChatState) :
      Reached (Function.update (fun _ => none) name (some (.create user uid name priv)))
  | step {W W' : ChatWorld} (reached : Reached W) (steps : Step W W') : Reached W'

/-! ### Who an id was given to -/

/-- `reg` knows every id that is in use, or was ever given out in an invitation, and the name it was
given to.  What was given out below an id is a member in the copy of the user under that id. -/
structure Registered (W : ChatWorld) (reg : MemberId → Option String) : Prop where
  hosted : ∀ name r, W name = some r → r.chat.Hosted
  host : ∀ name r, W name = some r → reg r.chat.host = some name
  members : ∀ name r id username, W name = some r → r.chat.nameOf id = some username →
    reg id = some username
  log : ∀ name r e, W name = some r → e ∈ invitations r.log → reg e.1 = some e.2
  below : ∀ id p, reg id ≠ none → id.parent = .ok p → p ≠ [] →
    ∃ name r, reg p = some name ∧ W name = some r ∧ r.chat.nameOf id ≠ none

variable {W W' : ChatWorld} {reg reg' : MemberId → Option String} {name : String} {r r' : LocalChat}

/-- The second registry has what the first has. -/
def Extends (reg reg' : MemberId → Option String) : Prop :=
  ∀ id username, reg id = some username → reg' id = some username

theorem Extends.trans {reg'' : MemberId → Option String} (h : Extends reg reg')
    (h' : Extends reg' reg'') : Extends reg reg'' :=
  fun id username hid => h' id username (h id username hid)

/-- One copy is put in, or replaced by one that has all its members. -/
theorem Registered.update (h : Registered W reg) (hle : Extends reg reg')
    (hosted : r'.chat.Hosted) (hhost : reg' r'.chat.host = some name)
    (hmembers : ∀ id username, r'.chat.nameOf id = some username → reg' id = some username)
    (hlog : ∀ e ∈ invitations r'.log, reg' e.1 = some e.2)
    (hkeeps : ∀ r, W name = some r → ∀ id, r.chat.nameOf id ≠ none → r'.chat.nameOf id ≠ none)
    (hnew : ∀ id p, reg' id ≠ none → reg id = none → id.parent = .ok p → p ≠ [] →
      reg' p = some name ∧ r'.chat.nameOf id ≠ none) :
    Registered (Function.update W name (some r')) reg' := by
  have hat : ∀ name₀ r₀, Function.update W name (some r') name₀ = some r₀ →
      (name₀ = name ∧ r₀ = r') ∨ (name₀ ≠ name ∧ W name₀ = some r₀) := by
    intro name₀ r₀ h₀
    rw [Function.update_apply] at h₀
    split at h₀
    · rename_i heq
      cases h₀
      exact Or.inl ⟨heq, rfl⟩
    · rename_i hne
      exact Or.inr ⟨hne, h₀⟩
  refine ⟨?_, ?_, ?_, ?_, ?_⟩
  · intro name₀ r₀ h₀
    obtain ⟨rfl, rfl⟩ | ⟨-, h₀⟩ := hat name₀ r₀ h₀
    · exact hosted
    · exact h.hosted name₀ r₀ h₀
  · intro name₀ r₀ h₀
    obtain ⟨rfl, rfl⟩ | ⟨-, h₀⟩ := hat name₀ r₀ h₀
    · exact hhost
    · exact hle _ _ (h.host name₀ r₀ h₀)
  · intro name₀ r₀ id username h₀ hid
    obtain ⟨rfl, rfl⟩ | ⟨-, h₀⟩ := hat name₀ r₀ h₀
    · exact hmembers id username hid
    · exact hle _ _ (h.members name₀ r₀ id username h₀ hid)
  · intro name₀ r₀ e h₀ he
    obtain ⟨rfl, rfl⟩ | ⟨-, h₀⟩ := hat name₀ r₀ h₀
    · exact hlog e he
    · exact hle _ _ (h.log name₀ r₀ e h₀ he)
  · intro id p hid hparent hp
    cases hreg : reg id with
    | none =>
        obtain ⟨howner, hmember⟩ := hnew id p hid hreg hparent hp
        exact ⟨name, r', howner, Function.update_self _ _ _, hmember⟩
    | some username =>
        obtain ⟨name₀, r₀, howner, h₀, hmember⟩ := h.below id p (by simp [hreg]) hparent hp
        by_cases hname : name₀ = name
        · subst hname
          exact ⟨name₀, r', hle _ _ howner, Function.update_self _ _ _, hkeeps r₀ h₀ id hmember⟩
        · exact ⟨name₀, r₀, hle _ _ howner, by rw [Function.update_of_ne hname, h₀], hmember⟩

/-- A copy is replaced by one with the same members, host and log. -/
theorem Registered.same (h : Registered W reg) (hr : W name = some r) (hosted : r'.chat.Hosted)
    (hnames : r'.chat.nameOf = r.chat.nameOf) (hhost : r'.chat.host = r.chat.host)
    (hlog : r'.log = r.log) : Registered (Function.update W name (some r')) reg := by
  refine h.update (fun _ _ hid => hid) hosted ?_ ?_ ?_ ?_ ?_
  · rw [hhost]
    exact h.host name r hr
  · rw [hnames]
    exact fun id username => h.members name r id username hr
  · rw [hlog]
    exact fun e => h.log name r e hr
  · intro r₀ hr₀ id hid
    rw [hr] at hr₀
    cases hr₀
    rw [hnames]
    exact hid
  · exact fun id p hid hnone => absurd hnone hid

/-- An id below the host's that its copy does not have was never given out. -/
theorem Registered.fresh (h : Registered W reg) (hr : W name = some r) {id : MemberId}
    (hparent : id.parent = .ok r.chat.host) (hnew : r.chat.nameOf id = none) : reg id = none := by
  by_contra hid
  have hroot : r.chat.host ≠ [] := by
    intro hempty
    obtain ⟨us, hus⟩ := (h.hosted name r hr).host
    rw [hempty, (h.hosted name r hr).root] at hus
    cases hus
  obtain ⟨name₀, r₀, howner, hr₀, hmember⟩ := h.below id r.chat.host hid hparent hroot
  rw [h.host name r hr] at howner
  cases howner
  rw [hr] at hr₀
  cases hr₀
  exact hmember hnew

/-- The copy `r` once it has advanced to a chat and a log. -/
def copyAt (r : LocalChat) (c : Chat) (log : List SignedMessage) : LocalChat :=
  ⟨r.user, c, log, r.priv⟩

/-- The world in which the copy of a user has advanced. -/
def withCopy (W : ChatWorld) (name : String) (r : LocalChat) (c : Chat) (log : List SignedMessage) :
    ChatWorld :=
  Function.update W name (some (copyAt r c log))

theorem withCopy_self (W : ChatWorld) (name : String) (r : LocalChat) (c : Chat)
    (log : List SignedMessage) : withCopy W name r c log name = some (copyAt r c log) :=
  Function.update_self _ _ _

theorem withCopy_of_holds (hr : W name = some r) : withCopy W name r r.chat r.log = W :=
  Function.update_eq_self_iff.2 hr.symm

theorem withCopy_withCopy (W : ChatWorld) (name : String) (r : LocalChat) (c c' : Chat)
    (log log' : List SignedMessage) :
    withCopy (withCopy W name r c log) name (copyAt r c log) c' log' = withCopy W name r c' log' :=
  Function.update_idem _ _ _

section

variable {env : ChatEnv} {user : SigningPrivateKeyAndPublicHash} {signed : SignedMessage}
  {mirror : Member} {u : ChatUpdate}

/-- A message admits only an id that is registered, or becomes so. -/
theorem Registered.admitting (h : Registered W reg) (hr : W name = some r) (hle : Extends reg reg')
    (hosted : u.state.Hosted) (hadmits : Admits r.chat signed u)
    (hknown : ∀ e ∈ invitations u.newMessages, reg' e.1 = some e.2)
    (hnew : ∀ id p, reg' id ≠ none → reg id = none → id.parent = .ok p → p ≠ [] →
      reg' p = some name ∧ u.state.nameOf id ≠ none) :
    Registered (withCopy W name r u.state (r.log ++ u.newMessages)) reg' := by
  have hmembers := fun id username hid => hle _ _ (h.members name r id username hr hid)
  have hlog := fun e he => hle _ _ (h.log name r e hr he)
  cases hadmits with
  | nobody names host log =>
      refine h.update hle hosted ?_ ?_ ?_ ?_ hnew
      · show reg' u.state.host = _
        rw [host]
        exact hle _ _ (h.host name r hr)
      · show ∀ id username, u.state.nameOf id = _ → _
        rw [names]
        exact hmembers
      · show ∀ e ∈ invitations (r.log ++ u.newMessages), _
        rw [invitations_append, log, List.append_nil]
        exact hlog
      · intro r₀ hr₀ id hid
        rw [hr] at hr₀
        cases hr₀
        show u.state.nameOf id ≠ none
        rw [names]
        exact hid
  | @invited id username invites new parent names host log =>
      have hid := hknown (id, username) (by simp [log])
      refine h.update hle hosted ?_ ?_ ?_ ?_ hnew
      · show reg' u.state.host = some name
        obtain hhost | ⟨hhost, hname⟩ := host
        · rw [hhost]
          exact hle _ _ (h.host name r hr)
        · -- the host goes by the same name under its new id
          have hsame := h.members name r _ _ hr hname
          rw [h.host name r hr] at hsame
          cases hsame
          rw [hhost]
          exact hid
      · intro id' username' hid'
        have hid' : u.state.nameOf id' = some username' := hid'
        rw [names, Function.update_apply] at hid'
        split at hid'
        · rename_i heq
          cases hid'
          rw [heq]
          exact hid
        · exact hmembers id' username' hid'
      · show ∀ e ∈ invitations (r.log ++ u.newMessages), _
        rw [invitations_append, log]
        intro e he
        rcases List.mem_append.1 he with he | he
        · exact hlog e he
        · cases List.mem_singleton.1 he
          exact hid
      · intro r₀ hr₀ id' hid'
        rw [hr] at hr₀
        cases hr₀
        show u.state.nameOf id' ≠ none
        rw [names, Function.update_apply]
        split
        · simp
        · exact hid'

/-- A message whose invitation is registered is merged. -/
theorem Registered.merge (h : Registered W reg) (hr : W name = some r)
    (hmirror : r.chat.members.get mirror.id = some mirror)
    (hu : r.chat.mergeMessage env user signed mirror = .ok u)
    (hknown : ∀ e, invitation signed = some e → reg e.1 = some e.2) :
    Registered (withCopy W name r u.state (r.log ++ u.newMessages)) reg :=
  have hosted := h.hosted name r hr
  have hadmits := mergeMessage_admits hosted.keyed hmirror hu
  h.admitting hr (fun _ _ hid => hid) (LocalChat.mergeMessage_hosted hosted hmirror hu)
    hadmits (fun e he => hknown e (hadmits.invitation_eq he)) fun _ _ hid hnone => absurd hnone hid

/-- A message of the host's own is merged: what it invites is registered with it. -/
theorem Registered.send (h : Registered W reg) (hr : W name = some r)
    (hmirror : r.chat.members.get mirror.id = some mirror)
    (hu : r.chat.mergeMessage env user signed mirror = .ok u)
    (hown : signed.msg.author = r.chat.host) :
    ∃ reg', Extends reg reg' ∧
      Registered (withCopy W name r u.state (r.log ++ u.newMessages)) reg' ∧
      (invitations u.newMessages = [] ∨ ∃ e, invitations u.newMessages = [e] ∧
        reg e.1 = none ∧ reg' e.1 = some e.2 ∧ e.1.parent = .ok r.chat.host) := by
  have hosted := h.hosted name r hr
  have hosted' := LocalChat.mergeMessage_hosted hosted hmirror hu
  have hadmits := mergeMessage_admits hosted.keyed hmirror hu
  have hcopy := hadmits
  cases hcopy with
  | nobody names host log =>
      refine ⟨reg, fun _ _ hid => hid, ?_, Or.inl log⟩
      exact h.admitting hr (fun _ _ hid => hid) hosted' hadmits (by simp [log])
        fun _ _ hid hnone => absurd hnone hid
  | @invited id username invites new parent names host log =>
      rw [hown] at parent
      have hfresh := h.fresh hr parent new
      have hle : Extends reg (Function.update reg id (some username)) := by
        intro id' username' hid'
        rw [Function.update_of_ne _]
        · exact hid'
        · rintro rfl
          rw [hfresh] at hid'
          cases hid'
      refine ⟨Function.update reg id (some username), hle, ?_, Or.inr ⟨(id, username), log, hfresh,
        Function.update_self _ _ _, parent⟩⟩
      refine h.admitting hr hle hosted' hadmits ?_ ?_
      · intro e he
        rw [log] at he
        rw [List.mem_singleton.1 he]
        exact Function.update_self _ _ _
      · intro id' p hid' hnone hparent _
        have hsame : id' = id := by
          by_contra hne
          exact hid' ((Function.update_of_ne hne _ _).trans hnone)
        subst hsame
        rw [parent] at hparent
        cases hparent
        refine ⟨hle _ _ (h.host name r hr), ?_⟩
        rw [names, Function.update_self]
        simp

end

/-! ### Calls -/

theorem Registered.withTime {c : Chat} {log : List SignedMessage}
    (h : Registered (withCopy W name r c log) reg) (time : TreeClock) :
    Registered (withCopy W name r (c.withTime time) log) reg := by
  have hosted := h.hosted name _ (withCopy_self W name r c log)
  have hsame : Registered (withCopy (withCopy W name r c log) name (copyAt r c log)
      (c.withTime time) log) reg :=
    h.same (withCopy_self W name r c log) ⟨hosted.keyed, hosted.host, hosted.root⟩ rfl rfl rfl
  rw [withCopy_withCopy] at hsame
  exact hsame

/-- The copy has advanced by messages that invite ids given out for the first time, one each. -/
def GivesOut (W : ChatWorld) (reg : MemberId → Option String) (name : String) (r : LocalChat)
    (c : Chat) (log : List SignedMessage) : Prop :=
  ∃ reg' new, log = r.log ++ new ∧ Extends reg reg' ∧ Registered (withCopy W name r c log) reg' ∧
    c.host = r.chat.host ∧ ((invitations new).map Prod.fst).Nodup ∧
    ∀ e ∈ invitations new, reg e.1 = none ∧ reg' e.1 = some e.2 ∧ e.1.parent = .ok r.chat.host

theorem GivesOut.send {c : Chat} {log : List SignedMessage} {env : ChatEnv}
    {user : SigningPrivateKeyAndPublicHash} {signed : SignedMessage} {us : Member} {u : ChatUpdate}
    (h : GivesOut W reg name r c log) (hus : c.members.get c.host = some us)
    (hown : signed.msg.author = c.host) (hu : c.mergeMessage env user signed us = .ok u) :
    GivesOut W reg name r u.state (log ++ u.newMessages) := by
  obtain ⟨reg₁, new, hlog, hle, hreg, hhost, hnodup, hnew⟩ := h
  have hself := withCopy_self W name r c log
  have hkeyed : KeyedById c.members := (hreg.hosted name _ hself).keyed
  obtain ⟨reg₂, hle₂, hreg₂, hsent⟩ := hreg.send hself (hkeyed _ _ hus ▸ hus) hu hown
  rw [withCopy_withCopy] at hreg₂
  refine ⟨reg₂, new ++ u.newMessages, by rw [hlog, List.append_assoc], hle.trans hle₂, hreg₂,
    (mergeMessage_host_of_own hown hu).trans hhost, ?_, ?_⟩
  · rw [invitations_append, List.map_append]
    obtain hnone | ⟨e, he, hfresh, -⟩ := hsent
    · rw [hnone, List.map_nil, List.append_nil]
      exact hnodup
    · rw [he, List.nodup_append]
      refine ⟨hnodup, List.nodup_singleton _, ?_⟩
      rintro id hid id' hid' rfl
      obtain ⟨e', he', rfl⟩ := List.mem_map.1 hid
      have hsame : e'.1 = e.1 := by simpa using hid'
      have hgiven := (hnew e' he').2.1
      rw [hsame, hfresh] at hgiven
      cases hgiven
  · rw [invitations_append]
    intro e he
    rcases List.mem_append.1 he with he | he
    · exact ⟨(hnew e he).1, hle₂ _ _ (hnew e he).2.1, (hnew e he).2.2⟩
    · obtain hnone | ⟨e', he', hfresh, hgiven, hparent⟩ := hsent
      · rw [hnone] at he
        cases he
      · rw [he'] at he
        cases List.mem_singleton.1 he
        refine ⟨?_, hgiven, hhost ▸ hparent⟩
        by_contra hne
        obtain ⟨username, husername⟩ := Option.ne_none_iff_exists'.1 hne
        rw [hle _ _ husername] at hfresh
        cases hfresh

/-- A call that is not a merge gives out only new ids. -/
theorem run_givesOut (h : Registered W reg) (hr : W name = some r) {call : ChatCall}
    {u : ChatUpdate} (hcall : ∀ env mirror store, call ≠ .merge env mirror store)
    (hrun : r.run call = .ok u) :
    GivesOut W reg name r u.state (r.log ++ u.newMessages) := by
  refine LocalChat.run_keeps (fun _ _ _ => False) (GivesOut W reg name r) ?_ ?_ ?_ ?_ ?_ hrun
  · rintro c log time ⟨reg', new, hlog, hle, hreg, hrest⟩
    exact ⟨reg', new, hlog, hle, hreg.withTime time, hrest⟩
  · intro env c log body signer refs us u hgives hus _ hu
    exact hgives.send hus rfl hu
  · intro env c log signed mirror host u _ _ hfalse
    exact hfalse.elim
  · cases call with
    | merge env mirror store => exact absurd rfl (hcall env mirror store)
    | send | invite | join => exact True.intro
  · refine ⟨reg, [], by simp, fun _ _ hid => hid, ?_, rfl, List.nodup_nil, by simp⟩
    rw [withCopy_of_holds hr]
    exact h

/-- A merge of messages of other copies brings in only registered ids. -/
theorem run_registered_of_merge (h : Registered W reg) (hr : W name = some r) {env : ChatEnv}
    {mirror : MemberId} {store : MessageStore} {u : ChatUpdate}
    (hoffers : W.Offers (.merge env mirror store))
    (hrun : r.run (.merge env mirror store) = .ok u) :
    ∃ reg', Extends reg reg' ∧
      Registered (withCopy W name r u.state (r.log ++ u.newMessages)) reg' := by
  refine LocalChat.run_keeps
    (fun _ signed _ => ∀ e, invitation signed = some e → reg e.1 = some e.2)
    (fun c log => ∃ reg', Extends reg reg' ∧ Registered (withCopy W name r c log) reg')
    ?_ ?_ ?_ ?_ ?_ hrun
  · exact fun c log time ⟨reg', hle, hreg⟩ => ⟨reg', hle, hreg.withTime time⟩
  · rintro env c log body signer refs us u ⟨reg₁, hle, hreg⟩ hus - hu
    have hself := withCopy_self W name r c log
    have hkeyed : KeyedById c.members := (hreg.hosted name _ hself).keyed
    obtain ⟨reg₂, hle₂, hreg₂, -⟩ := hreg.send hself (hkeyed _ _ hus ▸ hus) hu rfl
    rw [withCopy_withCopy] at hreg₂
    exact ⟨reg₂, hle.trans hle₂, hreg₂⟩
  · rintro env c log signed mirror host u ⟨reg', hle, hreg⟩ hhost hknown hu
    have hself := withCopy_self W name r c log
    have hkeyed : KeyedById c.members := (hreg.hosted name _ hself).keyed
    have hreg' := hreg.merge hself (hkeyed _ _ hhost ▸ hhost) hu
      fun e he => hle _ _ (hknown e he)
    rw [withCopy_withCopy] at hreg'
    exact ⟨reg', hle, hreg'⟩
  · intro host hhost
    refine Outcome.Along.of_forall ?_ _
    intro signed hsigned _ e he
    obtain ⟨name', r', hr', hlog⟩ := hoffers signed (List.mem_of_mem_drop hsigned)
    refine h.log name' r' e hr' ?_
    rw [invitations, List.mem_filterMap]
    exact ⟨signed, hlog, he⟩
  · refine ⟨reg, fun _ _ hid => hid, ?_⟩
    rw [withCopy_of_holds hr]
    exact h

theorem run_registered (h : Registered W reg) (hr : W name = some r) {call : ChatCall}
    {u : ChatUpdate} (hoffers : W.Offers call) (hrun : r.run call = .ok u) :
    ∃ reg', Registered (Function.update W name (some (r.commit u))) reg' := by
  have hadvances : ∃ reg', Extends reg reg' ∧
      Registered (withCopy W name r u.state (r.log ++ u.newMessages)) reg' := by
    by_cases hmerge : ∃ env mirror store, call = .merge env mirror store
    · obtain ⟨env, mirror, store, rfl⟩ := hmerge
      exact run_registered_of_merge h hr hoffers hrun
    · obtain ⟨reg', -, -, hle, hreg, -⟩ := run_givesOut h hr (by simpa using hmerge) hrun
      exact ⟨reg', hle, hreg⟩
  obtain ⟨reg', -, hreg⟩ := hadvances
  have hself := withCopy_self W name r u.state (r.log ++ u.newMessages)
  -- the commit can also replace the private part of the copy
  have hosted := hreg.hosted name _ hself
  have hsame : Registered (Function.update (withCopy W name r u.state (r.log ++ u.newMessages)) name
      (some (r.commit u))) reg' := hreg.same hself hosted rfl rfl rfl
  rw [withCopy, Function.update_idem] at hsame
  exact ⟨reg', hsame⟩

theorem getMember_username {c : Chat} {username : String} {m : Member}
    (h : c.getMember username = some m) : m.username = username := by
  unfold Chat.getMember at h
  rw [Option.or_eq_some_iff] at h
  have hmem : m ∈ c.members.values.filter fun m => m.username = username := by
    rcases h with h | ⟨-, h⟩
    · exact List.mem_of_find?_eq_some h
    · exact List.mem_of_mem_head? h
  simpa using (List.mem_filter.1 hmem).2

theorem clone_registered {other : String} {source : LocalChat}
    {user : SigningPrivateKeyAndPublicHash} {priv : PrivateChatState} (h : Registered W reg)
    (hnew : W name = none) (hsource : W other = some source)
    (hclone : source.clone user name priv = .ok r) :
    Registered (Function.update W name (some r)) reg := by
  have hosted := LocalChat.clone_hosted (h.hosted other source hsource) hclone
  obtain ⟨m, host, hm, -, -, rfl⟩ := LocalChat.clone_eq_ok.1 hclone
  have hname := getMember_username hm
  obtain ⟨id, hid⟩ := LocalChat.getMember_mem hm
  have hmid : m.id = id := (h.hosted other source hsource).keyed _ _ hid
  subst hmid
  have hreg : reg m.id = some name :=
    h.members other source m.id name hsource (by rw [nameOf, hid, Option.map_some, hname])
  have hnames := nameOf_replace (⟨name, m.id, user.publicKeyHash, none,
    host.messagesMergedUpto, 0, false⟩) hid hname.symm
  refine h.update (fun _ _ hid => hid) hosted hreg ?_ (fun e he => h.log other source e hsource he)
    ?_ fun _ _ hid hnone => absurd hnone hid
  · intro id username hid
    exact h.members other source id username hsource ((congrFun hnames id).symm.trans hid)
  · intro r₀ hr₀
    rw [hnew] at hr₀
    cases hr₀

theorem create_registered (user : SigningPrivateKeyAndPublicHash) (uid name : String)
    (priv : PrivateChatState) :
    Registered (Function.update (fun _ => none) name (some (.create user uid name priv)))
      (Function.update (fun _ => none) .creator (some name)) := by
  have hself : Function.update (fun _ => none) MemberId.creator (some name) .creator = some name :=
    Function.update_self _ _ _
  have hchat : ∀ id username, (Chat.createNew uid name user.publicKeyHash).nameOf id =
      some username → id = .creator ∧ username = name := by
    intro id username hid
    rw [nameOf, LocalChat.get_createNew] at hid
    split at hid
    · rename_i heq
      cases hid
      exact ⟨heq, rfl⟩
    · cases hid
  have hat : ∀ name₀ r₀, Function.update (fun _ => none) name
      (some (LocalChat.create user uid name priv)) name₀ = some r₀ →
      name₀ = name ∧ r₀ = .create user uid name priv := by
    intro name₀ r₀ h₀
    rw [Function.update_apply] at h₀
    split at h₀
    · rename_i heq
      cases h₀
      exact ⟨heq, rfl⟩
    · cases h₀
  refine ⟨?_, ?_, ?_, ?_, ?_⟩
  · intro name₀ r₀ h₀
    obtain ⟨rfl, rfl⟩ := hat name₀ r₀ h₀
    exact LocalChat.createNew_hosted uid name₀ user.publicKeyHash
  · intro name₀ r₀ h₀
    obtain ⟨rfl, rfl⟩ := hat name₀ r₀ h₀
    exact hself
  · intro name₀ r₀ id username h₀ hid
    obtain ⟨rfl, rfl⟩ := hat name₀ r₀ h₀
    obtain ⟨rfl, rfl⟩ := hchat id username hid
    exact hself
  · intro name₀ r₀ e h₀ he
    obtain ⟨rfl, rfl⟩ := hat name₀ r₀ h₀
    cases he
  · intro id p hid hparent hp
    have hsame : id = .creator := by
      by_contra hne
      exact hid (Function.update_of_ne hne _ _)
    subst hsame
    cases hparent
    exact absurd rfl hp

theorem reached_registered (h : Reached W) : ∃ reg, Registered W reg := by
  induction h with
  | create user uid name priv => exact ⟨_, create_registered user uid name priv⟩
  | step reached steps ih =>
      obtain ⟨reg, hreg⟩ := ih
      cases steps with
      | clone new holds clones => exact ⟨reg, clone_registered hreg new holds clones⟩
      | call holds offers runs => exact run_registered hreg holds offers runs

/-- **Invited ids are unique.**  The ids that an invitation gives out, all of them below the
inviter's, differ from each other, from the id of every member that any copy knows, and from every
id in an invitation of any log. -/
theorem invited_ids_unique {W : ChatWorld} (h : Reached W) {name : String} {r : LocalChat}
    (hr : W name = some r) {env : ChatEnv} {invited : List (String × PublicKeyHash)}
    {u : ChatUpdate} (hrun : r.run (.invite env invited) = .ok u) :
    ((invitations u.newMessages).map Prod.fst).Nodup ∧
      ∀ e ∈ invitations u.newMessages, (∃ k, e.1 = r.chat.host.fork k) ∧
        ∀ name' r', W name' = some r' →
          r'.chat.members.get e.1 = none ∧ e.1 ∉ (invitations r'.log).map Prod.fst := by
  obtain ⟨reg, hreg⟩ := reached_registered h
  obtain ⟨reg', new, hlog, -, -, -, hnodup, hnew⟩ := run_givesOut hreg hr (by simp) hrun
  rw [List.append_cancel_left hlog]
  refine ⟨hnodup, ?_⟩
  intro e he
  obtain ⟨hfresh, -, hparent⟩ := hnew e he
  refine ⟨MemberId.exists_fork_of_parent hparent, fun name' r' hr' => ⟨?_, ?_⟩⟩
  · rw [← nameOf_eq_none]
    by_contra hne
    obtain ⟨username, husername⟩ := Option.ne_none_iff_exists'.1 hne
    rw [hreg.members name' r' e.1 username hr' husername] at hfresh
    cases hfresh
  · intro hmem
    obtain ⟨e', he', hsame⟩ := List.mem_map.1 hmem
    rw [← hsame, hreg.log name' r' e' hr' he'] at hfresh
    cases hfresh

/-- A call, or nothing if it fails. -/
theorem Reached.after (h : Reached W) {r : LocalChat} (call : ChatCall) (hr : W name = some r)
    (hoffers : W.Offers call) : Reached (Function.update W name (some (r.after call))) := by
  unfold LocalChat.after
  cases hrun : r.run call with
  | ok u => exact h.step (.call hr hoffers hrun)
  | error e =>
      show Reached (Function.update W name (some r))
      rw [← hr, Function.update_eq_self]
      exact h

/-- Alice's chat and the copy Bob has made of it, as they stand. -/
def aliceAndBob (alice bob : LocalChat) : ChatWorld :=
  Function.update (Function.update (fun _ => none) "alice" (some alice)) "bob" (some bob)

theorem aliceAndBob_alice (alice bob : LocalChat) : aliceAndBob alice bob "alice" = some alice := rfl

theorem aliceAndBob_bob (alice bob : LocalChat) : aliceAndBob alice bob "bob" = some bob := rfl

theorem Reached.alice {alice bob : LocalChat} (h : Reached (aliceAndBob alice bob)) (call : ChatCall)
    (hoffers : (aliceAndBob alice bob).Offers call) :
    Reached (aliceAndBob (alice.after call) bob) := by
  have hcall := h.after call (aliceAndBob_alice alice bob) hoffers
  rwa [aliceAndBob, Function.update_comm (by decide), Function.update_idem] at hcall

theorem Reached.bob {alice bob : LocalChat} (h : Reached (aliceAndBob alice bob)) (call : ChatCall)
    (hoffers : (aliceAndBob alice bob).Offers call) :
    Reached (aliceAndBob alice (bob.after call)) := by
  have hcall := h.after call (aliceAndBob_bob alice bob) hoffers
  rwa [aliceAndBob, Function.update_idem] at hcall

/-- Bob has cloned and joined, and each has merged the other's log. -/
theorem reached_bothMerged : Reached (aliceAndBob aliceTitled bobMerged) := by
  have hcreated : Reached (Function.update (fun _ => none) "alice" (some aliceCreated)) :=
    .create (byteSigner 1) "chat" "alice" ⟨byteSigner 2, ⟨[2]⟩, ∅⟩
  have hjoined := hcreated.after (.join stillEnv) (Function.update_self _ _ _) trivial
  rw [Function.update_idem] at hjoined
  have hinvited := hjoined.after (.invite stillEnv [("bob", byteKey 3)])
    (Function.update_self _ _ _) trivial
  rw [Function.update_idem] at hinvited
  have hcloned : Reached (aliceAndBob aliceInvitedBob bobCloned) :=
    hinvited.step (.clone rfl (Function.update_self _ _ _) clone_bobCloned)
  have hbob : Reached (aliceAndBob aliceInvitedBob bobJoined) :=
    hcloned.bob (.join stillEnv) trivial
  have hmerged : Reached (aliceAndBob aliceMerged bobJoined) :=
    hbob.alice (.merge stillEnv [0, 0] bobJoined.log) fun s hs => ⟨"bob", bobJoined, rfl, hs⟩
  have htitled : Reached (aliceAndBob aliceTitled bobJoined) :=
    hmerged.alice (.send stillEnv (.groupState "title" "tea")) trivial
  exact htitled.bob (.merge stillEnv [0] aliceTitled.log) fun s hs => ⟨"alice", aliceTitled, rfl, hs⟩

/-- Bob's next invitation. -/
theorem invited_ids_unique_bothMerged :
    ∃ u, bobMerged.run (.invite stillEnv [("carol", byteKey 4), ("dave", byteKey 5)]) = .ok u ∧
      invitations u.newMessages = [([0, 0, 0], "carol"), ([0, 0, 1], "dave")] ∧
      ((invitations u.newMessages).map Prod.fst).Nodup ∧
      ∀ e ∈ invitations u.newMessages, aliceTitled.chat.members.get e.1 = none ∧
        e.1 ∉ (invitations aliceTitled.log).map Prod.fst := by
  obtain ⟨u, hu⟩ := exists_eq_ok
    (x := bobMerged.run (.invite stillEnv [("carol", byteKey 4), ("dave", byteKey 5)]))
    (by decide +kernel)
  have hids : ((bobMerged.run (.invite stillEnv [("carol", byteKey 4), ("dave", byteKey 5)])).map
      fun u => invitations u.newMessages).toOption =
      some [([0, 0, 0], "carol"), ([0, 0, 1], "dave")] := by
    decide +kernel
  rw [hu] at hids
  have hunique := invited_ids_unique reached_bothMerged (aliceAndBob_bob _ _) hu
  exact ⟨u, hu, Option.some.inj hids, hunique.1, fun e he =>
    (hunique.2 e he).2 "alice" aliceTitled (aliceAndBob_alice _ _)⟩

end ChatWorld

end Peergos
