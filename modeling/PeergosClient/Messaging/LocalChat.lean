import PeergosClient.Lib.Outcome
import PeergosClient.Messaging.Applying

/-!
# A member's copy of a chat

What a member keeps of a chat: the shared state, the log of messages, and the private state with the
key pair of its chat identity.  A call computes a `ChatUpdate` from them, and committing the update
appends its messages to the log.  A call that fails commits nothing.

A copy comes into being when a chat is created, or when an invited member clones the copy of
another.  `Held allowed` is a copy reached from there by calls that were allowed where they were
made.
-/

namespace Peergos

/-- A member's copy of a chat, with the identity of the member. -/
structure LocalChat where
  user : SigningPrivateKeyAndPublicHash
  chat : Chat
  log : List SignedMessage
  priv : PrivateChatState

/-- The calls that change a chat. -/
inductive ChatCall where
  /-- `ChatController::send_message`. -/
  | send (env : ChatEnv) (body : Message)
  /-- `ChatController::invite`. -/
  | invite (env : ChatEnv) (invited : List (String × PublicKeyHash))
  /-- `ChatController::join`. -/
  | join (env : ChatEnv)
  /-- `ChatController::merge_messages`, with the mirror's id and log. -/
  | merge (env : ChatEnv) (mirror : MemberId) (store : MessageStore)

namespace LocalChat

/-- The update a call computes. -/
def run (r : LocalChat) : ChatCall → Result ChatUpdate
  | .send env body => r.chat.sendMessage env body r.priv.chatIdentity r.user r.log
  | .invite env invited => r.chat.inviteMembers env invited r.priv.chatIdentity r.user r.log
  | .join env => do
      let host ← r.chat.hostMember
      r.chat.join env host (.build r.user r.priv.chatIdentity.publicKeyHash) r.priv.chatIdPublic
        r.user r.log
  | .merge env mirror store => r.chat.merge env mirror r.user store

/-- The copy once the update is committed. -/
def commit (r : LocalChat) (u : ChatUpdate) : LocalChat :=
  ⟨r.user, u.state, r.log ++ u.newMessages, u.privState.getD r.priv⟩

/-- A new chat, as `Messenger::init_chat` sets it up before the creator joins. -/
def create (user : SigningPrivateKeyAndPublicHash) (uid username : String)
    (priv : PrivateChatState) : LocalChat :=
  ⟨user, .createNew uid username user.publicKeyHash, [], priv⟩

/-- The copy an invited member makes of another's, as `Messenger::clone_locally_and_join` does
before it joins. -/
def clone (source : LocalChat) (user : SigningPrivateKeyAndPublicHash) (username : String)
    (priv : PrivateChatState) : Result LocalChat := do
  match source.chat.getMember username with
  | none => protocolErr "we are not a member of this chat"
  | some m =>
      let sourceHost ← source.chat.hostMember
      let chat ← source.chat.copy ⟨username, m.id, user.publicKeyHash, none,
        sourceHost.messagesMergedUpto, 0, false⟩
      pure ⟨user, chat, source.log, priv⟩

end LocalChat

/-- A copy of a chat reached by calls that were allowed. -/
inductive Held (allowed : LocalChat → ChatCall → Prop) : LocalChat → Prop
  | create (user : SigningPrivateKeyAndPublicHash) (uid username : String)
      (priv : PrivateChatState) : Held allowed (.create user uid username priv)
  | clone {source r : LocalChat} {user : SigningPrivateKeyAndPublicHash} {username : String}
      {priv : PrivateChatState} (held : Held allowed source)
      (clones : source.clone user username priv = .ok r) : Held allowed r
  | call {r : LocalChat} {call : ChatCall} {u : ChatUpdate} (held : Held allowed r)
      (ok : allowed r call) (runs : r.run call = .ok u) : Held allowed (r.commit u)

namespace LocalChat

theorem clone_eq_ok {source r : LocalChat} {user : SigningPrivateKeyAndPublicHash}
    {username : String} {priv : PrivateChatState} :
    source.clone user username priv = .ok r ↔
      ∃ m host, source.chat.getMember username = some m ∧
        source.chat.members.get source.chat.host = some host ∧
        source.chat.members.contains m.id = true ∧
        r = ⟨user, ⟨source.chat.chatUid, m.id, source.chat.current,
          source.chat.members.insert m.id ⟨username, m.id, user.publicKeyHash, none,
            host.messagesMergedUpto, 0, false⟩,
          source.chat.groupState, source.chat.recentMessages⟩, source.log, priv⟩ := by
  unfold clone
  cases hm : source.chat.getMember username with
  | none => simp [protocolErr]
  | some m =>
      dsimp only
      rw [bind_eq_ok]
      constructor
      · rintro ⟨host, hhost, h⟩
        obtain ⟨chat, hchat, h⟩ := bind_eq_ok.1 h
        cases h
        unfold Chat.copy at hchat
        split at hchat
        · cases hchat
        · rename_i hcontains
          cases hchat
          rw [Bool.not_eq_true, Bool.not_eq_false'] at hcontains
          exact ⟨m, host, rfl, Chat.hostMember_eq_ok.1 hhost, hcontains, rfl⟩
      · rintro ⟨m', host, hm', hhost, hcontains, rfl⟩
        cases hm'
        refine ⟨host, Chat.hostMember_eq_ok.2 hhost, ?_⟩
        rw [bind_eq_ok]
        refine ⟨_, ?_, rfl⟩
        unfold Chat.copy
        rw [if_neg (by rw [hcontains]; decide)]

/-! ## Invariants of a call -/

/-- Every message that the call merges from a mirror meets the condition where it is merged. -/
def MergesMeet (r : LocalChat) (cond : Chat → SignedMessage → MemberId → Prop) : ChatCall → Prop
  | .merge env mirror store =>
      ∀ host, r.chat.members.get mirror = some host →
        Outcome.Along (Chat.mergeStep env mirror r.user)
          (fun update msg => cond update.state msg mirror) (.empty r.chat)
          (store.getMessagesFrom host.messagesMergedUpto)
  | _ => True

instance (r : LocalChat) (cond : Chat → SignedMessage → MemberId → Prop)
    [∀ c signed mirror, Decidable (cond c signed mirror)] : ∀ call, Decidable (r.MergesMeet cond call)
  | .send _ _ => inferInstanceAs (Decidable True)
  | .invite _ _ => inferInstanceAs (Decidable True)
  | .join _ => inferInstanceAs (Decidable True)
  | .merge env mirror store =>
      inferInstanceAs (Decidable (∀ host ∈ r.chat.members.get mirror,
        Outcome.Along (Chat.mergeStep env mirror r.user)
          (fun update msg => cond update.state msg mirror) (.empty r.chat)
          (store.getMessagesFrom host.messagesMergedUpto)))

/-- The messages a member signs: with the key of its chat identity, or, to announce that key, with
its own identity. -/
def Signs (r : LocalChat) (body : Message) (signer : SigningPrivateKeyAndPublicHash) : Prop :=
  signer = r.priv.chatIdentity ∨
    (signer = r.user ∧ ∃ username identity, body = .join username identity
      (.build r.user r.priv.chatIdentity.publicKeyHash) r.priv.chatIdPublic)

/-- A property of the chat and its log is kept by every call if it does not depend on the clock and
is kept when a message of the member's own is merged and when one of a mirror is. -/
theorem run_keeps {r : LocalChat} {call : ChatCall} {u : ChatUpdate}
    (cond : Chat → SignedMessage → MemberId → Prop) (P : Chat → List SignedMessage → Prop)
    (htime : ∀ c log time, P c log → P (c.withTime time) log)
    (hown : ∀ env c log body signer refs us u, P c log → c.members.get c.host = some us →
      r.Signs body signer → c.mergeMessage env r.user (c.outgoing env body signer refs) us = .ok u →
      P u.state (log ++ u.newMessages))
    (hmirror : ∀ env c log signed mirror host u, P c log → c.members.get mirror = some host →
      cond c signed mirror → c.mergeMessage env r.user signed host = .ok u →
      P u.state (log ++ u.newMessages))
    (hmeets : r.MergesMeet cond call) (hstart : P r.chat r.log) (h : r.run call = .ok u) :
    P u.state (r.log ++ u.newMessages) := by
  have hempty : P (ChatUpdate.empty r.chat).state
      (r.log ++ (ChatUpdate.empty r.chat).newMessages) := by
    rw [ChatUpdate.empty, List.append_nil]
    exact hstart
  have hsend : ∀ {env c log body signer store u}, P c log → r.Signs body signer →
      Chat.sendMessage env c body signer r.user store = .ok u → P u.state (log ++ u.newMessages) := by
    intro env c log body signer store u hP hsigns h
    obtain ⟨us, refs, hus, h⟩ := Chat.sendMessage_eq_ok h
    exact hown env c log body signer refs us u hP hus hsigns h
  cases call with
  | send env body => exact hsend hstart (Or.inl rfl) h
  | invite env invited =>
      have hround : ∀ update (who : String × PublicKeyHash) update',
          P update.state (r.log ++ update.newMessages) → True →
          Chat.inviteStep env r.priv.chatIdentity r.user r.log update who = .ok update' →
          P update'.state (r.log ++ update'.newMessages) := by
        intro update who update' hP _ h
        obtain ⟨us, hus, h⟩ := bind_eq_ok.1 h
        obtain ⟨sent, hsent, h⟩ := bind_eq_ok.1 h
        cases h
        show P sent.state (r.log ++ (update.newMessages ++ sent.newMessages))
        rw [← List.append_assoc]
        exact hsend (htime _ _ _ hP) (Or.inl rfl) hsent
      exact Outcome.Along.inv (fun update => P update.state (r.log ++ update.newMessages)) hround
        (Outcome.Along.trivial _ _) hempty h
  | join env =>
      obtain ⟨us, hus, h⟩ := bind_eq_ok.1 h
      exact hsend (htime _ _ _ hstart) (Or.inr ⟨rfl, _, _, rfl⟩) h
  | merge env mirror store =>
      obtain ⟨host, hhost, h⟩ := Chat.merge_eq_ok.1 h
      have hround : ∀ update signed update', P update.state (r.log ++ update.newMessages) →
          cond update.state signed mirror →
          Chat.mergeStep env mirror r.user update signed = .ok update' →
          P update'.state (r.log ++ update'.newMessages) := by
        intro update signed update' hP hcond h
        obtain ⟨host, step, hhost, hstep, rfl⟩ := Chat.mergeStep_eq_ok.1 h
        show P step.state (r.log ++ (update.newMessages ++ step.newMessages))
        rw [← List.append_assoc]
        exact hmirror env update.state _ signed mirror host step hP hhost hcond hstep
      exact Outcome.Along.inv (fun update => P update.state (r.log ++ update.newMessages)) hround
        (hmeets host hhost) hempty h

/-- The copy after a call, which is the same if the call fails. -/
def after (r : LocalChat) (call : ChatCall) : LocalChat :=
  match r.run call with
  | .ok u => r.commit u
  | .error _ => r

theorem held_after {allowed : LocalChat → ChatCall → Prop} {r : LocalChat} {call : ChatCall}
    (h : Held allowed r) (hcall : allowed r call) : Held allowed (r.after call) := by
  unfold after
  cases hrun : r.run call with
  | ok u => exact h.call hcall hrun
  | error e => exact h

end LocalChat

/-! ## A chat of one -/

/-- A store with all keys, and a clock that stands still. -/
def stillEnv : ChatEnv :=
  ⟨fun _ => true, fun _ => 0, fun _ => [], fun _ => ⟨byteSigner 9, ⟨[9]⟩, ∅⟩⟩

/-- Alice's chat, just created. -/
def aliceCreated : LocalChat := .create (byteSigner 1) "chat" "alice" ⟨byteSigner 2, ⟨[2]⟩, ∅⟩

/-- Alice's chat once she has joined it. -/
def aliceJoined : LocalChat := aliceCreated.after (.join stillEnv)

/-! ## A chat of two -/

/-- Alice's chat once she has invited Bob. -/
def aliceInvitedBob : LocalChat := aliceJoined.after (.invite stillEnv [("bob", byteKey 3)])

/-- Bob's private state. -/
def bobPrivate : PrivateChatState := ⟨byteSigner 4, ⟨[4]⟩, ∅⟩

/-- The copy Bob makes of it. -/
def bobCloned : LocalChat :=
  (aliceInvitedBob.clone (byteSigner 3) "bob" bobPrivate).toOption.getD aliceInvitedBob

theorem clone_bobCloned : aliceInvitedBob.clone (byteSigner 3) "bob" bobPrivate = .ok bobCloned := by
  obtain ⟨r, hr⟩ := exists_eq_ok (x := aliceInvitedBob.clone (byteSigner 3) "bob" bobPrivate)
    (by decide +kernel)
  rw [bobCloned, hr]
  rfl

/-- Bob's copy once he has joined. -/
def bobJoined : LocalChat := bobCloned.after (.join stillEnv)

/-- Alice's chat once she has merged Bob's. -/
def aliceMerged : LocalChat := aliceInvitedBob.after (.merge stillEnv [0, 0] bobJoined.log)

/-- And has set the title. -/
def aliceTitled : LocalChat := aliceMerged.after (.send stillEnv (.groupState "title" "tea"))

/-- Bob's copy once he has merged hers in turn. -/
def bobMerged : LocalChat := bobJoined.after (.merge stillEnv [0] aliceTitled.log)

/-- Both have the same four messages. -/
example : aliceTitled.log.length = 4 ∧ bobMerged.log = aliceTitled.log := by decide +kernel

end Peergos
