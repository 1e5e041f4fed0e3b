import PeergosClient.Lib.Register
import PeergosClient.Messaging.Applying

/-!
# Convergence of the group state

The group properties of a chat are registers, one for each key, that `GroupState` messages contend
for.  A message is compared with the property it finds set: it replaces a property it has seen, and
of two concurrent ones that of the smaller id stays.  The admin list can only be replaced by one of
the admins it names.

The comparison is not transitive, so what a replica ends with can depend on the order in which the
messages reached it.  `Settled` is the condition under which it does not.
-/

namespace Peergos

/-! ## Messages that set a property -/

namespace SignedMessage

/-- The message sets the property `key`. -/
def sets (s : SignedMessage) (key : String) : Bool :=
  match s.msg.payload with
  | .groupState k _ => decide (k = key)
  | _ => false

/-- The message sets a property. -/
def isGroupState (s : SignedMessage) : Bool :=
  match s.msg.payload with
  | .groupState _ _ => true
  | _ => false

/-- The property the message sets. -/
def property (s : SignedMessage) : GroupProperty :=
  ⟨s.msg.author, s.msg.timestamp,
    match s.msg.payload with
    | .groupState _ value => value
    | _ => ""⟩

/-- The message `a` is in the creation clock of `b`. -/
def Precedes (a b : SignedMessage) : Prop :=
  a.msg.timestamp.isBeforeOrEqual b.msg.timestamp = true

instance : DecidableRel Precedes := fun _ _ => inferInstanceAs (Decidable (_ = _))

theorem precedes_refl (a : SignedMessage) : Precedes a a := TreeClock.isBeforeOrEqual_refl _

theorem precedes_trans (a b c : SignedMessage) (hab : Precedes a b) (hbc : Precedes b c) :
    Precedes a c :=
  TreeClock.isBeforeOrEqual_trans hab hbc

theorem sets_iff {s : SignedMessage} {key : String} :
    s.sets key = true ↔ ∃ value, s.msg.payload = .groupState key value := by
  unfold sets
  cases s.msg.payload <;> simp [eq_comm]

theorem isGroupState_of_sets {s : SignedMessage} {key : String} (h : s.sets key = true) :
    s.isGroupState = true := by
  obtain ⟨value, hp⟩ := sets_iff.1 h
  simp [isGroupState, hp]

end SignedMessage

open SignedMessage

/-- The admins a property names. -/
def adminsIn (value : String) : List String := (value.toList.splitOn ',').map String.ofList

/-- A message of a user replaces the property it finds. -/
def overrides (username key : String) (msg : MessageEnvelope) (existing : GroupProperty) : Bool :=
  (decide (key ≠ adminsStateKey) || decide (username ∈ adminsIn existing.value)) &&
    (existing.updateTimestamp.isBeforeOrEqual msg.timestamp ||
      (existing.updateTimestamp.isConcurrentWith msg.timestamp &&
        decide (compare msg.author existing.author = .lt)))

/-- The message `a` replaces what `b` set, where `name` gives the authors' usernames. -/
def beats (name : MemberId → String) (key : String) (a b : SignedMessage) : Bool :=
  overrides (name a.msg.author) key a.msg b.property

namespace Chat

theorem groupStateWins_eq {c : Chat} {msg : MessageEnvelope} {author : Member} {key : String} :
    c.groupStateWins msg author key =
      match c.groupState.get key with
      | none => true
      | some existing => overrides author.username key msg existing := by
  unfold groupStateWins overrides
  cases hget : c.groupState.get key with
  | none => rfl
  | some existing =>
      by_cases hkey : key = adminsStateKey
      · subst hkey
        simp [getAdmins, hget, adminsIn]
      · simp [hkey]

variable {env : ChatEnv}
  {sendRefs : Chat → Message → SigningPrivateKeyAndPublicHash → List MessageRef → Result ChatUpdate}
  {apply : Chat → SignedMessage → Result ChatUpdate}
  {userIdentity : SigningPrivateKeyAndPublicHash} {c c' : Chat} {signed : SignedMessage}
  {u : ChatUpdate} {author host : Member}

/-! ## Other messages leave the properties alone -/

theorem mergeMessageTimestamp_groupState {timestamp : TreeClock}
    (h : c.mergeMessageTimestamp timestamp host = .ok c') : c'.groupState = c.groupState := by
  obtain ⟨_, _, _, _, rfl⟩ := mergeMessageTimestamp_eq_ok.1 h
  rfl

theorem mergeMessageWith_groupState
    (happly : ∀ w, apply c signed = .ok w → w.state.groupState = c.groupState)
    (h : mergeMessageWith env apply c signed host = .ok u) :
    u.state.groupState = c.groupState := by
  obtain ⟨author, -, ⟨-, -, w, state, hw, hstate, rfl⟩ | ⟨-, rfl⟩⟩ := mergeMessageWith_cases h
  · exact (mergeMessageTimestamp_groupState hstate).trans (happly w hw)
  · rfl

/-- Only a `GroupState` message changes the properties, and none but the one it names.  The `Join`
that a host sends when it is invited again is not one. -/
theorem applyMessageFuel_groupState (fuel : ℕ) (h : applyMessageFuel env userIdentity fuel c signed
    = .ok u) (hs : signed.isGroupState = false) : u.state.groupState = c.groupState := by
  induction fuel generalizing c signed u with
  | zero => cases h
  | succ fuel ih =>
      obtain ⟨author, -, h⟩ := applyMessageWith_cases h
      cases h with
      | invited => rfl
      | @reinvited username identity newMember inviter host invite sent payload new parent
          inviterIs hostIs again inviteIs sends =>
          obtain ⟨us, -, hmerge⟩ := sendMessageRefsWith_eq_ok.1 sends
          have hsent : sent.state.groupState = (invite.state.rejoining newMember).groupState :=
            mergeMessageWith_groupState (fun w hw => ih hw rfl) hmerge
          subst inviteIs
          exact hsent
      | joined => rfl
      | property payload => simp [isGroupState, payload] at hs
      | removed => rfl
      | foreign => rfl
      | noted => rfl

/-- What a `GroupState` message does. -/
theorem applyMessageFuel_property {fuel : ℕ} {key value : String}
    (h : applyMessageFuel env userIdentity fuel c signed = .ok u)
    (hp : signed.msg.payload = .groupState key value) :
    ∃ author, c.members.get signed.msg.author = some author ∧
      u = c.applyGroupState signed author key value := by
  cases fuel with
  | zero => cases h
  | succ fuel =>
      obtain ⟨author, hauthor, h⟩ := applyMessageWith_cases h
      refine ⟨author, hauthor, ?_⟩
      cases h with
      | property payload =>
          rw [hp] at payload
          cases payload
          rfl
      | noted notInvite notProperty => exact absurd hp (notProperty key value)
      | invited payload | reinvited payload | joined payload | removed payload | foreign payload =>
          rw [hp] at payload
          cases payload

/-- Applying a message is a write to the register of the key it sets. -/
theorem applyMessageFuel_get {fuel : ℕ} {name : MemberId → String} {key : String}
    {o : Option SignedMessage} (h : applyMessageFuel env userIdentity fuel c signed = .ok u)
    (hname : signed.isGroupState = true → ∀ author, c.members.get signed.msg.author = some author →
      author.username = name signed.msg.author)
    (ho : c.groupState.get key = o.map property) :
    u.state.groupState.get key =
      (if signed.sets key then Register.write (beats name key) o signed else o).map property := by
  cases hp : signed.msg.payload with
  | groupState k value =>
      obtain ⟨author, hauthor, rfl⟩ := applyMessageFuel_property h hp
      by_cases hk : k = key
      · subst hk
        have hset : signed.sets k = true := sets_iff.2 ⟨value, hp⟩
        have hproperty : signed.property = ⟨signed.msg.author, signed.msg.timestamp, value⟩ := by
          simp [property, hp]
        have hauthorName := hname (isGroupState_of_sets hset) author hauthor
        rw [if_pos hset]
        unfold applyGroupState
        cases o with
        | none =>
            have hwins : c.groupStateWins signed.msg author k = true := by
              rw [groupStateWins_eq, ho]
              rfl
            rw [if_pos hwins]
            simp [Register.write, ChatUpdate.new, addToRecent, withProperties, hproperty]
        | some e =>
            have hwins : c.groupStateWins signed.msg author k = beats name k signed e := by
              rw [groupStateWins_eq, ho, beats, ← hauthorName]
              rfl
            by_cases hbeats : beats name k signed e = true
            · rw [if_pos (hwins.trans hbeats)]
              simp [Register.write, hbeats, ChatUpdate.new, addToRecent, withProperties, hproperty]
            · rw [if_neg (by rw [hwins]; exact hbeats)]
              simpa [Register.write, hbeats, ChatUpdate.new, addToRecent] using ho
      · have hset : ¬ signed.sets key = true := by simp [sets, hp, hk]
        rw [if_neg hset, ← ho]
        unfold applyGroupState
        split
        · exact SortedMap.get_insert_of_ne _ (Ne.symm hk) _
        · rfl
  | _ =>
      have hgroup : signed.isGroupState = false := by simp [isGroupState, hp]
      have hset : ¬ signed.sets key = true := by simp [sets, hp]
      rw [if_neg hset, ← ho, applyMessageFuel_groupState fuel h hgroup]

end Chat

/-! ## Replicas -/

/-- A member's chat after it has applied the messages `log`, in this order.  Between the messages its
clock, its counts and the rest of its members' records may change, as long as nobody is renamed. -/
inductive Replica : List SignedMessage → Chat → Prop
  | start {c : Chat} (keyed : KeyedById c.members) (none : c.groupState = ∅) : Replica [] c
  | applied {log : List SignedMessage} {c : Chat} {env : ChatEnv}
      {userIdentity : SigningPrivateKeyAndPublicHash} {signed : SignedMessage} {u : ChatUpdate}
      (replica : Replica log c) (applies : c.applyMessage env userIdentity signed = .ok u) :
      Replica (log ++ [signed]) u.state
  | kept {log : List SignedMessage} {c c' : Chat} (replica : Replica log c)
      (keyed : KeyedById c'.members)
      (names : ∀ id m, c.members.get id = some m →
        ∃ m', c'.members.get id = some m' ∧ m'.username = m.username)
      (properties : c'.groupState = c.groupState) : Replica log c'

namespace Replica

variable {log : List SignedMessage} {c : Chat}

theorem keyed (h : Replica log c) : KeyedById c.members := by
  induction h with
  | start keyed none => exact keyed
  | applied replica applies ih => exact (Chat.applyMessageFuel_grows 2 _ _ _ ih applies).keyed
  | kept replica keyed names properties ih => exact keyed

/-- Merging a message, as `merge` and `send_message` do, is a step of a replica. -/
theorem mergeMessage {env : ChatEnv} {userIdentity : SigningPrivateKeyAndPublicHash}
    {signed : SignedMessage} {host : Member} {u : ChatUpdate} (h : Replica log c)
    (hhost : c.members.get host.id = some host)
    (hmerge : c.mergeMessage env userIdentity signed host = .ok u) :
    Replica log u.state ∨ Replica (log ++ [signed]) u.state := by
  obtain ⟨author, -, ⟨-, -, v, state, hv, hstate, rfl⟩ | ⟨-, rfl⟩⟩ :=
    Chat.mergeMessageWith_cases hmerge
  · have hgrows := Chat.mergeMessageTimestamp_grows (h.applied hv).keyed hstate
    refine Or.inr ((h.applied hv).kept hgrows.keyed ?_
      (Chat.mergeMessageTimestamp_groupState hstate))
    intro id m hm
    obtain ⟨m', hm', he⟩ := hgrows.evolve id m hm
    exact ⟨m', hm', he.username⟩
  · have hgrows := Chat.incrementHost_grows h.keyed hhost
    refine Or.inl (h.kept hgrows.keyed ?_ rfl)
    intro id m hm
    obtain ⟨m', hm', he⟩ := hgrows.evolve id m hm
    exact ⟨m', hm', he.username⟩

/-- The author of a message that was applied is a member. -/
theorem author_mem (h : Replica log c) {s : SignedMessage} (hs : s ∈ log) :
    ∃ m, c.members.get s.msg.author = some m := by
  induction h with
  | start => cases hs
  | @applied log c env userIdentity signed u replica applies ih =>
      have hevolve := (Chat.applyMessageFuel_grows 2 _ _ _ replica.keyed applies).evolve
      have hbefore : ∃ m, c.members.get s.msg.author = some m := by
        rcases List.mem_append.1 hs with hs | hs
        · exact ih hs
        · rw [List.mem_singleton.1 hs]
          obtain ⟨author, hauthor, -⟩ := Chat.applyMessageWith_cases applies
          exact ⟨author, hauthor⟩
      obtain ⟨m, hm⟩ := hbefore
      obtain ⟨m', hm', -⟩ := hevolve _ m hm
      exact ⟨m', hm'⟩
  | kept replica keyed names properties ih =>
      obtain ⟨m, hm⟩ := ih hs
      obtain ⟨m', hm', -⟩ := names _ m hm
      exact ⟨m', hm'⟩

end Replica

/-- The members of the chat that wrote these messages have these usernames. -/
def Named (name : MemberId → String) (c : Chat) (log : List SignedMessage) : Prop :=
  ∀ s ∈ log, s.isGroupState = true →
    ∃ m, c.members.get s.msg.author = some m ∧ m.username = name s.msg.author

/-- A property of a replica is what the register for its key holds after the messages that set it. -/
theorem Replica.get_groupState {name : MemberId → String} {log : List SignedMessage} {c : Chat}
    (h : Replica log c) (hname : Named name c log) (key : String) :
    c.groupState.get key =
      (Register.final (beats name key) (log.filter (·.sets key))).map property := by
  induction h with
  | start keyed none =>
      rw [none]
      rfl
  | @applied log c env userIdentity signed u replica applies ih =>
      have hgrows := Chat.applyMessageFuel_grows 2 _ _ _ replica.keyed applies
      -- the usernames at the end are those at the time
      have hname' : Named name c log := by
        intro s hs hset
        obtain ⟨m, hm⟩ := replica.author_mem hs
        obtain ⟨m', hm', he⟩ := hgrows.evolve _ m hm
        obtain ⟨m'', hm'', hn⟩ := hname s (List.mem_append_left _ hs) hset
        rw [hm'] at hm''
        cases hm''
        exact ⟨m, hm, he.username.symm.trans hn⟩
      have hauthorName : signed.isGroupState = true → ∀ author,
          c.members.get signed.msg.author = some author →
            author.username = name signed.msg.author := by
        intro hset author hauthor
        obtain ⟨m', hm', he⟩ := hgrows.evolve _ author hauthor
        obtain ⟨m'', hm'', hn⟩ := hname signed (by simp) hset
        rw [hm'] at hm''
        cases hm''
        exact he.username.symm.trans hn
      rw [Chat.applyMessageFuel_get applies hauthorName (ih hname'), List.filter_append,
        Register.final_append]
      by_cases hset : signed.sets key = true
      · simp [hset]
      · simp [hset]
  | @kept log c c' replica keyed names properties ih =>
      rw [properties]
      refine ih ?_
      intro s hs hset
      obtain ⟨m, hm⟩ := replica.author_mem hs
      obtain ⟨m', hm', he⟩ := names _ m hm
      obtain ⟨m'', hm'', hn⟩ := hname s hs hset
      rw [hm'] at hm''
      cases hm''
      exact ⟨m, hm, he.symm.trans hn⟩

/-! ## Agreement -/

/-- A replica that has applied just these `GroupState` messages, each after those in its creation
clock, and knows their authors under these names. -/
def HasApplied (name : MemberId → String) (S : Set SignedMessage) (c : Chat) : Prop :=
  ∃ log, Replica log c ∧ (∀ s, s ∈ S ↔ s ∈ log ∧ s.isGroupState = true) ∧
    Register.Causal Precedes (log.filter (·.isGroupState)) ∧ Named name c log

/-- The messages that set a property, if there are any, have a champion. -/
def Settled (name : MemberId → String) (S : Set SignedMessage) (key : String) : Prop :=
  ∀ m ∈ S, m.sets key = true → ∃ w ∈ S, w.sets key = true ∧
    Register.Champion Precedes (beats name key) {m | m ∈ S ∧ m.sets key = true} w

/-- Of any two messages one is in the other's clock, or they are concurrent and of different
members. -/
def Comparable (S : Set SignedMessage) : Prop :=
  ∀ a ∈ S, ∀ b ∈ S, a ≠ b → Precedes a b ∨ Precedes b a ∨
    (a.msg.timestamp.isConcurrentWith b.msg.timestamp = true ∧ a.msg.author ≠ b.msg.author)

section

variable {name : MemberId → String} {S : Set SignedMessage} {c : Chat} {key : String}
  {log : List SignedMessage}

theorem filter_sets_eq (log : List SignedMessage) (key : String) :
    log.filter (·.sets key) = (log.filter (·.isGroupState)).filter (·.sets key) := by
  rw [List.filter_filter]
  refine List.filter_congr ?_
  intro s _
  cases hs : s.sets key with
  | false => simp
  | true => simp [isGroupState_of_sets hs]

theorem mem_filter_sets (hS : ∀ s, s ∈ S ↔ s ∈ log ∧ s.isGroupState = true) {s : SignedMessage} :
    s ∈ log.filter (·.sets key) ↔ s ∈ S ∧ s.sets key = true := by
  rw [List.mem_filter, hS]
  constructor
  · rintro ⟨hs, hset⟩
    exact ⟨⟨hs, isGroupState_of_sets hset⟩, hset⟩
  · rintro ⟨⟨hs, -⟩, hset⟩
    exact ⟨hs, hset⟩

/-- The value of a settled property does not depend on the replica. -/
theorem Settled.get_eq {c₁ c₂ : Chat} (h : Settled name S key) (h₁ : HasApplied name S c₁)
    (h₂ : HasApplied name S c₂) : c₁.groupState.get key = c₂.groupState.get key := by
  obtain ⟨log₁, hr₁, hS₁, hcausal₁, hname₁⟩ := h₁
  obtain ⟨log₂, hr₂, hS₂, hcausal₂, hname₂⟩ := h₂
  rw [hr₁.get_groupState hname₁, hr₂.get_groupState hname₂]
  by_cases hany : ∃ m ∈ S, m.sets key = true
  · obtain ⟨m, hm, hset⟩ := hany
    obtain ⟨w, hw, hwset, hchamp⟩ := h m hm hset
    have hfinal : ∀ log : List SignedMessage, (∀ s, s ∈ S ↔ s ∈ log ∧ s.isGroupState = true) →
        Register.Causal Precedes (log.filter (·.isGroupState)) →
        Register.final (beats name key) (log.filter (·.sets key)) = some w := by
      intro log hS hcausal
      refine Register.final_eq_of_champion precedes_refl ?_ ((mem_filter_sets hS).2 ⟨hw, hwset⟩) ?_
      · rw [filter_sets_eq]
        exact hcausal.filter _
      · intro m hm
        exact hchamp m ((mem_filter_sets hS).1 hm)
    rw [hfinal log₁ hS₁ hcausal₁, hfinal log₂ hS₂ hcausal₂]
  · have hnil : ∀ log : List SignedMessage, (∀ s, s ∈ S ↔ s ∈ log ∧ s.isGroupState = true) →
        log.filter (·.sets key) = [] := by
      intro log hS
      rw [List.eq_nil_iff_forall_not_mem]
      intro s hs
      exact hany ⟨s, (mem_filter_sets hS).1 hs⟩
    rw [hnil log₁ hS₁, hnil log₂ hS₂]

theorem applyMessage_groupState (env : ChatEnv) (userIdentity : SigningPrivateKeyAndPublicHash)
    {s : SignedMessage} {author : Member} (hs : s.isGroupState = true)
    (hauthor : c.members.get s.msg.author = some author) :
    ∃ u, c.applyMessage env userIdentity s = .ok u ∧ u.state.members = c.members := by
  cases hp : s.msg.payload with
  | groupState key value =>
      refine ⟨c.applyGroupState s author key value, ?_, ?_⟩
      · simp [Chat.applyMessage, Chat.applyMessageFuel, Chat.applyMessageWith, hauthor, hp, pure,
          Except.pure]
      · unfold Chat.applyGroupState
        split <;> rfl
  | _ => simp [isGroupState, hp] at hs

/-- A replica can apply any `GroupState` messages of its members. -/
theorem Replica.extend (env : ChatEnv) (userIdentity : SigningPrivateKeyAndPublicHash)
    (h : Replica log c) (l : List SignedMessage) (hgroup : ∀ s ∈ l, s.isGroupState = true)
    (hauthor : ∀ s ∈ l, ∃ m, c.members.get s.msg.author = some m) :
    ∃ c', Replica (log ++ l) c' ∧ c'.members = c.members := by
  induction l generalizing log c with
  | nil => exact ⟨c, by rwa [List.append_nil], rfl⟩
  | cons s l ih =>
      obtain ⟨author, ha⟩ := hauthor s (List.mem_cons_self ..)
      obtain ⟨u, hu, hmembers⟩ := applyMessage_groupState env userIdentity
        (hgroup s (List.mem_cons_self ..)) ha
      obtain ⟨c', hc', hm⟩ := ih (h.applied hu) (fun s hs => hgroup s (List.mem_cons_of_mem _ hs))
        (fun s hs => by rw [hmembers]; exact hauthor s (List.mem_cons_of_mem _ hs))
      refine ⟨c', ?_, hm.trans hmembers⟩
      rwa [List.append_assoc] at hc'

/-- The `GroupState` messages a replica has applied can be applied in any other causal order. -/
theorem HasApplied.reorder (env : ChatEnv) (userIdentity : SigningPrivateKeyAndPublicHash)
    (hr : Replica log c) (hS : ∀ s, s ∈ S ↔ s ∈ log ∧ s.isGroupState = true)
    (hname : Named name c log) {l : List SignedMessage} (hl : Register.Causal Precedes l)
    (hmem : ∀ s, s ∈ l ↔ s ∈ S) :
    ∃ c', Replica l c' ∧ Named name c' l ∧ HasApplied name S c' := by
  have hgroup : ∀ s ∈ l, s.isGroupState = true := fun s hs => ((hS s).1 ((hmem s).1 hs)).2
  have hlog : ∀ s ∈ l, s ∈ log := fun s hs => ((hS s).1 ((hmem s).1 hs)).1
  -- start over with the same members and no properties
  have hstart : Replica [] { c with groupState := ∅ } := .start hr.keyed rfl
  obtain ⟨c', hc', hmembers⟩ := hstart.extend env userIdentity l hgroup
    fun s hs => hr.author_mem (hlog s hs)
  rw [List.nil_append] at hc'
  have hname' : Named name c' l := by
    intro s hs hset
    rw [hmembers]
    exact hname s (hlog s hs) hset
  refine ⟨c', hc', hname', l, hc', ?_, ?_, hname'⟩
  · intro s
    rw [← hmem]
    exact ⟨fun hs => ⟨hs, hgroup s hs⟩, fun hs => hs.1⟩
  · rw [List.filter_eq_self.2 hgroup]
    exact hl

theorem isConcurrentWith_comm (a b : TreeClock) :
    a.isConcurrentWith b = b.isConcurrentWith a := by
  rw [TreeClock.isConcurrentWith, TreeClock.isConcurrentWith, Bool.and_comm]

/-- What the rule says of messages about another key than the admin list. -/
theorem beats_iff (hkey : key ≠ adminsStateKey) {a b : SignedMessage} :
    beats name key a b = true ↔ Precedes b a ∨
      (b.msg.timestamp.isConcurrentWith a.msg.timestamp = true ∧
        compare a.msg.author b.msg.author = .lt) := by
  simp only [beats, overrides, hkey, ne_eq, not_false_eq_true, decide_true, Bool.true_or,
    Bool.true_and, Bool.or_eq_true, Bool.and_eq_true, decide_eq_true_eq]
  rfl

/-- Replicas that agree on a property, in whatever order they applied the messages, agree on a
champion. -/
theorem settled_of_agree (hkey : key ≠ adminsStateKey) (hcomp : Comparable S)
    (hc : HasApplied name S c)
    (hagree : ∀ c₁ c₂, HasApplied name S c₁ → HasApplied name S c₂ →
      c₁.groupState.get key = c₂.groupState.get key) : Settled name S key := by
  obtain ⟨log, hr, hS, hcausal, hname⟩ := id hc
  intro m₀ hm₀ hset₀
  have hm₀log : m₀ ∈ log.filter (·.sets key) := (mem_filter_sets hS).2 ⟨hm₀, hset₀⟩
  obtain ⟨w, hw⟩ := Register.exists_final (beats name key) (List.ne_nil_of_mem hm₀log)
  obtain ⟨hwS, hwset⟩ := (mem_filter_sets hS).1 (Register.mem_of_final hw)
  obtain ⟨author, hauthor⟩ := hr.author_mem ((hS w).1 hwS).1
  -- a second replica, to which what `w` does not depend on comes after `w`
  have hcausal' := hcausal.causesFirst (w := w) precedes_trans
  have hmem : ∀ s, s ∈ Register.causesFirst Precedes w (log.filter (·.isGroupState)) ↔ s ∈ S := by
    intro s
    rw [Register.mem_causesFirst, List.mem_filter, hS]
  obtain ⟨c', hr', hname', hc'⟩ := HasApplied.reorder
    ⟨fun _ => true, fun _ => 0, fun _ => [], fun _ => ⟨⟨author.identity, []⟩, ⟨[]⟩, ∅⟩⟩
    ⟨author.identity, []⟩ hr hS hname hcausal' hmem
  have hsame := hagree c c' hc hc'
  rw [hr.get_groupState hname, hr'.get_groupState hname', Register.causesFirst_filter,
    ← filter_sets_eq, hw, Option.map_some, eq_comm, Option.map_eq_some_iff] at hsame
  obtain ⟨w', hw', hproperty⟩ := hsame
  -- the two replicas hold the same property, so it is from the same message
  have hw'log : w' ∈ log.filter (·.sets key) :=
    Register.mem_causesFirst.1 (Register.mem_of_final hw')
  have hstamp : w'.msg.timestamp = w.msg.timestamp := congrArg GroupProperty.updateTimestamp hproperty
  have hkeyCausal : Register.Causal Precedes (log.filter (·.sets key)) := by
    rw [filter_sets_eq]
    exact hcausal.filter _
  have hww' : w' = w := by
    refine hkeyCausal.eq_of_before hw'log (Register.mem_of_final hw) ?_ ?_
    · rw [Precedes, hstamp]
      exact TreeClock.isBeforeOrEqual_refl _
    · rw [Precedes, hstamp]
      exact TreeClock.isBeforeOrEqual_refl _
  subst hww'
  refine ⟨w', hwS, hwset, ?_⟩
  rintro m ⟨hm, hset⟩ hne
  have hbeaten : ¬ Precedes m w' → beats name key m w' = false := fun hafter =>
    Register.not_beats_of_causesFirst precedes_refl hw' ((mem_filter_sets hS).2 ⟨hm, hset⟩) hafter
  refine ⟨hbeaten, ?_⟩
  intro hbefore
  rw [beats_iff hkey]
  rcases hcomp m hm w' hwS hne with hmw | hwm | ⟨hconc, hauthors⟩
  · exact Or.inl hmw
  · exact absurd hwm hbefore
  · by_cases hmw : Precedes m w'
    · exact Or.inl hmw
    · refine Or.inr ⟨hconc, ?_⟩
      have hnot := hbeaten hmw
      rw [← Bool.not_eq_true, beats_iff hkey, not_or] at hnot
      cases hcmp : compare w'.msg.author m.msg.author with
      | lt => rfl
      | eq => exact absurd (Std.LawfulEqCmp.eq_of_compare hcmp).symm hauthors
      | gt =>
          rw [Std.OrientedCmp.gt_iff_lt] at hcmp
          exact absurd ⟨isConcurrentWith_comm _ _ ▸ hconc, hcmp⟩ hnot.2

end

/-- Replicas that have applied the same `GroupState` messages in causal orders have the same group
state if every property is settled; and for a property other than the admin list, and messages with
the clocks of a chat, that is also necessary. -/
theorem groupState_converges (name : MemberId → String) (S : Set SignedMessage) :
    ((∀ key, Settled name S key) →
      ∀ c₁ c₂, HasApplied name S c₁ → HasApplied name S c₂ → c₁.groupState = c₂.groupState) ∧
    ∀ key, key ≠ adminsStateKey → Comparable S → (∃ c, HasApplied name S c) →
      ((∀ c₁ c₂, HasApplied name S c₁ → HasApplied name S c₂ →
        c₁.groupState.get key = c₂.groupState.get key) ↔ Settled name S key) := by
  constructor
  · intro hsettled c₁ c₂ h₁ h₂
    refine SortedMap.ext_get ?_
    intro key
    exact (hsettled key).get_eq h₁ h₂
  · rintro key hkey hcomp ⟨c, hc⟩
    constructor
    · exact settled_of_agree hkey hcomp hc
    · intro hsettled c₁ c₂ h₁ h₂
      exact hsettled.get_eq h₁ h₂

/-! ## Three members and a title -/

/-- The clock of a chat of three members. -/
def trioClock (a b c : Int64) : TreeClock := ⟨⟨[([0], a), ([0, 0], b), ([0, 1], c)], by
  simp [Keyed.Sorted, List.pairwise_cons]
  decide⟩⟩

/-- A member of the trio sets the title. -/
def titleMessage (author : MemberId) (clock : TreeClock) (title : String) : SignedMessage :=
  let msg : MessageEnvelope := ⟨author, clock, 0, [], .groupState "title" title⟩
  ⟨(byteSigner 0).sign msg, msg⟩

/-- The creator sets a title. -/
def firstTitle : SignedMessage := titleMessage [0] (trioClock 1 0 0) "one"

/-- The member invited last has seen it and sets another. -/
def secondTitle : SignedMessage := titleMessage [0, 1] (trioClock 1 0 1) "two"

/-- The member invited first has seen neither. -/
def otherTitle : SignedMessage := titleMessage [0, 0] (trioClock 0 1 0) "other"

/-- The chat of the three, with no properties yet. -/
def trioChat : Chat :=
  ⟨"chat", [0], trioClock 0 0 0,
    ((SortedMap.empty.insert [0] (.simple "alice" [0] (byteKey 0) 0 2)).insert [0, 0]
      (.simple "bob" [0, 0] (byteKey 1) 0 0)).insert [0, 1] (.simple "carol" [0, 1] (byteKey 2) 0 0),
    ∅, []⟩

/-- The three usernames. -/
def trioName : MemberId → String
  | [0] => "alice"
  | [0, 0] => "bob"
  | _ => "carol"

theorem trioChat_member (id : MemberId) :
    trioChat.members.get id =
      if id = [0, 1] then some (.simple "carol" [0, 1] (byteKey 2) 0 0)
      else if id = [0, 0] then some (.simple "bob" [0, 0] (byteKey 1) 0 0)
      else if id = [0] then some (.simple "alice" [0] (byteKey 0) 0 2)
      else none := by
  simp only [trioChat, SortedMap.get_insert]
  rfl

theorem trioChat_keyed : KeyedById trioChat.members := by
  intro id m hm
  rw [trioChat_member] at hm
  split at hm
  · rename_i hid
    cases hm
    exact hid.symm
  · split at hm
    · rename_i hid
      cases hm
      exact hid.symm
    · split at hm
      · rename_i hid
        cases hm
        exact hid.symm
      · cases hm

/-- A replica of the trio can apply the titles in any causal order. -/
theorem trio_hasApplied {l : List SignedMessage} (hl : Register.Causal Precedes l)
    (hauthor : ∀ s ∈ l, s = firstTitle ∨ s = secondTitle ∨ s = otherTitle) :
    ∃ c, Replica l c ∧ HasApplied trioName {s | s ∈ l} c ∧ c.groupState.get "title" =
      (Register.final (beats trioName "title") l).map property := by
  have hgroup : ∀ s ∈ l, s.isGroupState = true := by
    intro s hs
    rcases hauthor s hs with rfl | rfl | rfl <;> rfl
  have hmember : ∀ s ∈ l, ∃ m, trioChat.members.get s.msg.author = some m ∧
      m.username = trioName s.msg.author := by
    intro s hs
    rw [trioChat_member]
    rcases hauthor s hs with rfl | rfl | rfl
    · exact ⟨_, rfl, rfl⟩
    · exact ⟨_, rfl, rfl⟩
    · exact ⟨_, rfl, rfl⟩
  have hstart : Replica [] trioChat := .start trioChat_keyed rfl
  obtain ⟨c, hc, hmembers⟩ := hstart.extend
    ⟨fun _ => true, fun _ => 0, fun _ => [], fun _ => ⟨byteSigner 0, ⟨[]⟩, ∅⟩⟩ (byteSigner 0) l hgroup
    fun s hs => (hmember s hs).imp fun _ => And.left
  rw [List.nil_append] at hc
  have hname : Named trioName c l := by
    intro s hs _
    rw [hmembers]
    exact hmember s hs
  have hset : l.filter (·.sets "title") = l := by
    rw [List.filter_eq_self]
    intro s hs
    rcases hauthor s hs with rfl | rfl | rfl <;> rfl
  refine ⟨c, hc, ⟨l, hc, ?_, ?_, hname⟩, ?_⟩
  · intro s
    exact ⟨fun hs => ⟨hs, hgroup s hs⟩, fun hs => hs.1⟩
  · rw [List.filter_eq_self.2 hgroup]
    exact hl
  · rw [hc.get_groupState hname, hset]

/-- Two titles set concurrently, applied in either order: both replicas end with the creator's. -/
theorem groupState_converges_two_titles :
    ∃ c₁ c₂, Replica [firstTitle, otherTitle] c₁ ∧ Replica [otherTitle, firstTitle] c₂ ∧
      HasApplied trioName {s | s ∈ [firstTitle, otherTitle]} c₁ ∧
      HasApplied trioName {s | s ∈ [firstTitle, otherTitle]} c₂ ∧
      c₁.groupState = c₂.groupState ∧ c₁.groupState.get "title" = some (property firstTitle) := by
  have hcausal₁ : Register.Causal Precedes [firstTitle, otherTitle] := by
    simp only [Register.Causal, List.pairwise_cons, List.mem_singleton, forall_eq]
    decide
  have hcausal₂ : Register.Causal Precedes [otherTitle, firstTitle] := by
    simp only [Register.Causal, List.pairwise_cons, List.mem_singleton, forall_eq]
    decide
  obtain ⟨c₁, hr₁, h₁, htitle⟩ := trio_hasApplied hcausal₁ (by simp)
  obtain ⟨c₂, hr₂, h₂, -⟩ := trio_hasApplied hcausal₂ (by simp)
  have hset : {s | s ∈ [otherTitle, firstTitle]} = {s | s ∈ [firstTitle, otherTitle]} := by
    ext s
    simp [or_comm]
  rw [hset] at h₂
  refine ⟨c₁, c₂, hr₁, hr₂, h₁, h₂, (groupState_converges trioName _).1 ?_ c₁ c₂ h₁ h₂, ?_⟩
  · intro key m hm hsets
    have hkey : key = "title" := by
      obtain ⟨value, hp⟩ := sets_iff.1 hsets
      rcases List.mem_cons.1 hm with rfl | hm
      · cases hp
        rfl
      · rw [List.mem_singleton.1 hm] at hp
        cases hp
        rfl
    subst hkey
    refine ⟨firstTitle, by simp, rfl, ?_⟩
    rintro m' ⟨hm', -⟩ hne
    rcases List.mem_cons.1 hm' with rfl | hm'
    · exact absurd rfl hne
    · rw [List.mem_singleton.1 hm']
      decide
  · rw [htitle]
    decide

/-- With a third title, concurrent to both, the order decides: the smaller id takes the title from
the member who has seen more, but not from the creator, to whom that member's title comes later. -/
theorem groupState_diverges :
    ¬ ∀ (name : MemberId → String) (S : Set SignedMessage) (c₁ c₂ : Chat),
      HasApplied name S c₁ → HasApplied name S c₂ → c₁.groupState = c₂.groupState := by
  intro hclaim
  have hcausal₁ : Register.Causal Precedes [firstTitle, secondTitle, otherTitle] := by
    simp only [Register.Causal, List.pairwise_cons]
    decide
  have hcausal₂ : Register.Causal Precedes [firstTitle, otherTitle, secondTitle] := by
    simp only [Register.Causal, List.pairwise_cons]
    decide
  obtain ⟨c₁, -, h₁, htitle₁⟩ := trio_hasApplied hcausal₁ (by simp)
  obtain ⟨c₂, -, h₂, htitle₂⟩ := trio_hasApplied hcausal₂ (by simp)
  have hset : {s | s ∈ [firstTitle, otherTitle, secondTitle]} =
      {s | s ∈ [firstTitle, secondTitle, otherTitle]} := by
    ext s
    simp only [Set.mem_ofPred_eq, List.mem_cons, List.not_mem_nil, or_false]
    tauto
  rw [hset] at h₂
  have hsame := hclaim trioName _ c₁ c₂ h₁ h₂
  have hfinal₁ : Register.final (beats trioName "title") [firstTitle, secondTitle, otherTitle] =
      some otherTitle := by decide
  have hfinal₂ : Register.final (beats trioName "title") [firstTitle, otherTitle, secondTitle] =
      some secondTitle := by decide
  rw [hsame, htitle₂, hfinal₁, hfinal₂] at htitle₁
  exact absurd htitle₁ (by decide)

end Peergos
