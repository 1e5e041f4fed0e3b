import PeergosClient.Social.Follow

/-!
# Messages in somebody's name

A follow message says in clear whose it is, and nothing compares the owner key of its entry point
with the key the PKI has for that name.  What a message in somebody else's name can do is bounded by
what the receiver is waiting for: the inbox is only acted upon, in the records, for names we have
sent a request to and have not blocked.
-/

namespace Peergos

/-- The message says it is from `name`. -/
def ReceivedFollowRequest.isFrom (p : ReceivedFollowRequest) (name : String) : Bool :=
  p.entry.any fun e => e.ownerName = name

/-- What is recorded about a name: the entry points to their folders, our folder for them, the
groups they are in, and whether we wait for their answer. -/
def Account.recordsAbout (a : Account) (name : String) :
    List EntryPoint × Option AbsoluteCapability × (String → Prop) × Prop :=
  (a.friends.filter fun e => e.ownerName = name, a.sharing name, fun g => name ∈ a.members g,
    name ∈ a.pending)

section Inbox

variable {env : FollowEnv} {a : Account} {name : String}

/-- The replies to be processed do not depend on messages from a name nobody waits for. -/
theorem latestReplies_classify_of_unawaited (h : name ∉ a.pending ∨ name ∈ a.blocked)
    {p : ReceivedFollowRequest} (hp : p.isFrom name = true) (c : Classified) :
    (classify env a c p).latestReplies = c.latestReplies := by
  obtain ⟨e, he, hname⟩ : ∃ e, p.entry = some e ∧ e.ownerName = name := by
    unfold ReceivedFollowRequest.isFrom at hp
    cases he : p.entry with
    | none =>
        rw [he] at hp
        cases hp
    | some e =>
        rw [he] at hp
        exact ⟨e, rfl, by simpa using hp⟩
  unfold classify
  rw [he]
  dsimp only
  rw [hname]
  split
  · split <;> rfl
  · next hblocked =>
      rw [if_neg (h.resolve_right hblocked)]
      split
      · rfl
      · split <;> rfl

/-- The other messages are sorted by what was waiting before. -/
theorem latestReplies_classify_congr {c c' : Classified}
    (h : c.latestReplies = c'.latestReplies) (p : ReceivedFollowRequest) :
    (classify env a c p).latestReplies = (classify env a c' p).latestReplies := by
  unfold classify
  cases p.entry with
  | none => exact h
  | some e =>
      dsimp only
      split
      · split <;> exact h
      · split
        · rw [h]
        · split
          · exact h
          · split <;> exact h

theorem latestReplies_classifyAll (h : name ∉ a.pending ∨ name ∈ a.blocked)
    (all : List ReceivedFollowRequest) :
    (classifyAll env a all).latestReplies =
      (classifyAll env a (all.filter fun p => !p.isFrom name)).latestReplies := by
  unfold classifyAll
  suffices ∀ c c' : Classified, c.latestReplies = c'.latestReplies →
      (all.foldl (classify env a) c).latestReplies =
        ((all.filter fun p => !p.isFrom name).foldl (classify env a) c').latestReplies from
    this _ _ rfl
  induction all with
  | nil => exact fun _ _ heq => heq
  | cons p all ih =>
      intro c c' heq
      rw [List.foldl_cons]
      by_cases hp : p.isFrom name = true
      · rw [List.filter_cons_of_neg (by simp [hp])]
        exact ih _ _ ((latestReplies_classify_of_unawaited h hp c).trans heq)
      · rw [List.filter_cons_of_pos (by simp [hp]), List.foldl_cons]
        exact ih _ _ (latestReplies_classify_congr heq p)

/-! ## What the answers change -/

/-- The records are as they were. -/
def SameAccount (a : Account) (w : Social) : Prop := w.account = a

theorem keeps_removeFollowRequest (raw : Bytes) :
    Exec.Keeps (SameAccount a) (removeFollowRequest raw) := Exec.Keeps.update fun _ h => h

theorem keeps_blindAndSend (target : PublicKeyHash) (e : EntryPoint) (key : Option SymmetricKey) :
    Exec.Keeps (SameAccount a) (blindAndSend target e key) := Exec.Keeps.update fun _ h => h

/-- Denying a request changes no record. -/
theorem keeps_denyFollowRequest (p : ReceivedFollowRequest) :
    Exec.Keeps (SameAccount a) (replyToFollowRequest env p false false) := by
  unfold replyToFollowRequest
  refine (Exec.Keeps.lift _).bind fun e => (Exec.Keeps.lift _).bind fun identity => ?_
  refine (show Exec.Keeps _ (ourCapFor env false e.ownerName) from Exec.Keeps.lift _).bind
    fun cap => (Exec.Keeps.reads _).bind fun username => ?_
  exact (keeps_blindAndSend _ _ _).bind fun _ => keeps_removeFollowRequest _

/-- Nor does answering a friend. -/
theorem keeps_reaffirmFollowRequest (p : ReceivedFollowRequest) (dir : AbsoluteCapability) :
    Exec.Keeps (SameAccount a) (reaffirmFollowRequest env p dir) := by
  unfold reaffirmFollowRequest
  refine (Exec.Keeps.lift _).bind fun e => (Exec.Keeps.reads _).bind fun username =>
    (Exec.Keeps.lift _).bind fun identity => ?_
  exact (keeps_blindAndSend _ _ _).bind fun _ => keeps_removeFollowRequest _

theorem keeps_reaffirmListed (account : Account) (p : ReceivedFollowRequest) :
    Exec.Keeps (SameAccount a) (reaffirmListed env account p) := by
  unfold reaffirmListed
  refine (Exec.Keeps.lift _).bind fun e => ?_
  cases account.sharing e.ownerName with
  | some dir => exact keeps_reaffirmFollowRequest p dir
  | none => exact Exec.Keeps.fail _

/-- The records decide what a reply does to them. -/
theorem lockstep_processFollowReply (env : FollowEnv) (p : ReceivedFollowRequest) :
    Exec.Lockstep (fun w w' : Social => w.account = w'.account) (processFollowReply env p) := by
  have hremove : Exec.Lockstep (fun w w' : Social => w.account = w'.account)
      (removeFollowRequest p.rawCipher) := Exec.Lockstep.update fun _ _ h => h
  unfold processFollowReply
  refine (Exec.Lockstep.reads fun w w' h => by rw [h]).bind fun username => ?_
  cases p.entry with
  | none => exact hremove
  | some e =>
      dsimp only
      split
      · exact hremove
      · refine Exec.Lockstep.bind (fun w w' h => ?_) fun _ => hremove
        unfold tryRecordChange Exec.ofExcept
        dsimp only
        rw [h]
        cases w'.account.followReply env e p.key with
        | ok b => exact ⟨rfl, rfl⟩
        | error err => exact ⟨rfl, h⟩

theorem lockstep_logged {R : Social → Social → Prop} {x : Exec Social Fault Unit}
    (h : Exec.Lockstep R x) : Exec.Lockstep R (logged x) :=
  h.attempt.bind fun _ => Exec.Lockstep.pure ()

/-- A loop of logged calls that leaves the records alone. -/
theorem forEach_logged {l : List ReceivedFollowRequest}
    {x : ReceivedFollowRequest → Exec Social Fault Unit}
    (h : ∀ a p, Exec.Keeps (SameAccount a) (x p)) (w : Social) :
    ∃ w', Exec.forEach l (fun p => logged (x p)) w = (.ok (), w') ∧ w'.account = w.account := by
  induction l generalizing w with
  | nil => exact ⟨w, rfl, rfl⟩
  | cons p l ih =>
      have hp : logged (x p) w = (.ok (), (x p w).2) := rfl
      obtain ⟨w', hrun, haccount⟩ := ih (x p w).2
      refine ⟨w', (Exec.forEach_cons_of_ok (f := fun p => logged (x p)) hp).trans hrun,
        haccount.trans ?_⟩
      exact (h w.account p).snd (s := w) rfl

/-- The records after `process_follow_requests` are those after the replies. -/
theorem account_processFollowRequests (env : FollowEnv) (w : Social) :
    ∃ w', w'.account = w.account ∧ (processFollowRequests env w).2 =
      (Exec.forEach (classifyAll env w.account w.inbox).latestReplies
        (fun p => logged (processFollowReply env p.2)) w').2 := by
  have hlast : ∀ (l : List (String × ReceivedFollowRequest)) (v : Social),
      ∃ v', Exec.forEach l (fun p => logged (processFollowReply env p.2)) v = (.ok (), v') := by
    intro l
    induction l with
    | nil => exact fun v => ⟨v, rfl⟩
    | cons p l ih =>
        intro v
        obtain ⟨v', hrun⟩ := ih (processFollowReply env p.2 v).2
        have hp : logged (processFollowReply env p.2) v = (.ok (), (processFollowReply env p.2 v).2) :=
          rfl
        exact ⟨v', (Exec.forEach_cons_of_ok (f := fun q : String × ReceivedFollowRequest =>
          logged (processFollowReply env q.2)) hp).trans
          hrun⟩
  obtain ⟨w₁, hdiscard, h₁⟩ := forEach_logged (l := (classifyAll env w.account w.inbox).toDiscard)
    (x := fun p => removeFollowRequest p.rawCipher) (fun _ p => keeps_removeFollowRequest _) w
  obtain ⟨w₂, hreject, h₂⟩ := forEach_logged (l := (classifyAll env w.account w.inbox).toReject)
    (x := fun p => replyToFollowRequest env p false false) (fun _ p => keeps_denyFollowRequest p) w₁
  obtain ⟨w₃, hreaffirm, h₃⟩ := forEach_logged
    (l := (classifyAll env w.account w.inbox).toReaffirm)
    (x := reaffirmListed env w.account) (fun _ p => keeps_reaffirmListed w.account p) w₂
  obtain ⟨w₄, hreplies⟩ := hlast (classifyAll env w.account w.inbox).latestReplies w₃
  refine ⟨w₃, h₃.trans (h₂.trans h₁), ?_⟩
  unfold processFollowRequests
  rw [Exec.bind_of_ok (Exec.reads_run _ w), Exec.bind_of_ok (Exec.reads_run _ w),
    Exec.bind_of_ok hdiscard, Exec.bind_of_ok hreject, Exec.bind_of_ok hreaffirm,
    Exec.bind_of_ok hreplies, hreplies]
  rfl

end Inbox

/-! ## An answer concerns the name in the request -/

section Accept

variable {env : FollowEnv} {a : Account} {name other : String}

theorem recordsAbout_getOrMkdir (env : FollowEnv) (a : Account) (h : other ≠ name) :
    (a.getOrMkdir env name).recordsAbout other = a.recordsAbout other := by
  unfold Account.getOrMkdir
  split
  · rfl
  · unfold Account.recordsAbout
    dsimp only
    rw [Function.update_of_ne h]

theorem recordsAbout_addMemberToGroup (group : String) (h : other ≠ name) :
    (a.addMemberToGroup env group name).recordsAbout other = a.recordsAbout other := by
  rw [← recordsAbout_getOrMkdir env a h]
  unfold Account.addMemberToGroup Account.recordsAbout
  dsimp only
  refine Prod.ext rfl (Prod.ext rfl (Prod.ext (funext fun g => ?_) rfl))
  dsimp only
  rw [Function.update_apply]
  split
  · next hg =>
      rw [hg, Finset.mem_insert]
      exact propext ⟨fun hor => hor.resolve_left h, Or.inr⟩
  · rfl

theorem recordsAbout_persist {e : EntryPoint} {b : Account} (h : other ≠ e.ownerName)
    (hb : a.persistFriendEntryPoint e = .ok b) : b.recordsAbout other = a.recordsAbout other := by
  unfold Account.persistFriendEntryPoint at hb
  split at hb
  · cases hb
  · split at hb
    · cases hb
      rfl
    · cases hb
      unfold Account.recordsAbout
      rw [List.filter_append, List.filter_cons_of_neg (by simpa using Ne.symm h), List.filter_nil,
        List.append_nil]

/-- A change of the records that leaves a name alone. -/
theorem keeps_recordChange {f : Account → Account}
    (h : ∀ a : Account, (f a).recordsAbout other = a.recordsAbout other)
    (r : List EntryPoint × Option AbsoluteCapability × (String → Prop) × Prop) :
    Exec.Keeps (fun w : Social => w.account.recordsAbout other = r) (recordChange f) :=
  Exec.Keeps.update fun w hw => (h w.account).trans hw

theorem keeps_tryRecordChange {f : Account → Result Account}
    (h : ∀ a b : Account, f a = .ok b → b.recordsAbout other = a.recordsAbout other)
    (r : List EntryPoint × Option AbsoluteCapability × (String → Prop) × Prop) :
    Exec.Keeps (fun w : Social => w.account.recordsAbout other = r) (tryRecordChange f) := by
  intro w hw
  unfold tryRecordChange Exec.ofExcept
  dsimp only
  cases hf : f w.account with
  | error e => exact hw
  | ok b => exact (h _ _ hf).trans hw

/-- Accepting a request changes nothing recorded about another name. -/
theorem recordsAbout_acceptFollowRequest {request : ReceivedFollowRequest}
    (hother : request.isFrom other = false) (reciprocate : Bool) (w : Social) :
    (acceptFollowRequest env request reciprocate w).2.account.recordsAbout other =
      w.account.recordsAbout other := by
  suffices Exec.Keeps (fun v : Social => v.account.recordsAbout other = w.account.recordsAbout other)
      (acceptFollowRequest env request reciprocate) from this.snd rfl
  unfold acceptFollowRequest replyToFollowRequest
  cases hentry : request.entry with
  | none =>
      unfold requestEntry
      rw [hentry]
      exact Exec.Keeps.fail _
  | some entry =>
      have hne : other ≠ entry.ownerName := by
        unfold ReceivedFollowRequest.isFrom at hother
        rw [hentry] at hother
        simpa using Ne.symm (by simpa using hother)
      have hrequest : requestEntry request = .ok entry := by rw [requestEntry, hentry]
      rw [hrequest, Exec.lift_ok_bind]
      dsimp only
      have hmember : ∀ group, Exec.Keeps
          (fun v : Social => v.account.recordsAbout other = w.account.recordsAbout other)
          (recordChange fun a => a.addMemberToGroup env group entry.ownerName) := fun group =>
        keeps_recordChange (fun a => recordsAbout_addMemberToGroup group hne) _
      refine (Exec.Keeps.lift _).bind fun identity => Exec.Keeps.bind ?_ fun cap =>
        (Exec.Keeps.reads _).bind fun username => ?_
      · unfold ourCapFor
        rw [if_pos rfl]
        refine (keeps_recordChange (fun a => recordsAbout_getOrMkdir env a hne) _).bind fun _ =>
          (hmember followersGroup).bind fun _ => ?_
        exact fun v hv => by
          rw [Exec.query_run]
          cases v.account.sharing entry.ownerName <;> exact hv
      · have hsend : ∀ key, Exec.Keeps
            (fun v : Social => v.account.recordsAbout other = w.account.recordsAbout other)
            (blindAndSend identity ⟨cap, username⟩ key) := fun key =>
          Exec.Keeps.update fun v hv => hv
        have hremove : Exec.Keeps
            (fun v : Social => v.account.recordsAbout other = w.account.recordsAbout other)
            (removeFollowRequest request.rawCipher) := Exec.Keeps.update fun v hv => hv
        cases reciprocate with
        | false => exact (hsend _).bind fun _ => hremove
        | true =>
            refine (hmember friendsGroup).bind fun _ => (hsend _).bind fun _ => ?_
            rw [if_pos rfl]
            refine (keeps_recordChange (f := fun a => a.removeFromUnfollowed entry.ownerName)
              (fun a => rfl) _).bind fun _ => ?_
            exact (keeps_tryRecordChange (fun a b hb => recordsAbout_persist hne hb) _).bind
              fun _ => hremove

end Accept

/-- **What a message in somebody's name can change.**  Messages from a name we are not waiting for,
or have blocked, change no record when the inbox is processed: the records are the same as if they
were not there.  Accepting a request changes nothing recorded about any other name than the one in
it. -/
theorem followMessages_confined (env : FollowEnv) (w : Social) (name : String) :
    (name ∉ w.account.pending ∨ name ∈ w.account.blocked →
      (processFollowRequests env w).2.account =
        (processFollowRequests env
          { w with inbox := w.inbox.filter fun p => !p.isFrom name }).2.account) ∧
    ∀ request reciprocate, request.isFrom name = false →
      (acceptFollowRequest env request reciprocate w).2.account.recordsAbout name =
        w.account.recordsAbout name := by
  refine ⟨fun h => ?_, fun request reciprocate hother =>
    recordsAbout_acceptFollowRequest hother reciprocate w⟩
  obtain ⟨w₁, h₁, hrun⟩ := account_processFollowRequests env w
  obtain ⟨w₂, h₂, hrun'⟩ := account_processFollowRequests env
    { w with inbox := w.inbox.filter fun p => !p.isFrom name }
  rw [hrun, hrun', ← latestReplies_classifyAll h]
  have hreplies := Exec.Lockstep.forEach
    (fun p : String × ReceivedFollowRequest => lockstep_logged (lockstep_processFollowReply
      env p.2)) (classifyAll env w.account w.inbox).latestReplies
  exact (hreplies w₁ w₂ (h₁.trans h₂.symm)).2

/-- Nobody but oneself. -/
def newAccount (username : String) (pending : Finset String) : Account :=
  ⟨username, fun _ => none, 0, fun _ => ∅, pending, ∅, ∅, []⟩

/-- The capability made of one byte, in the name of the owner of a key. -/
def byteCap (owner : PublicKeyHash) (n : UInt8) : AbsoluteCapability :=
  ⟨owner, owner, List.replicate 32 n, none, ⟨List.replicate 32 n, false⟩, none, rfl⟩

/-- The identity key of bob is the key 2. -/
def bobEnv : FollowEnv :=
  ⟨fun name => if name = "bob" then some (byteKey 2) else none,
    fun n => byteCap (byteKey 1) (UInt8.ofNat n), fun _ => true⟩

/-- A message that says it is from bob, with an entry point of the key 3. -/
def forgedReply : ReceivedFollowRequest :=
  ⟨some ⟨byteCap (byteKey 3) 9, "bob"⟩, some ⟨List.replicate 32 5, false⟩, [1]⟩

theorem followMessages_confined_unawaited :
    (processFollowRequests bobEnv ⟨newAccount "alice" ∅, [forgedReply], []⟩).2.account =
      (processFollowRequests bobEnv ⟨newAccount "alice" ∅, [], []⟩).2.account ∧
    (acceptFollowRequest bobEnv forgedReply true
        ⟨newAccount "alice" ∅, [forgedReply], []⟩).2.account.recordsAbout "carol" =
      (newAccount "alice" ∅).recordsAbout "carol" :=
  ⟨(followMessages_confined bobEnv ⟨newAccount "alice" ∅, [forgedReply], []⟩ "bob").1
      (Or.inl (Finset.notMem_empty _)),
    (followMessages_confined bobEnv ⟨newAccount "alice" ∅, [forgedReply], []⟩ "carol").2 forgedReply
      true rfl⟩

/-- While alice waits for bob's answer, a message in his name with an entry point of another owner
is recorded as his; and so it is when she accepts it as a request, waiting or not. -/
theorem forgedReply_recorded :
    bobEnv.getPublicKeyHash "bob" = some (byteKey 2) ∧ byteKey 3 ≠ byteKey 2 ∧
    (processFollowRequests bobEnv
      ⟨newAccount "alice" {"bob"}, [forgedReply], []⟩).2.account.friends =
        [⟨byteCap (byteKey 3) 9, "bob"⟩] ∧
    "bob" ∈ (processFollowRequests bobEnv
      ⟨newAccount "alice" {"bob"}, [forgedReply], []⟩).2.account.members friendsGroup ∧
    (acceptFollowRequest bobEnv forgedReply true
      ⟨newAccount "alice" ∅, [forgedReply], []⟩).2.account.friends =
        [⟨byteCap (byteKey 3) 9, "bob"⟩] ∧
    "bob" ∈ (acceptFollowRequest bobEnv forgedReply true
      ⟨newAccount "alice" ∅, [forgedReply], []⟩).2.account.members friendsGroup := by
  decide +kernel

end Peergos
