import PeergosClient.Fs.Cryptree

/-!
# Follow requests

Two users come to share with each other through messages: a follow request gives the other side the
capability of our sharing folder for them, and their answer says whether they follow us back and
whether we may follow them.  The messages are encrypted to the receiver and anonymous on the way;
who sent one is only said inside it.

The state is what an account has recorded: the sharing folders for its followers, the members of its
groups, the requests it is waiting on, whom it has unfollowed or blocked, and the entry points to
the folders others share with it.  What is shared through a folder is not part of it, so re-keying
it when a follower is revoked is not either.
-/

namespace Peergos

/-- `EntryPoint`: a capability, and the name of the user it is said to belong to. -/
structure EntryPoint where
  pointer : AbsoluteCapability
  ownerName : String
  deriving DecidableEq, Repr

/-- `ReceivedFollowRequest`. -/
structure ReceivedFollowRequest where
  entry : Option EntryPoint
  key : Option SymmetricKey
  rawCipher : Bytes
  deriving DecidableEq, Repr

/-- `FOLLOWERS_GROUP`. -/
def followersGroup : String := "followers"

/-- `FRIENDS_GROUP`. -/
def friendsGroup : String := "friends"

/-- What an account has recorded about others. -/
structure Account where
  username : String
  sharing : String → Option AbsoluteCapability
  dirsMade : ℕ
  members : String → Finset String
  pending : Finset String
  unfollowed : Finset String
  blocked : Finset String
  friends : List EntryPoint

/-- The account, its inbox on the server, and what it has sent: an entry point and perhaps a key, to
the owner of an identity key. -/
structure Social where
  account : Account
  inbox : List ReceivedFollowRequest
  sent : List (PublicKeyHash × EntryPoint × Option SymmetricKey)

/-- What the calls get from elsewhere: the PKI, the capabilities of new folders, and which
capabilities can be retrieved. -/
structure FollowEnv where
  getPublicKeyHash : String → Option PublicKeyHash
  newDir : ℕ → AbsoluteCapability
  retrievable : AbsoluteCapability → Bool

/-! ## Capabilities -/

/-- `is_null_cap`. -/
def isNullCap (cap : AbsoluteCapability) : Bool := cap.mapKey.all (· = 0)

/-- `null_capability`. -/
def nullCapability : Result AbsoluteCapability := do
  let owner ← PublicKeyHash.identity (List.replicate 32 0)
  let writer ← PublicKeyHash.identity (List.replicate 32 0)
  pure ⟨owner, writer, List.replicate 32 0, none, ⟨List.replicate 32 0, false⟩, none, rfl⟩

/-- `AbsoluteCapability::read_only`. -/
def AbsoluteCapability.readOnly (cap : AbsoluteCapability) : AbsoluteCapability :=
  { cap with wBaseKey := none }

/-! ## Changes to the records -/

namespace Account

/-- `follower_dirs`, and the names in `follower_roots`. -/
def hasDir (a : Account) (name : String) : Bool := (a.sharing name).isSome && !name.startsWith "."

/-- `get_or_mkdir` in the sharing folder. -/
def getOrMkdir (env : FollowEnv) (a : Account) (name : String) : Account :=
  match a.sharing name with
  | some _ => a
  | none =>
      { a with
        sharing := Function.update a.sharing name (some (env.newDir a.dirsMade))
        dirsMade := a.dirsMade + 1 }

/-- `add_member_to_group`: the group's folder is shared with the member, in a folder for them that
is made if it is not there. -/
def addMemberToGroup (env : FollowEnv) (a : Account) (group member : String) : Account :=
  let a := a.getOrMkdir env member
  { a with members := Function.update a.members group (insert member (a.members group)) }

/-- `remove_from_pending_outgoing`. -/
def removeFromPendingOutgoing (a : Account) (name : String) : Account :=
  { a with pending := a.pending.erase name }

/-- `remove_from_unfollowed`. -/
def removeFromUnfollowed (a : Account) (name : String) : Account :=
  { a with unfollowed := a.unfollowed.erase name }

/-- `revoke_follower`: members without a folder leave all groups, and so does the follower, whose
folder goes. -/
def revokeFollower (a : Account) (name : String) : Account :=
  { a with
    members := fun g => (a.members g).filter fun m => a.hasDir m ∧ m ≠ name
    sharing := Function.update a.sharing name none }

/-- `persist_friend_entry_point`. -/
def persistFriendEntryPoint (a : Account) (entry : EntryPoint) : Result Account :=
  if entry.ownerName = a.username then
    protocolErr "cannot add an entry point to your own filesystem"
  else if entry ∈ a.friends then pure a
  else pure { a with friends := a.friends ++ [entry] }

/-- `get_following`. -/
def following (env : FollowEnv) (a : Account) (name : String) : Bool :=
  name ∉ a.unfollowed ∧ name ∉ a.blocked ∧
    a.friends.any fun e => e.ownerName = name && env.retrievable e.pointer

end Account

/-! ## Answers -/

section Calls

variable (env : FollowEnv)

/-- A change of the records. -/
def recordChange (f : Account → Account) : Exec Social Fault Unit :=
  Exec.update fun w => { w with account := f w.account }

/-- A change of the records that may fail. -/
def tryRecordChange (f : Account → Result Account) : Exec Social Fault Unit :=
  Exec.ofExcept fun w => (f w.account).map fun a => ((), { w with account := a })

/-- `get_public_keys`, less the boxing key. -/
def getPublicKeys (username : String) : Result PublicKeyHash :=
  match env.getPublicKeyHash username with
  | some identity => .ok identity
  | none => protocolErr s!"Unknown username: {username}"

/-- `blind_and_send`. -/
def blindAndSend (target : PublicKeyHash) (entry : EntryPoint) (key : Option SymmetricKey) :
    Exec Social Fault Unit :=
  Exec.update fun w => { w with sent := w.sent ++ [(target, entry, key)] }

/-- `remove_follow_request`. -/
def removeFollowRequest (rawCipher : Bytes) : Exec Social Fault Unit :=
  Exec.update fun w => { w with inbox := w.inbox.filter fun p => p.rawCipher ≠ rawCipher }

/-- The entry point of a request that is answered. -/
def requestEntry (request : ReceivedFollowRequest) : Result EntryPoint :=
  match request.entry with
  | some entry => .ok entry
  | none => protocolErr "follow request has no entry point"

/-- The capability we answer with. -/
def ourCapFor (accept : Bool) (theirName : String) : Exec Social Fault AbsoluteCapability :=
  if accept then do
    recordChange fun a => a.getOrMkdir env theirName
    recordChange fun a => a.addMemberToGroup env followersGroup theirName
    Exec.query fun w =>
      match w.account.sharing theirName with
      | some cap => .ok cap.readOnly
      | none => .error .panic
  else Exec.lift nullCapability

/-- `reply_to_follow_request`. -/
def replyToFollowRequest (request : ReceivedFollowRequest) (accept reciprocate : Bool) :
    Exec Social Fault Unit := do
  let entry ← Exec.lift (requestEntry request)
  let theirName := entry.ownerName
  let theirIdentity ← Exec.lift (getPublicKeys env theirName)
  let ourCap ← ourCapFor env accept theirName
  let username ← Exec.reads fun w : Social => w.account.username
  if accept && reciprocate then
    recordChange fun a => a.addMemberToGroup env friendsGroup theirName
  blindAndSend theirIdentity ⟨ourCap, username⟩
    (if reciprocate then some entry.pointer.rBaseKey else none)
  if reciprocate then
    recordChange fun a => a.removeFromUnfollowed theirName
    tryRecordChange fun a => a.persistFriendEntryPoint entry
  removeFollowRequest request.rawCipher

/-- `accept_follow_request`. -/
def acceptFollowRequest (request : ReceivedFollowRequest) (reciprocate : Bool) :
    Exec Social Fault Unit :=
  replyToFollowRequest env request true reciprocate

/-- `reject_follow_request`. -/
def rejectFollowRequest (request : ReceivedFollowRequest) (reciprocate : Bool) :
    Exec Social Fault Unit := do
  let entry ← Exec.lift (requestEntry request)
  recordChange fun a => a.revokeFollower entry.ownerName
  replyToFollowRequest env request false reciprocate

/-- `reaffirm_follow_request`. -/
def reaffirmFollowRequest (request : ReceivedFollowRequest) (ourDirForThem : AbsoluteCapability) :
    Exec Social Fault Unit := do
  let theirs ← Exec.lift (requestEntry request)
  let username ← Exec.reads fun w : Social => w.account.username
  let theirIdentity ← Exec.lift (getPublicKeys env theirs.ownerName)
  blindAndSend theirIdentity ⟨ourDirForThem.readOnly, username⟩ (some theirs.pointer.rBaseKey)
  removeFollowRequest request.rawCipher

/-! ## Replies -/

/-- The changes `process_follow_reply` makes to the records. -/
def Account.followReply (a : Account) (entry : EntryPoint) (key : Option SymmetricKey) :
    Result Account :=
  let theirName := entry.ownerName
  match key with
  | none =>
      let a := (a.revokeFollower theirName).removeFromPendingOutgoing theirName
      if isNullCap entry.pointer then pure a
      else do
        let a ← a.persistFriendEntryPoint entry
        pure (a.removeFromPendingOutgoing theirName)
  | some _ =>
      -- they follow us, but we can't follow them: nothing but the group changes
      if isNullCap entry.pointer then pure (a.addMemberToGroup env followersGroup theirName)
      else do
        let a := (a.addMemberToGroup env followersGroup theirName).addMemberToGroup env friendsGroup
          theirName
        let a ← a.persistFriendEntryPoint entry
        pure (a.removeFromPendingOutgoing theirName)

/-- `process_follow_reply`. -/
def processFollowReply (request : ReceivedFollowRequest) : Exec Social Fault Unit := do
  let username ← Exec.reads fun w : Social => w.account.username
  match request.entry with
  | some entry =>
      if entry.ownerName = username then removeFollowRequest request.rawCipher
      else do
        tryRecordChange fun a => a.followReply env entry request.key
        removeFollowRequest request.rawCipher
  | none => removeFollowRequest request.rawCipher

/-! ## The inbox -/

/-- What is to be done with the messages of an inbox. -/
structure Classified where
  latestReplies : List (String × ReceivedFollowRequest)
  initial : List (String × ReceivedFollowRequest)
  toDiscard : List ReceivedFollowRequest
  toReaffirm : List ReceivedFollowRequest
  toReject : List ReceivedFollowRequest

/-- A newer message takes the place of an earlier one of its sender, which is dropped. -/
def replaceLatest (l : List (String × ReceivedFollowRequest)) (sender : String)
    (p : ReceivedFollowRequest) :
    List (String × ReceivedFollowRequest) × List ReceivedFollowRequest :=
  match l.find? fun q => q.1 = sender with
  | some q => (l.map fun r => if r.1 = sender then (sender, p) else r, [q.2])
  | none => (l ++ [(sender, p)], [])

/-- The loop of `process_follow_requests` over the inbox. -/
def classify (a : Account) (c : Classified) (p : ReceivedFollowRequest) : Classified :=
  match p.entry with
  | none => { c with toDiscard := c.toDiscard ++ [p] }
  | some entry =>
      let sender := entry.ownerName
      let replyShaped := p.key.isNone || isNullCap entry.pointer
      if sender ∈ a.blocked then
        if replyShaped then { c with toDiscard := c.toDiscard ++ [p] }
        else { c with toReject := c.toReject ++ [p] }
      else if sender ∈ a.pending then
        let (latest, earlier) := replaceLatest c.latestReplies sender p
        { c with latestReplies := latest, toDiscard := c.toDiscard ++ earlier }
      else if replyShaped then { c with toDiscard := c.toDiscard ++ [p] }
      else if a.hasDir sender && a.following env sender then
        { c with toReaffirm := c.toReaffirm ++ [p] }
      else
        let (latest, earlier) := replaceLatest c.initial sender p
        { c with initial := latest, toDiscard := c.toDiscard ++ earlier }

/-- The messages sorted. -/
def classifyAll (a : Account) (all : List ReceivedFollowRequest) : Classified :=
  all.foldl (classify env a) ⟨[], [], [], [], []⟩

/-- A failure is logged, and the call goes on. -/
def logged (x : Exec Social Fault Unit) : Exec Social Fault Unit := do
  let _ ← Exec.attempt x
  pure ()

/-- The answer to a friend, with the folder `follower_roots` has for them. -/
def reaffirmListed (account : Account) (p : ReceivedFollowRequest) : Exec Social Fault Unit := do
  let entry ← Exec.lift (requestEntry p)
  match account.sharing entry.ownerName with
  | some dir => reaffirmFollowRequest env p dir
  | none => Exec.fail .panic

/-- `process_follow_requests`, from the decrypted messages of the inbox on. -/
def processFollowRequests : Exec Social Fault (List ReceivedFollowRequest) := do
  let all ← Exec.reads fun w : Social => w.inbox
  let account ← Exec.reads fun w : Social => w.account
  let c := classifyAll env account all
  Exec.forEach c.toDiscard fun p => logged (removeFollowRequest p.rawCipher)
  Exec.forEach c.toReject fun p => logged (replyToFollowRequest env p false false)
  Exec.forEach c.toReaffirm fun p => logged (reaffirmListed env account p)
  Exec.forEach c.latestReplies fun p => logged (processFollowReply env p.2)
  pure (c.initial.map Prod.snd)

end Calls

end Peergos
