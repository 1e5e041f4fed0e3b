import PeergosClient.Lib.RecordStream
import PeergosClient.Social.Feed

/-!
# The feed over a whole history

Friends append capabilities to their sharing files, some of them to the files of a group, and now and
then the feed is updated or opened again from what it saved.  `Reader` is the reader the feed ought
to be: it goes through the files of every friend and of every group it has been let into, and
remembers for each capability where it resolved to when it first came across it.  The feed is
complete if there is exactly one record for each capability that resolved.
-/

namespace Peergos

open RecordStream

/-! ## What friends share -/

/-- The two sharing files of a folder. -/
inductive SharingFile where
  | read
  | write
  deriving DecidableEq, Repr

/-- `READ_SHARING_FILE`, `WRITE_SHARING_FILE`. -/
def SharingFile.filename : SharingFile → String
  | .read => "sharing.r"
  | .write => "sharing.w"

/-- A stream of shared capabilities: a file of a friend's folder for us, or of one of their
groups'. -/
structure Source where
  friend : String
  group : Option String
  file : SharingFile
  deriving DecidableEq, Repr

/-- A capability as it can stand in a sharing file. -/
abbrev SharedCap := { c : AbsoluteCapability // c.Encodable }

/-- The bytes `append_cap_to_friend` adds for a capability. -/
def SharedCap.bytes (c : SharedCap) : Bytes := c.1.toCbor.toBytes

/-- What has been shared with us at some moment, and which capabilities resolve. -/
structure Shares where
  friends : List EntryPoint
  entries : Source → List SharedCap
  resolve : AbsoluteCapability → Option String
  nodup_names : (friends.map EntryPoint.ownerName).Nodup

namespace Shares

variable (w : Shares)

/-- The names of the friends. -/
def names : List String := w.friends.map EntryPoint.ownerName

/-- The groups of a friend that we have been given a capability of that resolves. -/
def groupsOpened (name : String) : Set String :=
  {uid | ∃ file, ∃ c ∈ w.entries ⟨name, none, file⟩, ∃ path,
    w.resolve c.1 = some path ∧ groupUidFromPath path = some uid}

/-- Time passes: the files grow, friends come and go, capabilities begin or cease to resolve. -/
def Grows (w w' : Shares) : Prop := ∀ src, w.entries src <+: w'.entries src

/-- The records of a sharing file from a byte offset on. -/
def unread (src : Source) (off : ℕ) : List SharedCap :=
  recordsAfter SharedCap.bytes (w.entries src) off

/-- The length of a sharing file. -/
def fileLength (src : Source) : ℕ := (concat SharedCap.bytes (w.entries src)).length

end Shares

/-- A folder has a sharing file with these capabilities, or none if there are none.  The file is one
that can be read into a `Vec`. -/
def StoresCaps (env : FeedEnv) (folder : AbsoluteCapability) (file : SharingFile)
    (caps : List SharedCap) : Prop :=
  (∃ bytes, env.sharingFile folder file.filename = .ok bytes ∧
    bytes.getD [] = concat SharedCap.bytes caps) ∧
  (concat SharedCap.bytes caps).length < 2 ^ 63

/-- The surroundings of an update at a moment: whatever capability of a group's folder a friend has
given us opens that group's folder. -/
structure Serves (env : FeedEnv) (w : Shares) : Prop where
  signedIn : env.username ≠ none
  friends : env.friends = .ok w.friends
  resolve : ∀ c, (env.resolveCapabilityPath c).toOption = w.resolve c
  direct : ∀ f ∈ w.friends, ∀ file,
    StoresCaps env f.pointer file (w.entries ⟨f.ownerName, none, file⟩)
  group : ∀ f ∈ w.friends, ∀ file, ∀ c ∈ w.entries ⟨f.ownerName, none, file⟩, ∀ path uid,
    w.resolve c.1 = some path → groupUidFromPath path = some uid →
    ∀ file', StoresCaps env c.1 file' (w.entries ⟨f.ownerName, some uid, file'⟩)

/-! ## The reader -/

/-- A reader that misses nothing: how many capabilities of each source it has come across, where
each of them resolved to then, and the groups it has been let into. -/
structure Reader where
  count : Source → ℕ
  path : Source → ℕ → Option String
  groups : String → Set String

namespace Reader

/-- A reader that has read nothing. -/
def empty : Reader := ⟨fun _ => 0, fun _ _ => none, fun _ => ∅⟩

/-- The groups of a friend the reader knows of once it has looked at their files again. -/
def known (w : Shares) (g : Reader) (name : String) : Set String :=
  g.groups name ∪ w.groupsOpened name

/-- The sources of a friend the reader goes through. -/
def looksAt (w : Shares) (g : Reader) (name : String) (src : Source) : Prop :=
  src.friend = name ∧ ∀ uid ∈ src.group, uid ∈ g.known w name

open Classical in
/-- The reader goes through the files of a friend and of the groups of theirs it knows. -/
noncomputable def pollFriend (w : Shares) (g : Reader) (name : String) : Reader where
  count src := if g.looksAt w name src then (w.entries src).length else g.count src
  path src i :=
    if g.looksAt w name src ∧ g.count src ≤ i then
      ((w.entries src)[i]?).bind fun c => w.resolve c.1
    else g.path src i
  groups := Function.update g.groups name (g.known w name)

/-- The reader goes through the files of every friend. -/
noncomputable def poll (w : Shares) (g : Reader) : Reader := w.names.foldl (pollFriend w) g

/-- The capability at a place of a source resolved when it was first read, and is not the folder of
a group given to us. -/
def Resolved (g : Reader) (src : Source) (i : ℕ) (path : String) : Prop :=
  g.path src i = some path ∧ (src.group = none → groupUidFromPath path = none)

end Reader

/-! ## Histories -/

/-- The offset that a feed has for a source. -/
def FeedState.offset (st : FeedState) (src : Source) : ℕ :=
  let offsets :=
    match src.group with
    | none => (st.processed src.friend).toCapOffsets
    | some uid => (st.processed src.friend).groups uid
  match src.file with
  | .read => offsets.readCapBytes
  | .write => offsets.writeCapBytes

/-- The state that opening the feed again would begin with. -/
def FeedDir.saved (dir : FeedDir) : FeedState := dir.feedState.getD default

/-- A friend's groups that have something new have also been given to us anew, and new comments on
our posts can be merged into them. -/
structure CoversFriend (env : FeedEnv) (w : Shares) (g : Reader) (st : FeedState) (name : String) :
    Prop where
  groups : ∀ uid ∈ g.known w name, ∀ file,
    st.offset ⟨name, some uid, file⟩ < w.fileLength ⟨name, some uid, file⟩ →
    ∃ file', ∃ c ∈ w.unread ⟨name, none, file'⟩ (st.offset ⟨name, none, file'⟩), ∃ path,
      w.resolve c.1 = some path ∧ groupUidFromPath path = some uid
  comments : ∀ src, src.friend = name → ∀ c ∈ w.unread src (st.offset src),
    ∀ username ∈ env.username, ∀ parent, env.parentPost c.1 = some parent →
    parent.startsWith ("/" ++ username ++ "/") →
    ∀ items, env.addCommentsToParent parent items = .ok ()

/-- The condition on every friend. -/
def Covers (env : FeedEnv) (w : Shares) (g : Reader) (st : FeedState) : Prop :=
  ∀ name ∈ w.names, CoversFriend env w g st name

/-- The histories of a feed: friends share, the feed is updated, or it is opened from its folder.
`cond` is asked of the surroundings and of the feed's state at each update. -/
inductive FeedRun (cond : FeedEnv → Shares → Reader → FeedState → Prop) :
    Shares → SocialFeed → Reader → Prop
  | start (w : Shares) : FeedRun cond w ⟨default, ⟨none, none, none⟩⟩ Reader.empty
  | shared {w w' : Shares} {s : SocialFeed} {g : Reader} (h : FeedRun cond w s g)
      (hgrows : w.Grows w') : FeedRun cond w' s g
  | updated {w : Shares} {s : SocialFeed} {g : Reader} (h : FeedRun cond w s g) (env : FeedEnv)
      (henv : Serves env w) (hcond : cond env w g s.state) :
      FeedRun cond w (updateFeed env s).2 (g.poll w)
  | created {w : Shares} {s : SocialFeed} {g : Reader} (h : FeedRun cond w s g) (env : FeedEnv)
      (henv : Serves env w) (hcond : cond env w g s.dir.saved) :
      FeedRun cond w (createFeed env s.dir).2 (g.poll w)

/-- A record is for a place in a source: it holds the capability there, with the path it resolved to
when it was first read. -/
def RecordOf (w : Shares) (g : Reader) (t : Source × ℕ) (r : SharedItem) : Prop :=
  (∃ c, (w.entries t.1)[t.2]? = some c ∧ r.cap = c.1) ∧ r.sharer = t.1.friend ∧
    r.owner = extractOwner r.path ∧ ∀ path, g.Resolved t.1 t.2 path → r.path = path

/-- The feed holds these records, made of the capabilities at these places: no place twice, and all
those that resolved when first read.  A feed file that can be read at all is given out range by
range. -/
structure FeedHolds (w : Shares) (g : Reader) (s : SocialFeed) (records : List SharedItem)
    (places : List (Source × ℕ)) : Prop where
  none_twice : places.Nodup
  recordOf : List.Forall₂ (RecordOf w g) places records
  none_missing : ∀ src i path, g.Resolved src i path → (src, i) ∈ places
  size : s.feedSize = records.length
  getShared : (s.dir.feedFile.getD []).length < 2 ^ 63 → ∀ first upTo,
    s.getShared first upTo = .ok ((records.take (min upTo s.feedSize)).drop first)

end Peergos
