import PeergosClient.Fs.CapabilityCbor
import PeergosClient.Lib.Exec
import PeergosClient.Lib.Keyed
import PeergosClient.Social.Follow

/-!
# The social feed

What friends share with us reaches us through sharing files: `sharing.r` and `sharing.w` in the
folder a friend has for us, and the same two files in the folder of each group we are in.  Each is a
stream of capabilities that only grows.  The feed remembers how far each of them has been read, and
an update turns the capabilities after that into records.

The feed's own folder holds the stream of records, the byte offset of each record, and the state.
The state and the offsets are kept as values: their CBOR is left out.
-/

namespace Peergos

/-! ## Records -/

/-- `CapabilityWithPath`. -/
structure CapabilityWithPath where
  path : String
  cap : AbsoluteCapability
  deriving DecidableEq, Repr

/-- `SharedItem`. -/
structure SharedItem where
  cap : AbsoluteCapability
  owner : String
  sharer : String
  path : String
  deriving DecidableEq, Repr

namespace SharedItem

/-- `SharedItem::to_cbor`. -/
def toCbor (i : SharedItem) : CborObject :=
  .build [("c", i.cap.toCbor), ("o", .str i.owner), ("s", .str i.sharer), ("p", .str i.path)]

/-- `SharedItem::from_cbor`. -/
def fromCbor (cbor : CborObject) : Result SharedItem := do
  let cap ←
    match cbor.get "c" with
    | some c => AbsoluteCapability.fromCbor c
    | none => cborErr "SharedItem missing 'c'"
  let text (field : String) : String := ((cbor.get field).bind CborObject.asString).getD ""
  pure ⟨cap, text "o", text "s", text "p"⟩

theorem ordered_toCbor (i : SharedItem) : i.toCbor.Ordered := by
  refine CborObject.ordered_build fun e he => ?_
  simp only [List.mem_cons, List.not_mem_nil, or_false] at he
  rcases he with rfl | rfl | rfl | rfl
  · exact i.cap.ordered_toCbor
  · trivial
  · trivial
  · trivial

theorem fromCbor_toCbor {i : SharedItem} (h : i.cap.Encodable) : fromCbor i.toCbor = .ok i := by
  have hget : ∀ field, i.toCbor.get field = if field = "p" then some (.str i.path)
      else if field = "s" then some (.str i.sharer)
      else if field = "o" then some (.str i.owner)
      else if field = "c" then some i.cap.toCbor else none := by
    intro field
    simp only [toCbor, CborObject.build, List.foldl_cons, List.foldl_nil,
      CborObject.get_map_mapInsert]
    rfl
  simp [fromCbor, hget, AbsoluteCapability.fromCbor_toCbor h, CborObject.asString, pure, Except.pure]

end SharedItem

/-- `extract_owner`. -/
def extractOwner (path : String) : String :=
  String.ofList ((path.toList.dropWhile (· = '/')).takeWhile (· ≠ '/'))

/-- `group_uid_from_path`: a `/owner/shared/<.uid>` path names the folder of a group. -/
def groupUidFromPath (path : String) : Option String :=
  match (path.toList.splitOn '/').filter (· ≠ []) with
  | [_, shared, uid] =>
      if shared = "shared".toList ∧ uid.head? = some '.' then some (String.ofList uid) else none
  | _ => none

/-- The record made of a capability somebody shared. -/
def CapabilityWithPath.toItem (sharer : String) (c : CapabilityWithPath) : SharedItem :=
  ⟨c.cap, extractOwner c.path, sharer, c.path⟩

/-! ## The state -/

/-- How far the two sharing files of a folder have been read. -/
structure CapOffsets where
  readCapBytes : ℕ
  writeCapBytes : ℕ
  deriving DecidableEq, Repr, Inhabited

/-- `ProcessedCaps`: the offsets for a friend's folder for us, and for each of their groups. -/
structure ProcessedCaps extends CapOffsets where
  groups : String → CapOffsets

/-- `ProcessedCaps::default`. -/
instance : Inhabited ProcessedCaps := ⟨⟨⟨0, 0⟩, fun _ => ⟨0, 0⟩⟩⟩

/-- `FeedState`. -/
structure FeedState where
  lastSeenIndex : ℕ
  feedSizeRecords : ℕ
  feedSizeBytes : ℕ
  processed : String → ProcessedCaps

/-- `FeedState::default`. -/
instance : Inhabited FeedState := ⟨⟨0, 0, 0, fun _ => default⟩⟩

/-- The files in the feed's folder. -/
structure FeedDir where
  feedFile : Option Bytes
  feedIndex : Option (List ℕ)
  feedState : Option FeedState

/-- `SocialFeed`, with its folder. -/
structure SocialFeed where
  state : FeedState
  dir : FeedDir

/-- What an update gets from elsewhere: the friends, the sharing files of a folder by name, the path
of a capability if it still resolves, the parent of a post at a capability if it is a comment, and
whether comments could be merged into a post of ours. -/
structure FeedEnv where
  username : Option String
  friends : Result (List EntryPoint)
  sharingFile : AbsoluteCapability → String → Result (Option Bytes)
  resolveCapabilityPath : AbsoluteCapability → Result String
  parentPost : AbsoluteCapability → Option String
  addCommentsToParent : String → List SharedItem → Result Unit

/-! ## Reading what was shared -/

/-- The loop of `read_sharing_file` over what is left of the file. -/
def readSharedCaps (env : FeedEnv) : ℕ → Bytes → Result (List CapabilityWithPath)
  | _, [] => .ok []
  | 0, _ :: _ => .error .fuel
  | fuel + 1, b :: buf => do
      let (cbor, consumed) ← liftCbor (CborObject.fromBytesConsumed (b :: buf))
      if consumed = 0 then .ok []
      else do
        let cap ← AbsoluteCapability.fromCbor cbor
        let rest ← readSharedCaps env fuel ((b :: buf).drop consumed)
        -- a capability that does not resolve any more is dropped
        match env.resolveCapabilityPath cap with
        | .ok path => .ok (⟨path, cap⟩ :: rest)
        | .error _ => .ok rest

/-- `read_sharing_file`: the length of the file, and what it holds from an offset on. -/
def readSharingFile (env : FeedEnv) (folder : AbsoluteCapability) (filename : String)
    (startOffset : ℕ) : Result (ℕ × List CapabilityWithPath) := do
  match ← env.sharingFile folder filename with
  | none => .ok (0, [])
  | some bytes => do
      let caps ← readSharedCaps env bytes.length (bytes.drop (min startOffset bytes.length))
      .ok (bytes.length, caps)

/-- `load_new`. -/
def loadNew (env : FeedEnv) (dir : AbsoluteCapability) (since : CapOffsets) :
    Result (CapOffsets × List CapabilityWithPath) := do
  let (r, rcaps) ← readSharingFile env dir "sharing.r" since.readCapBytes
  let (w, wcaps) ← readSharingFile env dir "sharing.w" since.writeCapBytes
  .ok (⟨r, w⟩, rcaps ++ wcaps)

/-- The group folders among what was shared with us, by uid, the last one for a uid. -/
def groupDirs (direct : List CapabilityWithPath) : List (String × AbsoluteCapability) :=
  direct.foldl (fun dirs c =>
    match groupUidFromPath c.path with
    | some uid => Keyed.upsert compare Prod.fst (uid, c.cap) dirs
    | none => dirs) []

/-- The loop over the group folders. -/
def readGroups (env : FeedEnv) (name : String) : List (String × AbsoluteCapability) →
    (String → CapOffsets) → Result ((String → CapOffsets) × List SharedItem)
  | [], groups => .ok (groups, [])
  | (uid, dir) :: rest, groups => do
      let (offsets, caps) ← loadNew env dir (groups uid)
      let (groups, items) ← readGroups env name rest (Function.update groups uid offsets)
      .ok (groups, caps.map (·.toItem name) ++ items)

/-- What `update` reads for one friend. -/
def readFriend (env : FeedEnv) (friend : EntryPoint) (current : ProcessedCaps) :
    Result (ProcessedCaps × List SharedItem) := do
  let (offsets, direct) ← loadNew env friend.pointer current.toCapOffsets
  let items := direct.filter fun c => groupUidFromPath c.path = none
  let (groups, groupItems) ← readGroups env friend.ownerName (groupDirs direct) current.groups
  .ok (⟨offsets, groups⟩, items.map (·.toItem friend.ownerName) ++ groupItems)

/-! ## Writing the feed -/

/-- The post of ours that an item comments on. -/
def ownParent (env : FeedEnv) (username : String) (i : SharedItem) : Option String :=
  (env.parentPost i.cap).filter fun p => p.startsWith ("/" ++ username ++ "/")

/-- `merge_in_comments`: the comments on each of our posts, post by post. -/
def mergeInComments (env : FeedEnv) (items : List SharedItem) : Result Unit :=
  match env.username with
  | none => .ok ()
  | some username =>
      ((items.filterMap (ownParent env username)).dedup.mergeSort).forM fun parent =>
        env.addCommentsToParent parent
          (items.filter fun i => ownParent env username i = some parent)

/-- The loop of `add_to_feed`: each record goes to the end, and its offset into the index. -/
def appendRecords : List SharedItem → Bytes → List ℕ → Bytes × List ℕ
  | [], data, index => (data, index)
  | item :: items, data, index =>
      appendRecords items (data ++ item.toCbor.toBytes) (index ++ [data.length])

/-- What `add_to_feed` writes once the comments are merged. -/
def SocialFeed.append (items : List SharedItem) (s : SocialFeed) : SocialFeed :=
  let (data, index) := appendRecords items (s.dir.feedFile.getD []) (s.dir.feedIndex.getD [])
  let state :=
    { s.state with
      feedSizeRecords := s.state.feedSizeRecords + items.length
      feedSizeBytes := data.length }
  ⟨state, ⟨some data, some index, some state⟩⟩

/-- `add_to_feed`: with nothing to add, nothing is written, the state neither. -/
def addToFeed (env : FeedEnv) (items : List SharedItem) : Exec SocialFeed Fault Unit :=
  if items = [] then pure ()
  else do
    Exec.lift (mergeInComments env items)
    Exec.update (SocialFeed.append items)

/-- Record how far a friend's files have been read. -/
def SocialFeed.setProcessed (name : String) (current : ProcessedCaps) (s : SocialFeed) :
    SocialFeed :=
  { s with state := { s.state with processed := Function.update s.state.processed name current } }

/-- The body of the loop of `update`. -/
def updateFriend (env : FeedEnv) (friend : EntryPoint) : Exec SocialFeed Fault Unit := do
  let (current, items) ←
    Exec.query fun s => readFriend env friend (s.state.processed friend.ownerName)
  Exec.update (SocialFeed.setProcessed friend.ownerName current)
  addToFeed env items

/-- `SocialFeed::update`. -/
def updateFeed (env : FeedEnv) : Exec SocialFeed Fault Unit :=
  match env.username with
  | none => Exec.fail (.err (.protocol "not signed in"))
  | some _ => do
      let friends ← Exec.lift env.friends
      Exec.forEach friends (updateFriend env)

/-- The feed as its folder has it; the first time, an empty state is put there. -/
def SocialFeed.load (dir : FeedDir) : SocialFeed :=
  match dir.feedState with
  | some state => ⟨state, dir⟩
  | none => ⟨default, { dir with feedState := some default }⟩

/-- `SocialFeed::create`. -/
def createFeed (env : FeedEnv) (dir : FeedDir) : Except Fault Unit × SocialFeed :=
  updateFeed env (SocialFeed.load dir)

/-! ## Reading the feed -/

namespace SocialFeed

/-- `prior_byte_offset`. -/
def priorByteOffset (s : SocialFeed) (index : ℕ) : ℕ × ℕ :=
  match (s.dir.feedIndex.getD [])[index]? with
  | some off => (off, index)
  | none => (0, 0)

/-- The loop of `get_shared` over what is left of the stream. -/
def readRecords (first want : ℕ) :
    ℕ → Bytes → ℕ → List SharedItem → Result (List SharedItem)
  | 0, buf, _, out => if buf = [] ∨ want ≤ out.length then .ok out else .error .fuel
  | fuel + 1, buf, record, out =>
      if buf = [] ∨ want ≤ out.length then .ok out
      else do
        let (cbor, consumed) ← liftCbor (CborObject.fromBytesConsumed buf)
        if consumed = 0 then .ok out
        else if first ≤ record then do
          let item ← SharedItem.fromCbor cbor
          readRecords first want fuel (buf.drop consumed) (record + 1) (out ++ [item])
        else readRecords first want fuel (buf.drop consumed) (record + 1) out

/-- `get_shared`. -/
def getShared (s : SocialFeed) (first upTo : ℕ) : Result (List SharedItem) :=
  match s.dir.feedFile with
  | none => .ok []
  | some bytes =>
      let (startByte, startIndex) := s.priorByteOffset first
      readRecords first (min s.state.feedSizeRecords upTo - first) bytes.length
        (bytes.drop (min startByte bytes.length)) startIndex []

/-- `feed_size`. -/
def feedSize (s : SocialFeed) : ℕ := s.state.feedSizeRecords

end SocialFeed

end Peergos
