import PeergosClient.Fs.DirectoryUpload
import PeergosClient.Fs.UploadRead
import PeergosClient.Sync.Conflict

/-!
# The two synced file systems

A synced directory is on the local disk or in Peergos.  The sync copies a whole file by reading it
on one side and writing it at offset 0 on the other.  In Peergos this replaces the file; on the disk
it writes over the beginning of the file that is there, and what a longer file has after it stays.

Paths are relative and normal.  Errors of the disk, other than those of a path that is taken, and
the texts of its errors are left out.
-/

namespace Peergos

open KeyedMap Chunks

/-! ## The local disk -/

/-- What stands at a path of the disk. -/
inductive LocalEntry where
  | file (bytes : Bytes)
  | dir
  deriving DecidableEq, Repr

/-- The disk below the root of the synced directory. -/
abbrev LocalFiles := SyncPath → Option LocalEntry

/-- `write_all` at a position: a gap before it is filled with zeros. -/
def writeAllAt (bytes : Bytes) (offset : ℕ) (data : Bytes) : Bytes :=
  if data = [] then bytes
  else splice (bytes ++ List.replicate (offset - bytes.length) 0) offset data

namespace LocalFileSystem

/-- `fs::create_dir_all`, below a directory that is there. -/
def createDirAll (base : SyncPath) : SyncPath → Exec LocalFiles Fault Unit
  | [] => pure ()
  | name :: rest => do
      match ← Exec.reads fun files : LocalFiles => files (base ++ [name]) with
      | some .dir => createDirAll (base ++ [name]) rest
      | some (.file _) => Exec.fail (.err (.protocol "Not a directory"))
      | none => do
          Exec.update fun files => Function.update files (base ++ [name]) (some .dir)
          createDirAll (base ++ [name]) rest

/-- `LocalFileSystem::write`. -/
def write (p : SyncPath) (data : Bytes) (fileOffset : ℕ) : Exec LocalFiles Fault Unit := do
  createDirAll [] p.dropLast
  if p = [] then Exec.fail (.err (.protocol "Is a directory"))
  else
    -- the file is created if it is not there, and not cut short if it is
    match ← Exec.reads fun files : LocalFiles => files p with
    | some .dir => Exec.fail (.err (.protocol "Is a directory"))
    | some (.file bytes) =>
        Exec.update fun files => Function.update files p (some (.file (writeAllAt bytes fileOffset data)))
    | none =>
        Exec.update fun files => Function.update files p (some (.file (writeAllAt [] fileOffset data)))

/-- `LocalFileSystem::read`. -/
def read (files : LocalFiles) (p : SyncPath) : Result Bytes :=
  match files p with
  | some (.file bytes) => .ok bytes
  | some .dir => protocolErr "Is a directory"
  | none => protocolErr "No such file or directory"

/-- The bytes of the file at a path, if there is one. -/
def existing (files : LocalFiles) (p : SyncPath) : Bytes :=
  match files p with
  | some (.file bytes) => bytes
  | _ => []

end LocalFileSystem

/-! ## Peergos -/

/-- `PeergosSyncFS`, as far as reads and writes go. -/
structure PeergosSyncFS where
  rootCap : AbsoluteCapability
  mirrorBat : Option BatId

/-- What an upload draws: the time, the keys of the file and its write key. -/
structure UploadDraw where
  epoch : ℤ
  keys : FileKeys
  wBaseKey : SymmetricKey

/-- The loop of `resolve_cap`. -/
def resolveFrom (fuel : ℕ) (net : Network) :
    AbsoluteCapability → SyncPath → Result (Option AbsoluteCapability)
  | current, [] => pure (some current)
  | current, name :: rest => do
      let children ← listDirectory fuel net current
      match children.find? (·.name = name) with
      | some child => resolveFrom fuel net child.cap rest
      | none => pure none

/-- `Path::file_name`. -/
def fileName (p : SyncPath) : Option String :=
  match p.getLast? with
  | some ".." => none
  | name => name

/-- What a failed write did is taken back. -/
def rollbackOnErr {σ α : Type} (x : Exec σ Fault α) : Exec σ Fault α := fun s =>
  match x s with
  | (.ok a, s') => (.ok a, s')
  | (.error e, _) => (.error e, s)

/-- The parent of a path, as `write` looks it up: the root is written as a dot. -/
def parentPath (p : SyncPath) : SyncPath := if p.dropLast = [] then ["."] else p.dropLast

namespace PeergosSyncFS

variable (H : ContentHasher) (fs : PeergosSyncFS)

/-- `PeergosSyncFS::resolve_cap`. -/
def resolveCap (fuel : ℕ) (net : Network) (p : SyncPath) : Result (Option AbsoluteCapability) :=
  resolveFrom fuel net fs.rootCap p

/-- The request of `upload_file`. -/
def request (draw : UploadDraw) (parent : AbsoluteCapability) (name : String) (data : Bytes)
    (signer : SigningPrivateKeyAndPublicHash) : UploadRequest :=
  ⟨parent, name, data.length, false, chunkSizeForNewFiles, none, some signer, fs.mirrorBat,
    draw.epoch, draw.keys, draw.wBaseKey⟩

/-- `PeergosSyncFS::write`: the offset is not looked at. -/
def write (media : Media) (dir : DirParams) (draw : UploadDraw) (p : SyncPath) (data : Bytes)
    (_fileOffset : ℕ) : Exec Network Fault Unit :=
  rollbackOnErr do
    match ← Exec.query fun net => fs.resolveCap dir.fuel net (parentPath p) with
    | none => Exec.fail (.err (.protocol "parent not found"))
    | some parent =>
        match fileName p with
        | none => Exec.fail .panic
        | some name => do
            let signer ← Exec.query fun net => recoverSigner net parent
            let _ ← uploadFileStreaming H media dir (fs.request draw parent name data signer) data
            pure ()

/-- `PeergosSyncFS::read`. -/
def read (fuel : ℕ) (net : Network) (p : SyncPath) : Result Bytes := do
  match ← fs.resolveCap fuel net p with
  | none =>
      let shown := "/".intercalate p
      protocolErr s!"not found: {shown}"
  | some cap => do
      let (_, data) ← readFile H fuel net cap
      pure data

end PeergosSyncFS

/-! ## Writing to the disk -/

namespace LocalFileSystem

variable {files files' : LocalFiles} {p : SyncPath} {data : Bytes}

/-- Making directories leaves what is deeper. -/
theorem createDirAll_ok {base rest : SyncPath}
    (h : createDirAll base rest files = (.ok (), files')) (hp : (base ++ rest).length < p.length) :
    files' p = files p := by
  induction rest generalizing base files with
  | nil =>
      cases h
      rfl
  | cons name rest ih =>
      have hlen : (base ++ [name] ++ rest).length < p.length := by
        simpa [List.length_append] using hp
      unfold createDirAll at h
      obtain ⟨entry, files₁, hread, h⟩ := Exec.bind_eq_ok h
      cases hread
      dsimp only at h
      cases hentry : files (base ++ [name]) with
      | none =>
          rw [hentry] at h
          obtain ⟨⟨⟩, files₂, hupdate, h⟩ := Exec.bind_eq_ok h
          cases hupdate
          rw [ih h hlen]
          refine Function.update_of_ne ?_ _ _
          rintro rfl
          simp at hlen
      | some entry =>
          rw [hentry] at h
          cases entry with
          | file bytes => cases h
          | dir => exact ih h hlen

/-- A write that succeeded: the data is over what was there. -/
theorem write_ok {fileOffset : ℕ} (h : write p data fileOffset files = (.ok (), files')) :
    files' p = some (.file (writeAllAt (existing files p) fileOffset data)) := by
  unfold write at h
  obtain ⟨⟨⟩, files₁, hdirs, h⟩ := Exec.bind_eq_ok h
  split_ifs at h with hroot
  · cases h
  · have hlen : ([] ++ p.dropLast).length < p.length := by
      have := List.length_pos_of_ne_nil hroot
      simp
      omega
    have hsame := createDirAll_ok hdirs hlen
    obtain ⟨entry, files₂, hread, h⟩ := Exec.bind_eq_ok h
    cases hread
    dsimp only at h
    rw [hsame] at h
    unfold existing
    cases hentry : files p with
    | none =>
        rw [hentry] at h
        cases h
        exact Function.update_self _ _ _
    | some entry =>
        rw [hentry] at h
        cases entry with
        | dir => cases h
        | file bytes =>
            cases h
            exact Function.update_self _ _ _

/-- The disk gives back what was written over the beginning of a file just if the file was not
longer. -/
theorem read_write_iff (h : write p data 0 files = (.ok (), files')) :
    read files' p = .ok data ↔ (existing files p).length ≤ data.length := by
  have hread : read files' p = .ok (writeAllAt (existing files p) 0 data) := by
    rw [read, write_ok h]
  rw [hread]
  unfold writeAllAt
  by_cases hdata : data = []
  · simp [hdata]
  · simp [hdata, splice, List.drop_eq_nil_iff]

end LocalFileSystem

/-! ## Writing to Peergos -/

section Resolve

variable {fuel fuel' : ℕ} {net net' : Network} {a d : AbsoluteCapability} {q rest : SyncPath}
  {r : Option AbsoluteCapability}

theorem resolveFrom_mono (hle : fuel ≤ fuel') (h : resolveFrom fuel net a q = .ok r) :
    resolveFrom fuel' net a q = .ok r := by
  induction q generalizing a with
  | nil => exact h
  | cons name rest ih =>
      unfold resolveFrom at h ⊢
      obtain ⟨children, hchildren, h⟩ := bind_eq_ok.1 h
      rw [listDirectory_mono hle hchildren, ok_bind]
      split at h
      · exact ih h
      · exact h

theorem resolveFrom_append (h : resolveFrom fuel net a q = .ok (some d)) :
    resolveFrom fuel net a (q ++ rest) = resolveFrom fuel net d rest := by
  induction q generalizing a with
  | nil =>
      cases h
      rfl
  | cons name q ih =>
      rw [List.cons_append]
      unfold resolveFrom at h
      obtain ⟨children, hchildren, h⟩ := bind_eq_ok.1 h
      conv_lhs => unfold resolveFrom
      rw [hchildren, ok_bind]
      split at h
      · exact ih h
      · cases h

/-- A directory whose chunks nothing else leads to, and which does not have the first chunk of `d`
among them. -/
def ApartFrom (net : Network) (d a : AbsoluteCapability) : Prop :=
  a.writer = d.writer → ∃ t chunks tail, net a.writer = some t ∧ chunks ≠ [] ∧
    ListsFrom t a.rBaseKey a.mapKey chunks tail ∧
    Apart (· ∈ chunks.map Prod.fst ++ [tail]) t ∧ d.mapKey ∉ chunks.map Prod.fst ++ [tail]

/-- The directories that are gone through on the way from `a` along a path are apart from `d`. -/
def PathApart (fuel : ℕ) (net : Network) (d : AbsoluteCapability) :
    AbsoluteCapability → SyncPath → Prop
  | _, [] => True
  | a, name :: rest => ApartFrom net d a ∧ ∀ entries e, listDirectory fuel net a = .ok entries →
      entries.find? (·.name = name) = some e → PathApart fuel net d e.cap rest

/-- A change that leaves the directories on the way as they are leads to the same place. -/
theorem PathApart.resolveFrom_eq (h : PathApart fuel net d a q)
    (hlist : ∀ a, ApartFrom net d a → listDirectory fuel net' a = listDirectory fuel net a) :
    resolveFrom fuel net' a q = resolveFrom fuel net a q := by
  induction q generalizing a with
  | nil => rfl
  | cons name rest ih =>
      unfold resolveFrom
      rw [hlist a h.1]
      cases hentries : listDirectory fuel net a with
      | error e => rfl
      | ok entries =>
          rw [ok_bind, ok_bind]
          cases hfind : entries.find? (·.name = name) with
          | none => rfl
          | some e => exact ih (h.2 entries e hentries hfind)

/-- An upload into `d` leaves a directory that is apart from it. -/
theorem ApartFrom.listDirectory_eq {t t' : Tree} (h : ApartFrom net d a)
    (hnet : net d.writer = some t) (hnet' : net' = Function.update net d.writer (some t'))
    {new : Bytes → Prop} {fresh : List (Bytes × Bat)} (hfresh : DrawnFresh t (fresh.map Prod.fst))
    (habsent : ∀ k, new k → t k = none)
    (hunled : ∀ k, new k → ∀ k' b, t k' = some b → b.fromBaseKey.secret.nextChunk.mapKey ≠ k)
    (hframe : ∀ S : Bytes → Prop, Apart S t → ¬S d.mapKey → (∀ e ∈ fresh, ¬S e.1) →
      (∀ k, S k → ¬new k) → ∀ k, S k → t' k = t k) (fuel : ℕ) :
    listDirectory fuel net' a = listDirectory fuel net a := by
  by_cases hwriter : a.writer = d.writer
  · obtain ⟨t₁, chunks, tail, ht₁, hne, hlists, hapart, hd⟩ := h hwriter
    obtain rfl : t = t₁ := Option.some.inj (hnet.symm.trans (hwriter ▸ ht₁))
    obtain ⟨k₀, b₀, hb₀, hled⟩ := hlists.tail_led hne
    -- something is in its chunks, and leads to its end
    have hold : ∀ k ∈ chunks.map Prod.fst ++ [tail], t k ≠ none ∨ k = tail := by
      intro k hk
      rcases List.mem_append.1 hk with hk | hk
      · left
        have hdir := hlists.isDirAt_of_mem hk
        intro hnone
        rw [IsDirAt, fetchChunkNode, hnone] at hdir
        cases hdir
      · exact Or.inr (List.mem_singleton.1 hk)
    refine listDirectory_congr hlists ht₁ (by rw [hnet', hwriter, Function.update_self]) ?_ fuel
    refine hframe (· ∈ chunks.map Prod.fst ++ [tail]) hapart hd (fun e he hmem => ?_)
      fun k hk hnew => ?_
    · have he' : e.1 ∈ fresh.map Prod.fst := List.mem_map_of_mem he
      rcases hold _ hmem with hsome | heq
      · exact hsome (hfresh.absent _ he')
      · exact hfresh.unled _ he' k₀ b₀ hb₀ (hled.trans heq.symm)
    · rcases hold k hk with hsome | rfl
      · exact hsome (habsent k hnew)
      · exact hunled k hnew k₀ b₀ hb₀ hled
  · have hsame : net' a.writer = net a.writer := by rw [hnet', Function.update_of_ne hwriter]
    simp only [listDirectory, openWriterRoot, hsame]

end Resolve

section Write

variable {H : ContentHasher} {limit : ℕ} {media : Media} {dir : DirParams} {draw : UploadDraw}
  {fs : PeergosSyncFS} {net net' : Network} {p : SyncPath} {data : Bytes}
  {d cap : AbsoluteCapability} {name : String}

/-- A path of Peergos that can be written to: it can be looked up, the directory it is in holds
links of different names and is not met before on the way to it, and what the upload draws is new
there.  The parent of a path of one name is looked up by a dot, and must not be found by it. -/
structure WriteReady (H : ContentHasher) (limit : ℕ) (dir : DirParams) (draw : UploadDraw)
    (fs : PeergosSyncFS) (net : Network) (p : SyncPath) : Prop where
  maxLinks : 0 < dir.maxLinks
  noDot : p.dropLast = [] → ∀ c, fs.resolveCap dir.fuel net ["."] ≠ .ok (some c)
  resolves : ∃ existing, fs.resolveCap dir.fuel net p = .ok existing
  parent : ∀ d, fs.resolveCap dir.fuel net p.dropLast = .ok (some d) →
    PathApart dir.fuel net d fs.rootCap p.dropLast ∧ ∃ t m, net d.writer = some t ∧
      HoldsDirectory dir.maxLinks d m t ∧ NewKeys H limit draw.keys dir.fresh t ∧
      DrawnFresh t (dir.fresh.map Prod.fst)

theorem rollbackOnErr_eq_ok {σ α : Type} {x : Exec σ Fault α} {s s' : σ} {a : α}
    (h : rollbackOnErr x s = (.ok a, s')) : x s = (.ok a, s') := by
  unfold rollbackOnErr at h
  rcases hx : x s with ⟨_ | b, s₁⟩
  · rw [hx] at h
    cases h
  · rw [hx] at h
    exact h

theorem eq_dropLast_concat_of_fileName (h : fileName p = some name) : p = p.dropLast ++ [name] := by
  have hlast : p.getLast? = some name := by
    unfold fileName at h
    split at h
    · cases h
    · exact h
  obtain ⟨front, rfl⟩ := List.getLast?_eq_some_iff.1 hlast
  simp

/-- A write that succeeded uploaded the data into the directory the path is in. -/
theorem PeergosSyncFS.write_ok (hready : WriteReady H limit dir draw fs net p)
    (h : fs.write H media dir draw p data 0 net = (.ok (), net')) :
    ∃ d name signer cap, fs.resolveCap dir.fuel net p.dropLast = .ok (some d) ∧
      p = p.dropLast ++ [name] ∧ uploadFileStreamingInner H media dir
        (fs.request draw d name data signer) data net = (.ok cap, net') := by
  obtain ⟨found, hfound, h⟩ := Exec.query_bind_eq_ok (rollbackOnErr_eq_ok h)
  cases found with
  | none => cases h
  | some d =>
      have hpath : parentPath p = p.dropLast := by
        unfold parentPath at hfound ⊢
        split_ifs at hfound ⊢ with htop
        · exact absurd hfound (hready.noDot htop d)
        · rfl
      cases hname : fileName p with
      | none =>
          rw [hname] at h
          cases h
      | some name =>
          rw [hname] at h
          obtain ⟨signer, -, h⟩ := Exec.query_bind_eq_ok h
          obtain ⟨cap, net₁, hupload, h⟩ := Exec.bind_eq_ok h
          cases h
          exact ⟨d, name, signer, cap, hpath ▸ hfound, eq_dropLast_concat_of_fileName hname, hupload⟩

/-- Peergos gives back what was written, whatever was there before. -/
theorem PeergosSyncFS.read_write (hready : WriteReady H limit dir draw fs net p)
    (hlimit : chunkCount data.length chunkSizeForNewFiles ≤ limit)
    (h : fs.write H media dir draw p data 0 net = (.ok (), net')) :
    ∃ n, ∀ fuel, n ≤ fuel → fs.read H fuel net' p = .ok data := by
  obtain ⟨d, name, signer, cap, hd, hp, hupload⟩ := fs.write_ok hready h
  obtain ⟨hpath, t, m, hnet, hholds, hnew, hfresh⟩ := hready.parent d hd
  have hc : 0 < (fs.request draw d name data signer).chunkSize := (by decide : 0 < legacyChunkSize)
  obtain ⟨t', mime, hnet', hholds', hframe⟩ :=
    uploadFileStreamingInner_into hc hready.maxLinks hnet hholds hnew hfresh hlimit hupload
  obtain ⟨hkeys, hwriter, -, t₁, parts, hnet₁, hfile, -⟩ := uploadFileStreamingInner_ok hc
    (fun t₁ ht₁ => Option.some.inj (hnet.symm.trans ht₁) ▸ hnew)
    ((chunkCount_mono (List.length_take_le _ _)).trans hlimit) hupload
  have hnew' : NewKeys H limit (UploadRequest.handle _ cap hc).keys dir.fresh t := hkeys ▸ hnew
  -- the way to the directory is as it was
  have hway : fs.resolveCap dir.fuel net' p.dropLast = .ok (some d) := by
    refine (hpath.resolveFrom_eq fun a ha => ?_).trans hd
    exact ha.listDirectory_eq hnet hnet' hfresh (fun k ⟨i, hi, hk⟩ => hk ▸ hnew'.absent i hi)
      (fun k ⟨i, hi, hk⟩ k' b hb => hk ▸ hnew'.unlinked k' b hb i hi) hframe dir.fuel
  obtain ⟨entries, hentries⟩ : ∃ entries, listDirectory dir.fuel net d = .ok entries := by
    obtain ⟨existing, hexisting⟩ := hready.resolves
    rw [hp] at hexisting
    have hlast : resolveFrom dir.fuel net d [name] = .ok existing :=
      (resolveFrom_append hd).symm.trans hexisting
    unfold resolveFrom at hlast
    obtain ⟨entries, hentries, -⟩ := bind_eq_ok.1 hlast
    exact ⟨entries, hentries⟩
  have hmapKey : draw.keys.mapKey = cap.mapKey := congrArg FileKeys.mapKey hkeys
  have hnet₂ : net' d.writer = some t' := by
    rw [hnet']
    exact Function.update_self _ _ _
  have hholds₂ : HoldsDirectory dir.maxLinks d (insertAll (·.name) m
      [fileChildLink d name mime draw.epoch draw.keys draw.wBaseKey]) t' := hholds'
  obtain ⟨n, entries', hlisting, ⟨e, hfind, hew, hek, heb, her⟩, -⟩ :=
    hholds.exists_listing_insert hnet hentries (hmapKey ▸ cap.mapKey_length) hnet₂ hholds₂
  refine ⟨max (max dir.fuel n) (chunkCount data.length chunkSizeForNewFiles), fun fuel hfuel => ?_⟩
  have hresolve : fs.resolveCap fuel net' p = .ok (some e.cap) := by
    rw [hp]
    refine (resolveFrom_append (resolveFrom_mono (by omega) hway)).trans ?_
    unfold resolveFrom
    rw [hlisting fuel (by omega), ok_bind, hfind]
    rfl
  have hread : readFile H fuel net' e.cap = readFile H fuel net' cap :=
    readFile_congr H (hew.trans hwriter.symm) (hek.trans hmapKey)
      (heb.trans (congrArg FileKeys.bat hkeys)) (her.trans (congrArg FileKeys.rBaseKey hkeys)) fuel
      net'
  have hcontent : data.take data.length = data := List.take_length
  have hfile' : readFile H fuel net' cap = .ok ((parts 0).props, data.take data.length) := by
    refine hfile.readFile_eq (by rw [hnet₁]; exact Function.update_self _ _ _) ?_
    rw [show (fs.request draw d name data signer).size = data.length from rfl, hcontent]
    exact le_trans (le_max_right _ _) hfuel
  unfold PeergosSyncFS.read
  rw [hresolve, ok_bind]
  show (do let (_, data) ← readFile H fuel net' e.cap; pure data) = _
  rw [hread, hfile', ok_bind]
  exact congrArg Except.ok hcontent

end Write

/-! ## Both sides -/

section Both

variable {H : ContentHasher}

/-- **Writing back.**  A file that was written on the disk, at whatever path, reads as the data just
if the file that was there was not longer; one that was written in Peergos always does. -/
theorem read_after_write_iff (media : Media) (p : SyncPath) (data : Bytes) :
    (∀ files files' : LocalFiles, LocalFileSystem.write p data 0 files = (.ok (), files') →
      (LocalFileSystem.read files' p = .ok data ↔
        (LocalFileSystem.existing files p).length ≤ data.length)) ∧
    ∀ (limit : ℕ) (dir : DirParams) (draw : UploadDraw) (fs : PeergosSyncFS) (net net' : Network),
      WriteReady H limit dir draw fs net p →
      chunkCount data.length chunkSizeForNewFiles ≤ limit →
      fs.write H media dir draw p data 0 net = (.ok (), net') →
        ∃ n, ∀ fuel, n ≤ fuel → fs.read H fuel net' p = .ok data :=
  ⟨fun _ _ hlocal => LocalFileSystem.read_write_iff hlocal,
    fun _ _ _ _ _ _ hready hlimit hpeergos => PeergosSyncFS.read_write hready hlimit hpeergos⟩

theorem byteSyncKey_length : (List.replicate 32 (3 : UInt8)).length = 32 := rfl

theorem byteDirKey_length : (List.replicate 32 (13 : UInt8)).length = 32 := rfl

/-- A synced directory in Peergos. -/
def byteSyncFS : PeergosSyncFS :=
  ⟨⟨byteKey 1, byteKey 2, List.replicate 32 3, none, byteSymmetricKey 4, some (byteSymmetricKey 20),
    byteSyncKey_length⟩, none⟩

/-- The capability of the directory `d` in it. -/
def byteDirCap : AbsoluteCapability :=
  ⟨byteKey 1, byteKey 2, List.replicate 32 13, none, byteSymmetricKey 14,
    some (byteSymmetricKey 21), byteDirKey_length⟩

/-- A directory with these links. -/
def byteDirBlock (rBaseKey parentKey : SymmetricKey)
    (signer : Option (CipherText SigningPrivateKeyAndPublicHash)) (next : Bytes)
    (links : List NamedRelativeCapability) : CryptreeBlock :=
  ⟨[], .build rBaseKey ⟨parentKey, signer, .subsequentChunk next none rBaseKey⟩,
    .build parentKey
      ⟨none, ⟨"", true, false, "", 0, false, 0, 0, none, none, none, legacyChunkSize⟩⟩,
    .build rBaseKey (.named links)⟩

/-- The champ of the synced directory: its root and the empty directory `d`. -/
def byteSyncTree : Tree := fun k =>
  if k = List.replicate 32 3 then
    some (byteDirBlock (byteSymmetricKey 4) (byteSymmetricKey 5) none (List.replicate 32 6)
      [⟨"d", ⟨none, List.replicate 32 13, none, byteSymmetricKey 14,
        some (.build (byteSymmetricKey 20) (byteSymmetricKey 21))⟩, some true, none, none⟩])
  else if k = List.replicate 32 13 then
    some (byteDirBlock (byteSymmetricKey 14) (byteSymmetricKey 15)
      (some (.build (byteSymmetricKey 21) (byteSigner 2))) (List.replicate 32 16) [])
  else none

def byteSyncNetwork : Network := fun w => if w = byteKey 2 then some byteSyncTree else none

/-- The file `d/f` on the disk. -/
def byteFiles (bytes : Bytes) : LocalFiles := fun p =>
  if p = ["d"] then some .dir else if p = ["d", "f"] then some (.file bytes) else none

/-- What the upload of `d/f` draws. -/
def byteDraw : UploadDraw := ⟨0, (rootUpload "f" 2).keys, byteSymmetricKey 11⟩

theorem byteSyncTree_eq_some {k : Bytes} {b : CryptreeBlock} (h : byteSyncTree k = some b) :
    (k = List.replicate 32 3 ∧ b.fromBaseKey.secret.nextChunk.mapKey = List.replicate 32 6) ∨
      (k = List.replicate 32 13 ∧ b.fromBaseKey.secret.nextChunk.mapKey = List.replicate 32 16) := by
  unfold byteSyncTree at h
  split_ifs at h with h3 h13
  · cases h
    exact Or.inl ⟨h3, rfl⟩
  · cases h
    exact Or.inr ⟨h13, rfl⟩

theorem newKeys_byteDraw : NewKeys legacyHasher 2 byteDraw.keys rootParams.fresh byteSyncTree := by
  have hother : ∀ i < 2, ∀ n ∈ [3, 6, 13, 16], List.replicate 32 n ≠
      chunkKey legacyHasher byteDraw.keys.streamSecret byteDraw.keys.mapKey i := by decide +kernel
  refine ⟨by decide +kernel, fun i hi => ?_, fun k b hb i hi heq => ?_,
    fun e he => absurd he List.not_mem_nil⟩
  · cases hsome : byteSyncTree (chunkKey legacyHasher byteDraw.keys.streamSecret
        byteDraw.keys.mapKey i) with
    | none => rfl
    | some b =>
        rcases byteSyncTree_eq_some hsome with ⟨hk, -⟩ | ⟨hk, -⟩
        · exact absurd hk.symm (hother i hi 3 (by simp))
        · exact absurd hk.symm (hother i hi 13 (by simp))
  · rcases byteSyncTree_eq_some hb with ⟨-, hnext⟩ | ⟨-, hnext⟩
    · exact hother i hi 6 (by simp) (hnext.symm.trans heq)
    · exact hother i hi 16 (by simp) (hnext.symm.trans heq)

theorem listsFrom_byteSyncRoot : ∃ links, ListsFrom byteSyncTree (byteSymmetricKey 4)
    (List.replicate 32 3) [(List.replicate 32 3, links)] (List.replicate 32 6) :=
  ⟨_, rfl, List.replicate 32 6, ⟨_, _, rfl, rfl, rfl, rfl⟩, rfl, Bool.false_ne_true⟩

theorem holdsDirectory_byteDir :
    HoldsDirectory rootParams.maxLinks byteDirCap (fun _ => none) byteSyncTree := by
  refine ⟨[(List.replicate 32 13, [])], List.replicate 32 16, ?_, List.cons_ne_nil _ _, ?_, ?_⟩
  · exact ⟨rfl, List.replicate 32 16, ⟨_, _, rfl, rfl, rfl, rfl⟩, rfl, Bool.false_ne_true⟩
  · intro c hc
    rw [List.mem_singleton.1 hc]
    exact Nat.zero_le _
  · exact ⟨List.nodup_nil, fun k a => iff_of_false (by simp) fun h => (nomatch h.1)⟩

theorem writeReady_byteSync :
    WriteReady legacyHasher 2 rootParams byteDraw byteSyncFS byteSyncNetwork ["d", "f"] := by
  have hroot : byteSyncFS.resolveCap 2 byteSyncNetwork ["d"] = .ok (some byteDirCap) := by
    exact eq_ok_of_toOption (by decide +kernel)
  refine ⟨by decide, fun _ c hc => ?_, ⟨none, eq_ok_of_toOption (by decide +kernel)⟩, fun d hd => ?_⟩
  · have hnone : byteSyncFS.resolveCap 2 byteSyncNetwork ["."] = .ok none :=
      eq_ok_of_toOption (by decide +kernel)
    cases hnone.symm.trans hc
  · obtain rfl : byteDirCap = d := by
      cases hroot.symm.trans hd
      rfl
    obtain ⟨links, hlists⟩ := listsFrom_byteSyncRoot
    have hdir : byteDirCap.mapKey ∉ [List.replicate 32 3, List.replicate 32 6] := by decide
    refine ⟨⟨fun _ => ⟨byteSyncTree, _, _, rfl, List.cons_ne_nil _ _, hlists, ?_, hdir⟩,
      fun _ _ _ _ => trivial⟩, byteSyncTree, fun _ => none, rfl, holdsDirectory_byteDir,
      newKeys_byteDraw, List.nodup_nil, fun k hk => absurd hk List.not_mem_nil,
      fun k hk => absurd hk List.not_mem_nil⟩
    -- nothing but the root leads to its end
    intro k b hk hb
    rcases byteSyncTree_eq_some hb with ⟨rfl, -⟩ | ⟨-, hnext⟩
    · exact absurd (by simp) hk
    · rw [hnext]
      show List.replicate 32 16 ∉ [List.replicate 32 3, List.replicate 32 6]
      decide

/-- A longer file takes the place of a shorter one on both sides, and at the top of the disk. -/
theorem read_after_write_iff_longer :
    LocalFileSystem.read (LocalFileSystem.write ["f"] [9, 9] 0 (byteFiles [1])).2 ["f"] =
        .ok [9, 9] ∧
      LocalFileSystem.read (LocalFileSystem.write ["d", "f"] [9, 9] 0 (byteFiles [1])).2 ["d", "f"] =
        .ok [9, 9] ∧
      ∃ n, ∀ fuel, n ≤ fuel → byteSyncFS.read legacyHasher fuel
        (byteSyncFS.write legacyHasher plainMedia rootParams byteDraw ["d", "f"] [9, 9] 0
          byteSyncNetwork).2 ["d", "f"] = .ok [9, 9] := by
  have hbelow := read_after_write_iff (H := legacyHasher) plainMedia ["d", "f"] [9, 9]
  refine ⟨?_, ?_, ?_⟩
  · exact ((read_after_write_iff (H := legacyHasher) plainMedia ["f"] [9, 9]).1 (byteFiles [1]) _
      (Prod.ext (eq_ok_of_toOption (by decide +kernel)) rfl)).2 (by decide)
  · exact (hbelow.1 (byteFiles [1]) _ (Prod.ext (eq_ok_of_toOption (by decide +kernel)) rfl)).2
      (by decide)
  · exact hbelow.2 2 rootParams byteDraw byteSyncFS byteSyncNetwork _ writeReady_byteSync
      (by decide) (Prod.ext (eq_ok_of_toOption (by decide +kernel)) rfl)

/-- A shorter file leaves the end of a longer one on the disk. -/
theorem shorter_write_keeps_end :
    ∃ files', LocalFileSystem.write ["d", "f"] [9] 0 (byteFiles [1, 2, 3]) = (.ok (), files') ∧
      LocalFileSystem.read files' ["d", "f"] = .ok [9, 2, 3] ∧
      LocalFileSystem.read files' ["d", "f"] ≠ .ok [9] := by
  refine ⟨_, Prod.ext (eq_ok_of_toOption (by decide +kernel)) rfl, ?_⟩
  have hread : LocalFileSystem.read (LocalFileSystem.write ["d", "f"] [9] 0
      (byteFiles [1, 2, 3])).2 ["d", "f"] = .ok [9, 2, 3] :=
    eq_ok_of_toOption (by decide +kernel)
  exact ⟨hread, fun h => by cases hread.symm.trans h⟩

end Both

end Peergos
