import PeergosClient.Email.Bridge

/-!
# The mail box

The bridge and the client meet in the folders below `pending`.  A `MailBox` knows each file of these
folders by its folder and its name, and `Call.step` says what a call does to it.  `stores_run`: the
calls of either side, in any order, succeed and do to the folders what the steps do to the mail box.

The client looks for a mail it has filed, in order to remove it from `pending`, and for an
attachment it forwards, below a second `default`, where nothing is.
-/

namespace Peergos

open FileWrapper

namespace Mail

/-! ## The folders -/

/-- The folder of the email app. -/
def root : FolderPath := [".apps", "email", "data"]

/-- A folder of the account. -/
def folder (path : List String) : FolderPath := root ++ "default" :: path

theorem folder_nil : folder [] = root ++ ["default"] := rfl

/-- `pending/inbox`. -/
def pendingInbox : FolderPath := folder ["pending", "inbox"]

/-- `pending/inbox/attachments`. -/
def pendingAttachments : FolderPath := folder ["pending", "inbox", "attachments"]

/-- `pending/outbox`. -/
def outbox : FolderPath := folder ["pending", "outbox"]

/-- `pending/outbox/attachments`. -/
def outgoingAttachments : FolderPath := folder ["pending", "outbox", "attachments"]

/-- `inbox`. -/
def inbox : FolderPath := folder ["inbox"]

/-- `attachments`. -/
def attachments : FolderPath := folder ["attachments"]

/-- The folders that are made, and those on the way to them. -/
def folders : List FolderPath :=
  [[".apps"], [".apps", "email"], root, folder [], inbox, folder ["sent"], folder ["pending"],
    attachments, pendingInbox, outbox, folder ["pending", "sent"], pendingAttachments,
    outgoingAttachments, folder ["pending", "sent", "attachments"]]

/-- The folders that mail goes through. -/
def mailFolders : List FolderPath :=
  [pendingInbox, pendingAttachments, outbox, outgoingAttachments, inbox, attachments]

/-- The folders are there, and no second `default` is. -/
structure Layout (fs : Files) : Prop where
  directory : ∀ d ∈ folders, fs.get d = some .directory
  noSecond : fs.get (folder ["default"]) = none

variable {fs : Files} {p : FolderPath}

/-- The way to a folder is made of folders. -/
theorem mem_folders_above {d : FolderPath} (hd : d ∈ folders) (hp : p <+: d) (hne : p ≠ []) :
    p ∈ folders := by
  have hall : ∀ d ∈ folders, ∀ p ∈ d.inits, p ≠ [] → p ∈ folders := by decide
  exact hall d hd p ((List.mem_inits ..).2 hp) hne

theorem Layout.put (h : Layout fs) {node : FileNode} (hp : p ∉ folders) (hne : p ≠ [])
    (hsecond : p ≠ folder ["default"]) : Layout (fs.put p node) where
  directory d hd := by
    rw [PathMap.get_put_of_not_prefix _ _ fun hpre => hp (mem_folders_above hd hpre hne)]
    exact h.directory d hd
  noSecond := by
    rw [PathMap.get_put, if_neg hsecond.symm, h.noSecond, ite_self]

theorem Layout.remove (h : Layout fs) (hp : p ∉ folders) (hne : p ≠ []) :
    Layout (fs.remove p) where
  directory d hd := by
    rw [PathMap.get_remove, if_neg fun hpre => hp (mem_folders_above hd hpre hne)]
    exact h.directory d hd
  noSecond := by rw [PathMap.get_remove, h.noSecond, ite_self]

/-- A folder can be walked to, from any folder above it. -/
theorem Layout.reaches (h : Layout fs) {dir path : FolderPath} (hdir : dir = [] ∨ dir ∈ folders)
    (hpath : dir ++ path ∈ folders) : fs.Reaches dir path := by
  induction path generalizing dir with
  | nil => trivial
  | cons name rest ih =>
      have hstep : dir ++ [name] ∈ folders := by
        refine mem_folders_above hpath ?_ (by simp)
        exact ⟨rest, by simp⟩
      refine ⟨hdir.imp id fun hmem => h.directory _ hmem, by simp [h.directory _ hstep], ?_⟩
      exact ih (.inr hstep) (by rwa [← List.append_cons])

theorem Layout.isDirectory (h : Layout fs) {d : FolderPath} (hd : d ∈ folders) :
    fs.isDirectory d := .inr (h.directory d hd)

theorem Layout.childOr (h : Layout fs) {dir : FolderPath} {name missing : String}
    (hdir : dir ∈ folders) (hname : dir ++ [name] ∈ folders) :
    childOr dir name missing fs = (.ok (dir ++ [name]), fs) :=
  childOr_of_isSome (h.isDirectory hdir) (by simp [h.directory _ hname])

/-! ## What is in them -/

/-- What a file holds. -/
inductive Item where
  /-- The bytes as they are. -/
  | plain (bytes : Bytes)
  /-- An envelope for the client. -/
  | sealed (bytes : Bytes)

/-- The files of each folder. -/
abbrev MailBox := FolderPath → String → Option Item

/-- Put a file into a folder, or take it out. -/
def MailBox.set (box : MailBox) (dir : FolderPath) (name : String) (item : Option Item) : MailBox :=
  Function.update box dir (Function.update (box dir) name item)

variable (P : BoxPrimitives) (c : EmailClient)

/-- A file holds an item. -/
def Holds : Item → FileNode → Prop
  | .plain bytes, node => node = .file bytes
  | .sealed bytes, node => ∃ ct, node = .file ct.toCbor.toBytes ∧
      SourcedAsymmetricCipherText.parse ct.toCbor.toBytes = .ok ct ∧
      ct.decrypt P c.encryptionKeys.secret = .ok bytes

/-- The files of a mail box are those of its folders. -/
structure Stores (box : MailBox) (fs : Files) : Prop where
  layout : Layout fs
  files : ∀ dir ∈ mailFolders, ∀ name, dir ++ [name] ∉ folders →
    Option.Rel (Holds P c) (box dir name) (fs.get (dir ++ [name]))
  absent : ∀ dir ∈ mailFolders, ∀ name, dir ++ [name] ∈ folders → box dir name = none

variable {P c} {box : MailBox} {dir : FolderPath} {name : String}

theorem pendingInbox_mem : pendingInbox ∈ mailFolders := by decide

theorem pendingAttachments_mem : pendingAttachments ∈ mailFolders := by decide

theorem outgoingAttachments_mem : outgoingAttachments ∈ mailFolders := by decide

theorem outbox_mem : outbox ∈ mailFolders := by decide

theorem attachments_mem : attachments ∈ mailFolders := by decide

theorem mem_folders_of_mem_mailFolders (h : dir ∈ mailFolders) : dir ∈ folders := by
  revert dir
  decide

/-- The files of a folder after one of them, and nothing else, has changed. -/
theorem Stores.set (h : Stores P c box fs) (hdir : dir ∈ mailFolders)
    (hname : dir ++ [name] ∉ folders) {fs' : Files} {item : Option Item} (hlayout : Layout fs')
    (hitem : Option.Rel (Holds P c) item (fs'.get (dir ++ [name])))
    (hsame : ∀ q, ¬ dir ++ [name] <+: q → fs'.get q = fs.get q) :
    Stores P c (box.set dir name item) fs' := by
  have hself : ∀ {dir' name'}, dir' ∈ mailFolders → dir ++ [name] <+: dir' ++ [name'] →
      dir' = dir ∧ name' = name := by
    intro dir' name' hdir' hpre
    rcases List.prefix_concat_iff.1 hpre with heq | hpre
    · simpa [eq_comm] using heq
    · exact absurd (mem_folders_above (mem_folders_of_mem_mailFolders hdir') hpre (by simp))
        hname
  have hset : ∀ dir' name', ¬ (dir' = dir ∧ name' = name) →
      box.set dir name item dir' name' = box dir' name' := by
    intro dir' name' hne
    by_cases heq : dir' = dir
    · subst heq
      simp [MailBox.set, Function.update_of_ne fun h => hne ⟨rfl, h⟩]
    · simp [MailBox.set, Function.update_of_ne heq]
  refine ⟨hlayout, fun dir' hdir' name' hname' => ?_, fun dir' hdir' name' hname' => ?_⟩
  · by_cases heq : dir' = dir ∧ name' = name
    · obtain ⟨rfl, rfl⟩ := heq
      simpa [MailBox.set] using hitem
    · rw [hset dir' name' heq, hsame _ fun hpre => heq (hself hdir' hpre)]
      exact h.files dir' hdir' name' hname'
  · rw [hset dir' name' ?_]
    · exact h.absent dir' hdir' name' hname'
    · rintro ⟨rfl, rfl⟩
      exact hname hname'

theorem Stores.upload (h : Stores P c box fs) (item : Item) (hdir : dir ∈ mailFolders)
    (hname : dir ++ [name] ∉ folders) {bytes : Bytes}
    (hitem : Holds P c item (.file bytes)) :
    ∃ fs', upload dir name bytes fs = (.ok (dir ++ [name]), fs') ∧
      Stores P c (box.set dir name (some item)) fs' := by
  have hsecond : dir ++ [name] ≠ folder ["default"] := by
    intro heq
    obtain ⟨rfl, -⟩ := List.append_inj' (heq.trans (by rfl : _ = folder [] ++ ["default"])) rfl
    exact absurd hdir (by decide)
  refine ⟨_, upload_of_isDirectory (h.layout.isDirectory (mem_folders_of_mem_mailFolders hdir)),
    h.set hdir hname (h.layout.put hname (by simp) hsecond) ?_
      fun q hq => PathMap.get_put_of_not_prefix _ _ hq⟩
  rw [PathMap.get_put_self]
  exact .some hitem

theorem Stores.removeChild (h : Stores P c box fs) (hdir : dir ∈ mailFolders)
    (hname : dir ++ [name] ∉ folders) (hsome : (fs.get (dir ++ [name])).isSome) :
    ∃ fs', removeChild dir name fs = (.ok (), fs') ∧ Stores P c (box.set dir name none) fs' := by
  refine ⟨fs.remove (dir ++ [name]), ?_, h.set hdir hname (h.layout.remove hname (by simp)) ?_
    fun q hq => by rw [PathMap.get_remove, if_neg hq]⟩
  · simp [FileWrapper.removeChild, Exec.ofExcept,
      h.layout.isDirectory (mem_folders_of_mem_mailFolders hdir), hsome]
  · rw [PathMap.get_remove, if_pos List.prefix_rfl]
    exact .none

/-- A file that is looked up. -/
theorem Stores.child (h : Stores P c box fs) (hdir : dir ∈ mailFolders)
    (hname : dir ++ [name] ∉ folders) :
    child dir name fs = (.ok ((box dir name).map fun _ => dir ++ [name]), fs) := by
  have hd := h.layout.isDirectory (mem_folders_of_mem_mailFolders hdir)
  have hrel := h.files dir hdir name hname
  generalize box dir name = item at hrel ⊢
  generalize hnode : fs.get (dir ++ [name]) = node at hrel
  cases hrel with
  | none => exact child_of_none hd hnode
  | some _ => exact child_of_isSome hd (by simp [hnode])

/-! ## Names with slashes -/

/-- The part before the last separator. -/
theorem rsplitOnce_append (a : String) {b : String} (hb : '/' ∉ b.toList) :
    rsplitOnce (a ++ "/" ++ b) '/' = some (a, b) := by
  have hrev : (a ++ "/" ++ b).toList.reverse = b.toList.reverse ++ '/' :: a.toList.reverse := by
    simp
  have hmem : '/' ∈ (a ++ "/" ++ b).toList := by simp
  have hpart : ∀ ch ∈ b.toList.reverse, (decide (ch ≠ '/')) = true := by
    intro ch hch
    simp only [ne_eq, decide_eq_true_eq]
    rintro rfl
    exact hb (List.mem_reverse.1 hch)
  rw [rsplitOnce, if_pos hmem, hrev, List.dropWhile_append_of_pos hpart,
    List.takeWhile_append_of_pos hpart]
  simp

/-- Whatever follows a folder's name, the part before the last separator is in that folder. -/
theorem rsplitOnce_below (a rest : String) :
    ∃ tail, components ((rsplitOnce (a ++ "/" ++ rest) '/').map Prod.fst |>.getD "") =
      components a ++ tail := by
  by_cases hrest : '/' ∈ rest.toList
  · obtain ⟨t, u, ht, hu⟩ : ∃ t u : String, rest = t ++ "/" ++ u ∧ '/' ∉ u.toList := by
      obtain ⟨l, r, hsplit, hl⟩ := List.eq_append_cons_of_mem (List.mem_reverse.2 hrest)
      refine ⟨String.ofList r.reverse, String.ofList l.reverse, ?_, by simpa using hl⟩
      rw [← String.toList_inj, ← List.reverse_inj, hsplit]
      simp
    subst ht
    refine ⟨components t, ?_⟩
    have hassoc : a ++ "/" ++ (t ++ "/" ++ u) = (a ++ "/" ++ t) ++ "/" ++ u := by
      simp only [String.append_assoc]
    rw [hassoc, rsplitOnce_append _ hu]
    exact components_append_slash a t
  · exact ⟨[], by rw [rsplitOnce_append a hrest]; simp⟩

/-! ## Calls -/

/-- The file of a mail. -/
def fileName (id : String) : String := id ++ ".cbor"

/-- The name the bridge draws for an attachment. -/
def attachmentUuid (uuidBytes : Fin 16 → UInt8) (filename : String) : String :=
  uuidV4 uuidBytes ++ "." ++ ((rsplitOnce filename '.').map Prod.snd).getD ""

/-- What the bridge and the client do. -/
inductive Call where
  /-- The bridge uploads an attachment. -/
  | attach (draws : EmailBridgeClient.Draws) (uuidBytes : Fin 16 → UInt8) (filename : String)
      (size : Int64) (mimeType : String) (data : Bytes)
  /-- The bridge adds a mail to the inbox. -/
  | deliver (draws : EmailBridgeClient.Draws) (msg : EmailMessage)
  /-- The client moves a mail to its private inbox. -/
  | file (msg : EmailMessage)
  /-- The client uploads an attachment. -/
  | attachOutgoing (uuidBytes : Fin 16 → UInt8) (data : Bytes)
  /-- The client sends a mail. -/
  | send (msg : EmailMessage)

/-- The call as it is made. -/
def Call.run (P : BoxPrimitives) (b : EmailBridgeClient) (c : EmailClient) : Call → FileCall Unit
  | .attach draws uuidBytes filename size mimeType data => do
      let _ ← b.uploadAttachment P draws uuidBytes filename size mimeType data
  | .deliver draws msg => do
      let _ ← b.addToInbox P draws msg
  | .file msg => c.moveToPrivateInbox P msg
  | .attachOutgoing uuidBytes data => do
      let _ ← c.uploadAttachment uuidBytes data
  | .send msg => c.send msg

/-- An attachment is moved to the private ones, unless there is one of its name. -/
def takeAttachment (box : MailBox) (att : Attachment) : MailBox :=
  match box attachments att.uuid, box pendingAttachments att.uuid with
  | none, some (.sealed bytes) =>
      (box.set attachments att.uuid (some (.plain bytes))).set pendingAttachments att.uuid none
  | _, _ => box

/-- What a call does to the mail box. -/
def Call.step (box : MailBox) : Call → MailBox
  | .attach _ uuidBytes filename _ _ data =>
      box.set pendingAttachments (attachmentUuid uuidBytes filename) (some (.sealed data))
  | .deliver _ msg => box.set pendingInbox (fileName msg.id) (some (.sealed msg.serialize))
  | .file msg =>
      (msg.attachments.foldl takeAttachment box).set inbox (fileName msg.id)
        (some (.plain msg.serialize))
  | .attachOutgoing uuidBytes data =>
      box.set outgoingAttachments (uuidV4 uuidBytes) (some (.plain data))
  | .send msg => box.set outbox (fileName msg.id) (some (.plain msg.serialize))

/-- Memory holds what is written, and an attachment that is to be filed has the name of a file. -/
def Call.Fits (P : BoxPrimitives) (b : EmailBridgeClient) : Call → Prop
  | .attach draws _ _ _ _ data =>
      ∀ ct, b.encryptAttachment P draws data = .ok ct → ct.toCbor.toBytes.length < 2 ^ 63
  | .deliver draws msg => msg.serialize.length < 2 ^ 63 ∧
      ∀ ct, b.encryptEmail P draws msg = .ok ct → ct.toCbor.toBytes.length < 2 ^ 63
  | .file msg => ∀ att ∈ msg.attachments, att.uuid ≠ "" ∧ '/' ∉ att.uuid.toList
  | .attachOutgoing _ _ => True
  | .send msg => msg.serialize.length < 2 ^ 63

/-! ### One after another -/

section Steps

variable (hP : P.Correct) {drawn : Key32} {username : String}

/-- The client of a key pair. -/
def client (P : BoxPrimitives) (drawn : Key32) : EmailClient :=
  ⟨.randomCurve25519 P drawn, root⟩

/-- The bridge that has read its public key. -/
def bridge (P : BoxPrimitives) (drawn : Key32) (username : String) : EmailBridgeClient :=
  ⟨username, folder ["pending"], (BoxingKeyPair.randomCurve25519 P drawn).publicKey⟩

theorem fileName_not_folder (id : String) {dir : FolderPath}
    (hdir : dir ∈ [pendingInbox, outbox, inbox]) : dir ++ [fileName id] ∉ folders := by
  have hne : fileName id ≠ "attachments" := by
    intro heq
    have hlast := congrArg (fun s : String => s.toList.getLast?) heq
    simp [fileName] at hlast
  fin_cases hdir <;>
    simp [folders, folder, root, pendingInbox, outbox, inbox, attachments, pendingAttachments,
      outgoingAttachments, hne]

theorem attachment_not_folder (name : String) {dir : FolderPath}
    (hdir : dir ∈ [pendingAttachments, outgoingAttachments, attachments]) :
    dir ++ [name] ∉ folders := by
  fin_cases hdir <;>
    simp [folders, folder, root, pendingInbox, outbox, inbox, attachments, pendingAttachments,
      outgoingAttachments]

include hP in
/-- An envelope that fits into memory holds what was put into it. -/
theorem exists_sealed (draws : EmailBridgeClient.Draws) (data : Bytes)
    (hfits : ∀ ct, (bridge P drawn username).encryptAttachment P draws data = .ok ct →
      ct.toCbor.toBytes.length < 2 ^ 63) :
    ∃ ct, (bridge P drawn username).encryptAttachment P draws data = .ok ct ∧
      Holds P (client P drawn) (.sealed data) (.file ct.toCbor.toBytes) := by
  obtain ⟨ct, hct, hdec, hparse⟩ :=
    SourcedAsymmetricCipherText.decrypt_encrypt hP draws.box data draws.secret drawn
  exact ⟨ct, hct, ct, rfl, hparse (hfits ct hct), hdec⟩

/-- A way from one folder to another is there. -/
theorem Layout.getOrMkdirs (h : Layout fs) {dir : FolderPath} {path : String} (comps : List String)
    (hcomps : components path = comps) (hdir : dir ∈ folders) (hpath : dir ++ comps ∈ folders) :
    FileWrapper.getOrMkdirs dir path fs = (.ok (dir ++ comps), fs) := by
  rw [FileWrapper.getOrMkdirs, hcomps]
  exact ensure_of_reaches (h.reaches (.inr hdir) hpath)

theorem Layout.getByPath (h : Layout fs) {dir : FolderPath} {path : String} (comps : List String)
    (hcomps : components path = comps) (hdir : dir ∈ folders) (hpath : dir ++ comps ∈ folders) :
    FileWrapper.getByPath dir path fs = (.ok (some (dir ++ comps)), fs) := by
  rw [FileWrapper.getByPath, hcomps]
  exact walk_of_reaches (h.reaches (.inr hdir) hpath)

theorem root_mem : root ∈ folders := by decide

theorem default_mem : folder [] ∈ folders := by decide

theorem pending_mem : folder ["pending"] ∈ folders := by decide

theorem Layout.defaultDir (h : Layout fs) :
    (client P drawn).defaultDir fs = (.ok (folder []), fs) := h.childOr root_mem default_mem

theorem Layout.bridgeFolder (h : Layout fs) {name missing : String}
    (hname : folder ["pending"] ++ [name] ∈ folders) :
    FileWrapper.childOr (bridge P drawn username).pending name missing fs =
      (.ok (folder ["pending"] ++ [name]), fs) := h.childOr pending_mem hname

theorem Layout.pendingDir (h : Layout fs) :
    (client P drawn).pendingDir fs = (.ok (folder ["pending"]), fs) := by
  rw [EmailClient.pendingDir, Exec.bind_of_ok h.defaultDir]
  exact h.childOr default_mem pending_mem

/-- There is nothing below a second `default`. -/
theorem Layout.lost (h : Layout fs) {path : String} {rest : List String}
    (hcomps : components path = "default" :: "default" :: rest) :
    FileWrapper.getByPath root path fs = (.ok none, fs) := by
  have hfirst : child root "default" fs = (.ok (some (folder [])), fs) :=
    child_of_isSome (h.isDirectory root_mem) (by rw [← folder_nil, h.directory _ default_mem]; rfl)
  have hsecond : child (folder []) "default" fs = (.ok none, fs) :=
    child_of_none (h.isDirectory default_mem) h.noSecond
  rw [FileWrapper.getByPath, hcomps, walk, Exec.bind_of_ok hfirst]
  show walk (folder []) _ fs = _
  rw [walk, Exec.bind_of_ok hsecond]
  rfl

include hP in
theorem stores_attach (h : Stores P (client P drawn) box fs) {draws : EmailBridgeClient.Draws}
    {uuidBytes : Fin 16 → UInt8} {filename mimeType : String} {size : Int64} {data : Bytes}
    (hfits : (Call.attach draws uuidBytes filename size mimeType data).Fits P
      (bridge P drawn username)) :
    ∃ fs', (Call.attach draws uuidBytes filename size mimeType data).run P
        (bridge P drawn username) (client P drawn) fs = (.ok (), fs') ∧
      Stores P (client P drawn)
        ((Call.attach draws uuidBytes filename size mimeType data).step box) fs' := by
  obtain ⟨ct, hct, hholds⟩ := exists_sealed hP draws data hfits
  obtain ⟨fs', hupload, hstores⟩ := h.upload (.sealed data) pendingAttachments_mem
    (attachment_not_folder (attachmentUuid uuidBytes filename) (by simp)) hholds
  have hrun : (bridge P drawn username).uploadAttachment P draws uuidBytes filename size mimeType
      data fs = (.ok (⟨filename, size, mimeType, attachmentUuid uuidBytes filename⟩, ct), fs') := by
    rw [EmailBridgeClient.uploadAttachment, hct, Exec.lift_ok_bind,
      Exec.bind_of_ok (h.layout.bridgeFolder (by decide)),
      Exec.bind_of_ok (h.layout.getOrMkdirs ["attachments"] (by decide)
        (by decide) (by decide))]
    exact Exec.bind_of_ok hupload
  exact ⟨fs', Exec.bind_of_ok hrun, hstores⟩

include hP in
theorem stores_deliver (h : Stores P (client P drawn) box fs) {draws : EmailBridgeClient.Draws}
    {msg : EmailMessage} (hfits : (Call.deliver draws msg).Fits P (bridge P drawn username)) :
    ∃ fs', (Call.deliver draws msg).run P (bridge P drawn username) (client P drawn) fs =
        (.ok (), fs') ∧
      Stores P (client P drawn) ((Call.deliver draws msg).step box) fs' := by
  obtain ⟨ct, hct, hholds⟩ := exists_sealed hP draws msg.serialize hfits.2
  obtain ⟨fs', hupload, hstores⟩ := h.upload (.sealed msg.serialize) pendingInbox_mem
    (fileName_not_folder msg.id (by simp)) hholds
  have hrun : (bridge P drawn username).addToInbox P draws msg fs = (.ok ct, fs') := by
    rw [EmailBridgeClient.addToInbox, EmailBridgeClient.encryptEmail, hct,
      Exec.bind_of_ok (h.layout.bridgeFolder (by decide)), Exec.lift_ok_bind]
    exact Exec.bind_of_ok hupload
  exact ⟨fs', Exec.bind_of_ok hrun, hstores⟩

theorem stores_attachOutgoing (h : Stores P (client P drawn) box fs) (uuidBytes : Fin 16 → UInt8)
    (data : Bytes) :
    ∃ fs', (Call.attachOutgoing uuidBytes data).run P (bridge P drawn username) (client P drawn)
        fs = (.ok (), fs') ∧
      Stores P (client P drawn) ((Call.attachOutgoing uuidBytes data).step box) fs' := by
  obtain ⟨fs', hupload, hstores⟩ := h.upload (.plain data) outgoingAttachments_mem
    (attachment_not_folder (uuidV4 uuidBytes) (by simp)) rfl
  have hrun : (client P drawn).uploadAttachment uuidBytes data fs =
      (.ok (uuidV4 uuidBytes), fs') := by
    rw [EmailClient.uploadAttachment, Exec.bind_of_ok h.layout.pendingDir,
      Exec.bind_of_ok (h.layout.getOrMkdirs ["outbox", "attachments"] (by decide)
        pending_mem (by decide))]
    exact Exec.bind_of_ok hupload
  exact ⟨fs', Exec.bind_of_ok hrun, hstores⟩

/-- What is saved to a folder. -/
theorem stores_saveEmail (h : Stores P (client P drawn) box fs) (msg : EmailMessage)
    {path : String} {comps : List String} (hcomps : components path = comps)
    (hdir : folder comps ∈ [pendingInbox, outbox, inbox]) :
    ∃ fs', (client P drawn).saveEmail path msg fs = (.ok (), fs') ∧
      Stores P (client P drawn) (box.set (folder comps) (fileName msg.id)
        (some (.plain msg.serialize))) fs' := by
  have hmail : folder comps ∈ mailFolders := by
    have hsubset : [pendingInbox, outbox, inbox] ⊆ mailFolders := by decide
    exact hsubset hdir
  obtain ⟨fs', hupload, hstores⟩ := h.upload (.plain msg.serialize) hmail
    (fileName_not_folder msg.id hdir) rfl
  refine ⟨fs', ?_, hstores⟩
  rw [EmailClient.saveEmail, Exec.bind_of_ok h.layout.defaultDir,
    Exec.bind_of_ok (h.layout.getOrMkdirs comps hcomps default_mem
      (mem_folders_of_mem_mailFolders hmail))]
  exact Exec.bind_of_ok hupload

/-- Forwarded attachments are looked for where nothing is. -/
theorem Layout.forwardAttachment (h : Layout fs) (att : Attachment) :
    (client P drawn).forwardAttachment att fs = (.ok (), fs) := by
  have hpath : EmailClient.account ++ "/default/attachments/" ++ att.uuid =
      "default" ++ "/" ++ ("default" ++ "/" ++ ("attachments/" ++ att.uuid)) := by
    simp only [← String.append_assoc]
    exact congrArg (· ++ att.uuid) (by decide)
  have hcomps : components (EmailClient.account ++ "/default/attachments/" ++ att.uuid) =
      "default" :: "default" :: components ("attachments/" ++ att.uuid) := by
    rw [hpath, components_append_slash, components_append_slash]
    rfl
  rw [EmailClient.forwardAttachment]
  exact Exec.bind_of_ok (h.lost hcomps)

theorem Layout.forwardAttachments (h : Layout fs) (atts : List Attachment) :
    Exec.forEach atts (client P drawn).forwardAttachment fs = (.ok (), fs) := by
  induction atts with
  | nil => rfl
  | cons att atts ih => rw [Exec.forEach_cons_of_ok (h.forwardAttachment att), ih]

theorem stores_send (h : Stores P (client P drawn) box fs) (msg : EmailMessage) :
    ∃ fs', (Call.send msg).run P (bridge P drawn username) (client P drawn) fs = (.ok (), fs') ∧
      Stores P (client P drawn) ((Call.send msg).step box) fs' := by
  obtain ⟨fs', hsave, hstores⟩ := stores_saveEmail h msg
    (show components "pending/outbox" = ["pending", "outbox"] by decide) (by decide)
  refine ⟨fs', ?_, hstores⟩
  show (client P drawn).send msg fs = _
  rw [EmailClient.send, Exec.bind_of_ok (h.layout.forwardAttachments _), hsave]

/-! ### Filing a mail -/

/-- The files that wait for the client are envelopes, and those in the inbox are mails. -/
structure Pending (box : MailBox) : Prop where
  attachments : ∀ name item, box pendingAttachments name = some item →
    ∃ bytes, item = .sealed bytes
  mails : ∀ name item, box pendingInbox name = some item →
    ∃ msg : EmailMessage, name = fileName msg.id ∧ item = .sealed msg.serialize ∧
      msg.serialize.length < 2 ^ 63

theorem Stores.get {c : EmailClient} (h : Stores P c box fs) (hdir : dir ∈ mailFolders)
    {item : Item} (hitem : box dir name = some item) :
    ∃ node, fs.get (dir ++ [name]) = some node ∧ Holds P c item node := by
  have hname : dir ++ [name] ∉ folders := fun hname => by
    rw [h.absent dir hdir name hname] at hitem
    cases hitem
  have hrel := h.files dir hdir name hname
  rw [hitem] at hrel
  generalize fs.get (dir ++ [name]) = node at hrel ⊢
  cases hrel with
  | some hholds => exact ⟨_, rfl, hholds⟩

theorem walk_append_of_reaches {dir : FolderPath} {comps more : List String}
    (h : fs.Reaches dir comps) : walk dir (comps ++ more) fs = walk (dir ++ comps) more fs := by
  induction comps generalizing dir with
  | nil => simp
  | cons name rest ih =>
      rw [List.cons_append, walk, Exec.bind_of_ok (child_of_isSome h.1 h.2.1)]
      simpa using ih h.2.2

/-- A file that is looked up by its path. -/
theorem Stores.getByPath {c : EmailClient} (h : Stores P c box fs) {path : String}
    {comps : List String} (hcomps : components path = comps ++ [name])
    (hdir : root ++ comps ∈ mailFolders) (hname : root ++ comps ++ [name] ∉ folders) :
    FileWrapper.getByPath root path fs =
      (.ok ((box (root ++ comps) name).map fun _ => root ++ comps ++ [name]), fs) := by
  rw [FileWrapper.getByPath, hcomps, walk_append_of_reaches
    (h.layout.reaches (.inr root_mem) (mem_folders_of_mem_mailFolders hdir)), walk,
    Exec.bind_of_ok (h.child hdir hname)]
  cases box (root ++ comps) name <;> rfl

theorem stores_takeAttachment (h : Stores P (client P drawn) box fs) (hpending : Pending box)
    {att : Attachment} (hne : att.uuid ≠ "") (hslash : '/' ∉ att.uuid.toList) :
    ∃ fs', (client P drawn).moveAttachmentToPrivate P attachments "inbox" att fs = (.ok (), fs') ∧
      Stores P (client P drawn) (takeAttachment box att) fs' := by
  have hsrc : "pending/" ++ "inbox" ++ "/attachments/" ++ att.uuid =
      "pending/inbox/attachments" ++ "/" ++ att.uuid := congrArg (· ++ att.uuid) (by decide)
  have hcomps : components (EmailClient.account ++ "/" ++
      ("pending/inbox/attachments" ++ "/" ++ att.uuid)) =
      ["default", "pending", "inbox", "attachments"] ++ [att.uuid] := by
    rw [components_append_slash, components_append_slash, components_name hne hslash]
    rfl
  have hparent : components (EmailClient.account ++ "/" ++ "pending/inbox/attachments") =
      ["default", "pending", "inbox", "attachments"] := by decide
  have hprivate := attachment_not_folder att.uuid (show attachments ∈ _ by simp)
  have hwaiting := attachment_not_folder att.uuid (show pendingAttachments ∈ _ by simp)
  unfold EmailClient.moveAttachmentToPrivate takeAttachment
  simp only [hsrc]
  rw [Exec.bind_of_ok (h.child attachments_mem hprivate)]
  cases hheld : box attachments att.uuid with
  | some item => exact ⟨fs, rfl, h⟩
  | none =>
      simp only [Option.map_none]
      have hsource : FileWrapper.getByPath (client P drawn).emailRoot _ fs = (.ok
          ((box pendingAttachments att.uuid).map fun _ => pendingAttachments ++ [att.uuid]), fs) :=
        h.getByPath hcomps pendingAttachments_mem hwaiting
      rw [Exec.bind_of_ok hsource]
      cases hwaits : box pendingAttachments att.uuid with
      | none => exact ⟨fs, rfl, h⟩
      | some item =>
          obtain ⟨bytes, rfl⟩ := hpending.attachments _ _ hwaits
          obtain ⟨node, hnode, ct, rfl, hparse, hdec⟩ := h.get pendingAttachments_mem hwaits
          obtain ⟨fs₁, hupload, h₁⟩ := h.upload (.plain bytes) attachments_mem hprivate rfl
          have hstill : box.set attachments att.uuid (some (.plain bytes)) pendingAttachments
              att.uuid = some (.sealed bytes) := by
            rw [MailBox.set, Function.update_of_ne (by decide), hwaits]
          obtain ⟨node', hnode', -⟩ := h₁.get pendingAttachments_mem hstill
          obtain ⟨fs₂, hremove, h₂⟩ := h₁.removeChild pendingAttachments_mem hwaiting
            (by simp [hnode'])
          have hfolder : FileWrapper.getByPath (client P drawn).emailRoot _ fs₁ =
              (.ok (some pendingAttachments), fs₁) :=
            h₁.layout.getByPath _ hparent root_mem
              (mem_folders_of_mem_mailFolders pendingAttachments_mem)
          refine ⟨fs₂, ?_, h₂⟩
          simp only [Option.map_some]
          rw [Exec.bind_of_ok (read_of_file hnode), hparse, Exec.lift_ok_bind,
            EmailClient.decryptAttachment, hdec, Exec.lift_ok_bind, Exec.bind_of_ok hupload,
            rsplitOnce_append _ hslash]
          simp only
          rw [Exec.bind_of_ok hfolder]
          exact Exec.bind_of_ok (Exec.attempt_of_run hremove)

theorem Pending.set (h : Pending box) {item : Option Item}
    (hatt : dir = pendingAttachments → ∀ i, item = some i → ∃ bytes, i = .sealed bytes)
    (hmail : dir = pendingInbox → ∀ i, item = some i →
      ∃ msg : EmailMessage, name = fileName msg.id ∧ i = .sealed msg.serialize ∧
        msg.serialize.length < 2 ^ 63) : Pending (box.set dir name item) := by
  have hset : ∀ dir' name' i, box.set dir name item dir' name' = some i →
      (dir' = dir ∧ name' = name ∧ item = some i) ∨ box dir' name' = some i := by
    intro dir' name' i hi
    by_cases hd : dir' = dir
    · subst hd
      by_cases hn : name' = name
      · subst hn
        exact .inl ⟨rfl, rfl, by simpa [MailBox.set] using hi⟩
      · exact .inr (by simpa [MailBox.set, Function.update_of_ne hn] using hi)
    · exact .inr (by simpa [MailBox.set, Function.update_of_ne hd] using hi)
  refine ⟨fun name' i hi => ?_, fun name' i hi => ?_⟩
  · rcases hset _ _ _ hi with ⟨hd, -, hitem⟩ | hi
    · exact hatt hd.symm i hitem
    · exact h.attachments _ _ hi
  · rcases hset _ _ _ hi with ⟨hd, rfl, hitem⟩ | hi
    · exact hmail hd.symm i hitem
    · exact h.mails _ _ hi

theorem Pending.takeAttachment (h : Pending box) (att : Attachment) :
    Pending (takeAttachment box att) := by
  unfold Mail.takeAttachment
  split
  · refine (h.set ?_ ?_).set (by simp) (by simp)
    · exact fun hd => absurd hd (by decide)
    · exact fun hd => absurd hd (by decide)
  · exact h

theorem stores_takeAttachments (h : Stores P (client P drawn) box fs) (hpending : Pending box)
    {atts : List Attachment} (hatts : ∀ att ∈ atts, att.uuid ≠ "" ∧ '/' ∉ att.uuid.toList) :
    ∃ fs', Exec.forEach atts
        ((client P drawn).moveAttachmentToPrivate P attachments "inbox") fs = (.ok (), fs') ∧
      Stores P (client P drawn) (atts.foldl takeAttachment box) fs' ∧
      Pending (atts.foldl takeAttachment box) := by
  induction atts generalizing box fs with
  | nil => exact ⟨fs, rfl, h, hpending⟩
  | cons att atts ih =>
      rw [List.forall_mem_cons] at hatts
      obtain ⟨fs₁, hmove, h₁⟩ := stores_takeAttachment h hpending hatts.1.1 hatts.1.2
      obtain ⟨fs₂, hrest, h₂⟩ := ih h₁ (hpending.takeAttachment att) hatts.2
      exact ⟨fs₂, by rw [Exec.forEach_cons_of_ok hmove, hrest], h₂⟩

theorem stores_file (h : Stores P (client P drawn) box fs) (hpending : Pending box)
    {msg : EmailMessage} (hfits : (Call.file msg).Fits P (bridge P drawn username)) :
    ∃ fs', (Call.file msg).run P (bridge P drawn username) (client P drawn) fs = (.ok (), fs') ∧
      Stores P (client P drawn) ((Call.file msg).step box) fs' := by
  obtain ⟨fs₁, htake, h₁, -⟩ := stores_takeAttachments h hpending hfits
  obtain ⟨fs₂, hupload, h₂⟩ := h₁.upload (.plain msg.serialize)
    (show inbox ∈ mailFolders by decide) (fileName_not_folder msg.id (by simp)) rfl
  refine ⟨fs₂, ?_, h₂⟩
  have hattachments : (client P drawn).moveAttachmentsToPrivate P msg.attachments "inbox" fs =
      (.ok (), fs₁) := by
    rw [EmailClient.moveAttachmentsToPrivate, Exec.bind_of_ok h.layout.defaultDir,
      Exec.bind_of_ok (h.layout.childOr default_mem
        (mem_folders_of_mem_mailFolders attachments_mem))]
    exact htake
  have hsrc : EmailClient.account ++ "/pending/inbox/" ++ msg.id ++ ".cbor" =
      "default/pending/inbox" ++ "/" ++ (msg.id ++ ".cbor") := by
    rw [String.append_assoc]
    exact congrArg (· ++ (msg.id ++ ".cbor")) (by decide)
  -- the folder it came from is looked for below a second `default`
  obtain ⟨tail, htail⟩ := rsplitOnce_below "default/pending/inbox" (msg.id ++ ".cbor")
  have hcomps := components_append_slash EmailClient.account (((rsplitOnce
    ("default/pending/inbox" ++ "/" ++ (msg.id ++ ".cbor")) '/').map Prod.fst).getD "")
  rw [htail] at hcomps
  have hlost : FileWrapper.getByPath (client P drawn).emailRoot _ fs₂ = (.ok none, fs₂) :=
    h₂.layout.lost hcomps
  show (client P drawn).moveToPrivateInbox P msg fs = _
  rw [EmailClient.moveToPrivateInbox, Exec.bind_of_ok hattachments, EmailClient.moveToPrivateDir,
    Exec.bind_of_ok h₁.layout.defaultDir, Exec.bind_of_ok (h₁.layout.getOrMkdirs ["inbox"]
      (by decide) default_mem (by decide)), hsrc]
  exact (Exec.bind_of_ok hupload).trans (Exec.bind_of_ok hlost)

include hP in
/-- What one call does. -/
theorem stores_step (h : Stores P (client P drawn) box fs) (hpending : Pending box) {call : Call}
    (hfits : call.Fits P (bridge P drawn username)) :
    ∃ fs', call.run P (bridge P drawn username) (client P drawn) fs = (.ok (), fs') ∧
      Stores P (client P drawn) (call.step box) fs' ∧ Pending (call.step box) := by
  have hother : ∀ {dir : FolderPath} {name : String} {item : Option Item} {box : MailBox},
      Pending box → dir ∈ [outbox, outgoingAttachments, inbox] →
        Pending (box.set dir name item) := by
    intro dir name item box hbox hdir
    refine hbox.set (fun heq => ?_) fun heq => ?_
    · exact absurd (heq ▸ hdir) (by decide)
    · exact absurd (heq ▸ hdir) (by decide)
  cases call with
  | attach draws uuidBytes filename size mimeType data =>
      obtain ⟨fs', hrun, hstores⟩ := stores_attach hP h hfits
      refine ⟨fs', hrun, hstores, hpending.set (fun _ i hi => ?_) fun hd => ?_⟩
      · exact ⟨data, (Option.some.inj hi).symm⟩
      · exact absurd hd (by decide)
  | deliver draws msg =>
      obtain ⟨fs', hrun, hstores⟩ := stores_deliver hP h hfits
      refine ⟨fs', hrun, hstores, hpending.set (fun hd => ?_) fun _ i hi => ?_⟩
      · exact absurd hd (by decide)
      · exact ⟨msg, rfl, (Option.some.inj hi).symm, hfits.1⟩
  | file msg =>
      obtain ⟨fs', hrun, hstores⟩ := stores_file h hpending hfits
      obtain ⟨-, -, -, hpending'⟩ := stores_takeAttachments h hpending hfits
      exact ⟨fs', hrun, hstores, hother hpending' (by simp)⟩
  | attachOutgoing uuidBytes data =>
      obtain ⟨fs', hrun, hstores⟩ := stores_attachOutgoing h uuidBytes data
      exact ⟨fs', hrun, hstores, hother hpending (by simp)⟩
  | send msg =>
      obtain ⟨fs', hrun, hstores⟩ := stores_send h msg
      exact ⟨fs', hrun, hstores, hother hpending (by simp)⟩

include hP in
/-- What any calls do, one after another. -/
theorem stores_run {calls : List Call}
    (hfits : ∀ call ∈ calls, call.Fits P (bridge P drawn username))
    (h : Stores P (client P drawn) box fs) (hpending : Pending box) :
    ∃ fs', Exec.forEach calls (Call.run P (bridge P drawn username) (client P drawn)) fs =
        (.ok (), fs') ∧
      Stores P (client P drawn) (calls.foldl Call.step box) fs' ∧
      Pending (calls.foldl Call.step box) := by
  induction calls generalizing box fs with
  | nil => exact ⟨fs, rfl, h, hpending⟩
  | cons call calls ih =>
      rw [List.forall_mem_cons] at hfits
      obtain ⟨fs₁, hcall, h₁, hpending₁⟩ := stores_step hP h hpending hfits.1
      obtain ⟨fs₂, hrest, h₂⟩ := ih hfits.2 h₁ hpending₁
      exact ⟨fs₂, by rw [Exec.forEach_cons_of_ok hcall, hrest], h₂⟩

end Steps

end Mail

end Peergos
