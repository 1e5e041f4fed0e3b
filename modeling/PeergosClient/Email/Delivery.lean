import PeergosClient.Cbor.Size
import PeergosClient.Email.MailBox

/-!
# The delivery of mail

What the client and the bridge read after any interleaving of their calls, said by the history of
these calls: `mail_delivered` and `attachments_delivered`.  Mail that was filed is listed as new for
ever, and no attachment is ever forwarded.
-/

namespace Peergos

open FileWrapper

namespace Mail

variable {P : BoxPrimitives} {c : EmailClient} {fs : Files} {box : MailBox} {dir : FolderPath}
  {name : String} {drawn : Key32} {username : String}

/-! ## What is read -/

theorem fileName_injective : Function.Injective fileName := by
  intro id id' h
  have hlist := congrArg String.toList h
  simp only [fileName, String.toList_append, List.append_cancel_right_eq] at hlist
  exact String.toList_inj.1 hlist

theorem endsWith_fileName (id : String) : endsWith (fileName id) ".cbor" = true := by
  simp [endsWith, fileName]

/-- The mail in an envelope. -/
def mailIn : Option Item → Option EmailMessage
  | some (.sealed bytes) =>
      (liftCbor (CborObject.fromBytes bytes) >>= EmailMessage.fromCbor).toOption
  | _ => none

theorem mailIn_serialize {msg : EmailMessage} (h : msg.serialize.length < 2 ^ 63) :
    mailIn (some (.sealed msg.serialize)) = some msg := by
  rw [mailIn, EmailMessage.fromBytes_serialize h]
  rfl

/-- A computation that returns for each element, and changes nothing, returns for all. -/
theorem collect_of_run {σ ε α β : Type} {f : α → Exec σ ε β} {g : α → β} {s : σ} {l : List α}
    (h : ∀ a ∈ l, f a s = (.ok (g a), s)) : Exec.collect l f s = (.ok (l.map g), s) := by
  induction l with
  | nil => rfl
  | cons a l ih =>
      rw [List.forall_mem_cons] at h
      rw [Exec.collect, Exec.bind_of_ok h.1, Exec.bind_of_ok (ih h.2)]
      rfl

/-- A child of the inbox that is an email is read as one. -/
theorem Stores.readEncryptedEmail (h : Stores P c box fs) (hpending : Pending box) {node : FileNode}
    (hnode : fs.get (pendingInbox ++ [name]) = some node) :
    c.readEncryptedEmail P pendingInbox name fs = (.ok (mailIn (box pendingInbox name)), fs) := by
  have hdir := pendingInbox_mem
  by_cases hname : pendingInbox ++ [name] ∈ folders
  · have hattachments : name = "attachments" := by
      simpa [folders, folder, root, pendingInbox, outbox, inbox, attachments, pendingAttachments,
        outgoingAttachments] using hname
    subst hattachments
    rw [h.absent _ hdir _ hname, EmailClient.readEncryptedEmail, if_neg (by decide)]
    rfl
  · have hrel := h.files _ hdir name hname
    rw [hnode] at hrel
    cases hitem : box pendingInbox name with
    | none => rw [hitem] at hrel; cases hrel
    | some item =>
        obtain ⟨msg, rfl, rfl, hlen⟩ := hpending.mails _ _ hitem
        obtain ⟨node', hnode', ct, rfl, hparse, hdec⟩ := h.get hdir hitem
        have hread := (mailIn_serialize hlen)
        rw [mailIn] at hread
        rw [mailIn_serialize hlen, EmailClient.readEncryptedEmail,
          if_pos (endsWith_fileName msg.id), Exec.bind_of_ok (read_of_file hnode'), hparse,
          Exec.lift_ok_bind, EmailClient.decryptEmail, hdec, ok_bind]
        exact congrArg (fun m => (Except.ok m, fs)) hread

/-- New mail is listed once each. -/
theorem Stores.getNewIncoming (h : Stores P (client P drawn) box fs) (hpending : Pending box) :
    ∃ emails, (client P drawn).getNewIncoming P fs = (.ok emails, fs) ∧ emails.Nodup ∧
      ∀ msg, msg ∈ emails ↔ mailIn (box pendingInbox (fileName msg.id)) = some msg := by
  have hdir := h.layout.isDirectory (mem_folders_of_mem_mailFolders pendingInbox_mem)
  have hchildren : FileWrapper.children pendingInbox fs =
      (.ok (PathMap.children fs pendingInbox), fs) := by
    simp [FileWrapper.children, hdir]
  have hcollect : Exec.collect (PathMap.children fs pendingInbox)
      (fun e => (client P drawn).readEncryptedEmail P pendingInbox e.1) fs =
        (.ok ((PathMap.children fs pendingInbox).map fun e => mailIn (box pendingInbox e.1)), fs) :=
    collect_of_run fun e he => h.readEncryptedEmail hpending (PathMap.mem_children.1 he)
  have hname : ∀ name msg, mailIn (box pendingInbox name) = some msg → name = fileName msg.id := by
    intro name msg hmail
    cases hitem : box pendingInbox name with
    | none => rw [hitem] at hmail; cases hmail
    | some item =>
        obtain ⟨msg', rfl, rfl, hlen⟩ := hpending.mails _ _ hitem
        rw [hitem, mailIn_serialize hlen] at hmail
        rw [Option.some.inj hmail]
  refine ⟨((PathMap.children fs pendingInbox).map Prod.fst).filterMap
    fun name => mailIn (box pendingInbox name), ?_, ?_, fun msg => ?_⟩
  · rw [EmailClient.getNewIncoming, Exec.bind_of_ok h.layout.pendingDir,
      Exec.bind_of_ok (h.layout.childOr pending_mem
        (mem_folders_of_mem_mailFolders pendingInbox_mem))]
    show (client P drawn).listEncryptedEmails P pendingInbox fs = _
    rw [EmailClient.listEncryptedEmails, Exec.bind_of_ok hchildren, Exec.bind_of_ok hcollect,
      Exec.pure_run, List.filterMap_map, List.filterMap_map]
    rfl
  · refine (PathMap.nodup_children fs pendingInbox).filterMap fun name name' msg hmail hmail' => ?_
    rw [hname _ _ hmail, hname _ _ hmail']
  · rw [List.mem_filterMap]
    constructor
    · rintro ⟨name, -, hmail⟩
      exact hname _ _ hmail ▸ hmail
    · intro hmail
      cases hitem : box pendingInbox (fileName msg.id) with
      | none => rw [hitem] at hmail; cases hmail
      | some item =>
          obtain ⟨node, hnode, -⟩ := h.get pendingInbox_mem hitem
          exact ⟨fileName msg.id, List.mem_map.2 ⟨_, PathMap.mem_children.2 hnode, rfl⟩, hmail⟩

/-! ## The folders are made -/

/-- Below the folder of the app there is nothing but its folders. -/
def OnlyFolders (fs : Files) : Prop :=
  ∀ q, root <+: q → (∀ bytes, fs.get q ≠ some (.file bytes)) ∧ (q ∉ folders → fs.get q = none)

/-- Folders are made one below the other. -/
theorem ensure_folders {fs fs' : Files} {dir p : FolderPath} {comps : List String}
    (hdir : fs.Reaches [] dir) (hcomps : ∀ k < comps.length, dir ++ comps.take (k + 1) ∈ folders)
    (h : ensure dir comps fs = (.ok p, fs')) :
    p = dir ++ comps ∧ fs'.Reaches [] (dir ++ comps) ∧
      (∀ way, fs.Reaches [] way → fs'.Reaches [] way) ∧ (OnlyFolders fs → OnlyFolders fs') := by
  obtain ⟨hp, hreach, hways, hnone⟩ := ensure_eq_ok hdir h
  refine ⟨hp, hreach, hways, fun honly q hq => ⟨fun bytes hfile => ?_, fun hfolder => ?_⟩⟩
  · have hkeeps := (ensure_keeps_files q bytes False dir comps).snd ((honly q hq).1 bytes)
    rw [h] at hkeeps
    exact hkeeps hfile
  · exact hnone q ((honly q hq).2 hfolder) fun k hk heq => hfolder (heq ▸ hcomps k hk)

/-- The folders that the client asks for are these, and those on the way to the first of them. -/
theorem folders_eq :
    folders = [[".apps"], [".apps", "email"], root, folder []] ++
      EmailClient.dirs.map fun d => root ++ components (EmailClient.account ++ "/" ++ d) := by
  decide

theorem dir_mem_folders {d : String} (h : d ∈ EmailClient.dirs) :
    root ++ components (EmailClient.account ++ "/" ++ d) ∈ folders := by
  rw [folders_eq]
  exact List.mem_append_right _ (List.mem_map.2 ⟨d, h, rfl⟩)

/-- Every folder is on the way to one that the client asks for. -/
theorem exists_dir_of_mem_folders {p : FolderPath} (h : p ∈ folders) :
    ∃ d ∈ EmailClient.dirs, p <+: root ++ components (EmailClient.account ++ "/" ++ d) := by
  rw [folders_eq] at h
  rcases List.mem_append.1 h with h | h
  · have hinbox : root ++ components (EmailClient.account ++ "/" ++ "inbox") = inbox := by
      decide
    refine ⟨"inbox", by simp [EmailClient.dirs], ?_⟩
    rw [hinbox]
    revert p
    decide
  · obtain ⟨d, hd, rfl⟩ := List.mem_map.1 h
    exact ⟨d, hd, List.prefix_rfl⟩

/-- All folders are made. -/
theorem makeFolders_eq_ok {fs fs' : Files} {emailRoot : FolderPath} (honly : OnlyFolders fs)
    (h : EmailClient.makeFolders fs = (.ok emailRoot, fs')) :
    emailRoot = root ∧ Layout fs' ∧ OnlyFolders fs' := by
  obtain ⟨p, fs₁, hroot, h⟩ := Exec.bind_eq_ok h
  obtain ⟨_, _, hdirs, h⟩ := Exec.bind_eq_ok h
  cases h
  have hroot' : ensure [] [".apps", "email", "data"] fs = (.ok emailRoot, fs₁) := hroot
  obtain ⟨rfl, hreach, -, honly₁⟩ := ensure_folders (show Files.Reaches fs [] [] from trivial)
    (by decide) hroot'
  have hloop : ∀ (ds : List String), (∀ d ∈ ds, d ∈ EmailClient.dirs) → ∀ fs fs' : Files,
      fs.Reaches [] root → OnlyFolders fs →
      Exec.forEach ds (fun d => do
        let _ ← FileWrapper.getOrMkdirs root (EmailClient.account ++ "/" ++ d)) fs = (.ok (), fs') →
      OnlyFolders fs' ∧ (∀ way, fs.Reaches [] way → fs'.Reaches [] way) ∧
        ∀ d ∈ ds, fs'.Reaches [] (root ++ components (EmailClient.account ++ "/" ++ d)) := by
    intro ds
    induction ds with
    | nil =>
        intro _ fs fs' _ honly h
        cases h
        exact ⟨honly, fun _ hway => hway, by simp⟩
    | cons d ds ih =>
        intro hds fs fs' hreach honly h
        rw [List.forall_mem_cons] at hds
        obtain ⟨_, fs₁, hd, h⟩ := Exec.bind_eq_ok h
        obtain ⟨p, fs₁', hd, h'⟩ := Exec.bind_eq_ok hd
        cases h'
        have hway : ∀ k < (components (EmailClient.account ++ "/" ++ d)).length,
            root ++ (components (EmailClient.account ++ "/" ++ d)).take (k + 1) ∈ folders :=
          fun k _ => mem_folders_above (dir_mem_folders hds.1)
            (List.prefix_append_right_inj _ |>.2 (List.take_prefix _ _)) (by simp [root])
        obtain ⟨-, hmade, hways, honly₁⟩ := ensure_folders hreach hway hd
        obtain ⟨honly₂, hways₂, hmade₂⟩ := ih hds.2 fs₁ fs' (hways _ hreach) (honly₁ honly) h
        exact ⟨honly₂, fun way hway => hways₂ way (hways way hway),
          List.forall_mem_cons.2 ⟨hways₂ _ hmade, hmade₂⟩⟩
  obtain ⟨honly₂, hways, hmade⟩ := hloop _ (fun _ hd => hd) fs₁ fs' hreach (honly₁ honly) hdirs
  refine ⟨rfl, ⟨fun d hd => ?_, ?_⟩, honly₂⟩
  · obtain ⟨e, he, more, hmore⟩ := exists_dir_of_mem_folders hd
    have hreach' := hmade e he
    rw [← hmore] at hreach'
    have hne : d ≠ [] := by
      rintro rfl
      revert hd
      decide
    cases more with
    | cons name more => exact hreach'.isDirectory.resolve_left (by simpa using hne)
    | nil =>
        rw [List.append_nil] at hmore hreach'
        have hbelow : root <+: d := ⟨_, hmore.symm⟩
        obtain ⟨q, name, rfl⟩ := (List.eq_nil_or_concat d).resolve_left hne
        rw [List.concat_eq_append] at hreach' hbelow ⊢
        have hsome := hreach'.isSome
        cases hget : fs'.get (q ++ [name]) with
        | none => simp [hget] at hsome
        | some node =>
            cases node with
            | directory => rfl
            | file bytes => exact absurd hget ((honly₂ _ hbelow).1 bytes)
  · exact (honly₂ _ (by decide)).2 (by decide)

/-- No folder that mail goes through has a file. -/
def NoMail (fs : Files) : Prop :=
  ∀ dir ∈ mailFolders, ∀ name, dir ++ [name] ∉ folders → fs.get (dir ++ [name]) = none

theorem stores_empty (hlayout : Layout fs) (hnone : NoMail fs) :
    Stores P c (fun _ _ => none) fs where
  layout := hlayout
  files dir hdir name hname := by
    rw [hnone dir hdir name hname]
    exact .none
  absent _ _ _ _ := rfl

/-- A file beside the folders that mail goes through. -/
theorem upload_beside (hlayout : Layout fs) (hnone : NoMail fs) {dir : FolderPath} {name : String}
    (hdir : dir ∈ folders) (hname : dir ++ [name] ∉ folders) (hmail : dir ∉ mailFolders)
    (hne : dir ++ [name] ≠ folder ["default"]) {bytes : Bytes} {p : FolderPath} {fs' : Files}
    (h : upload dir name bytes fs = (.ok p, fs')) :
    fs' = fs.put (dir ++ [name]) (.file bytes) ∧ Layout fs' ∧ NoMail fs' := by
  rw [upload_of_isDirectory (hlayout.isDirectory hdir)] at h
  cases h
  refine ⟨rfl, hlayout.put hname (by simp) hne, fun dir' hdir' name' hname' => ?_⟩
  have hother : dir' ++ [name'] ≠ dir ++ [name] := fun heq =>
    hmail ((List.append_inj' heq rfl).1 ▸ hdir')
  rw [PathMap.get_put, if_neg hother, hnone dir' hdir' name' hname', ite_self]

/-- The client of the keys that were drawn, with all its folders. -/
theorem initialise_eq_ok {fs fs' : Files} (honly : OnlyFolders fs)
    (h : EmailClient.initialise P drawn fs = (.ok c, fs')) :
    c = client P drawn ∧ Layout fs' ∧ NoMail fs' ∧
      fs'.get (folder ["pending"] ++ [EmailClient.publicKeyFilename]) =
        some (.file (client P drawn).encryptionKeys.publicKey.toCbor.toBytes) := by
  obtain ⟨emailRoot, fs₁, hfolders, h⟩ := Exec.bind_eq_ok h
  obtain ⟨rfl, hlayout, honly₁⟩ := makeFolders_eq_ok honly hfolders
  have hnone : NoMail fs₁ := fun dir hdir name hname => by
    refine (honly₁ _ ?_).2 hname
    have hbelow : ∀ dir ∈ mailFolders, root <+: dir := by decide
    exact (hbelow dir hdir).trans (List.prefix_append _ _)
  obtain ⟨_, _, hdefault, h⟩ := Exec.bind_eq_ok h
  cases (hlayout.childOr root_mem default_mem).symm.trans hdefault
  obtain ⟨_, fs₂, hkeys, h⟩ := Exec.bind_eq_ok h
  obtain ⟨-, hlayout₂, hnone₂⟩ := upload_beside hlayout hnone default_mem (by decide)
    (by decide) (by decide) hkeys
  obtain ⟨_, _, hpending, h⟩ := Exec.bind_eq_ok h
  cases (hlayout₂.childOr default_mem pending_mem).symm.trans hpending
  obtain ⟨_, fs₃, hpublic, h⟩ := Exec.bind_eq_ok h
  obtain ⟨rfl, hlayout₃, hnone₃⟩ := upload_beside hlayout₂ hnone₂ pending_mem (by decide)
    (by decide) (by decide) hpublic
  cases h
  exact ⟨rfl, hlayout₃, hnone₃, PathMap.get_put_self ..⟩

/-- What `build` does once the address is noted. -/
def readTarget (username : String) : FileCall EmailBridgeClient := do
  let pubKeyFile ← FileWrapper.childOr (folder ["pending"]) "encryption.publickey.cbor"
    "encryption.publickey.cbor not found in pending"
  let bytes ← FileWrapper.read pubKeyFile
  let cbor ← Exec.lift (liftCbor (CborObject.fromBytes bytes))
  let encryptionTarget ← Exec.lift (PublicBoxingKey.fromCbor cbor)
  pure ⟨username, folder ["pending"], encryptionTarget⟩

theorem readTarget_run {fs : Files} (hlayout : Layout fs)
    (hkey : fs.get (folder ["pending"] ++ [EmailClient.publicKeyFilename]) =
      some (.file (client P drawn).encryptionKeys.publicKey.toCbor.toBytes)) :
    readTarget username fs = (.ok (bridge P drawn username), fs) := by
  have hchild : FileWrapper.childOr (folder ["pending"]) "encryption.publickey.cbor"
      "encryption.publickey.cbor not found in pending" fs = _ :=
    childOr_of_isSome (hlayout.isDirectory pending_mem)
      (show (fs.get (folder ["pending"] ++ [EmailClient.publicKeyFilename])).isSome by simp [hkey])
  have hsize : (curveCbor (P.publicFromSecret drawn)).toBytes.length < 2 ^ 63 := by
    have hlong : (CborObject.long 1).toBytes.length = 1 := by decide
    rw [curveCbor, CborObject.length_toBytes_list]
    simp [CborObject.length_toBytes_byteString, hlong, (P.publicFromSecret drawn).2]
    decide
  have hparse : liftCbor (CborObject.fromBytes
      (client P drawn).encryptionKeys.publicKey.toCbor.toBytes) =
        .ok (client P drawn).encryptionKeys.publicKey.toCbor := by
    show liftCbor (CborObject.fromBytes (curveCbor (P.publicFromSecret drawn)).toBytes) = _
    rw [CborObject.fromBytes_toBytes (built_curveCbor _) hsize]
    rfl
  have hread : FileWrapper.read (folder ["pending"] ++ ["encryption.publickey.cbor"]) fs = _ :=
    read_of_file hkey
  rw [readTarget, Exec.bind_of_ok hchild, Exec.bind_of_ok hread, hparse,
    Exec.lift_ok_bind, PublicBoxingKey.fromCbor_toCbor, Exec.lift_ok_bind]
  rfl

/-- The bridge that was built there encrypts to these keys. -/
theorem build_eq_ok {fs fs' : Files} {b : EmailBridgeClient} {address : String}
    (hlayout : Layout fs) (hnone : NoMail fs)
    (hkey : fs.get (folder ["pending"] ++ [EmailClient.publicKeyFilename]) =
      some (.file (client P drawn).encryptionKeys.publicKey.toCbor.toBytes))
    (h : EmailBridgeClient.build (folder ["pending"]) username address fs = (.ok b, fs')) :
    b = bridge P drawn username ∧ Layout fs' ∧ NoMail fs' := by
  unfold EmailBridgeClient.build at h
  cases hget : fs.get (folder ["pending"] ++ ["email.json"]) with
  | some node =>
      rw [Exec.bind_of_ok (child_of_isSome (hlayout.isDirectory pending_mem) (by simp [hget]))] at h
      have hread : readTarget username fs = (.ok b, fs') := h
      rw [readTarget_run hlayout hkey] at hread
      cases hread
      exact ⟨rfl, hlayout, hnone⟩
  | none =>
      rw [Exec.bind_of_ok (child_of_none (hlayout.isDirectory pending_mem) hget)] at h
      obtain ⟨_, fs₁, hupload, h⟩ := Exec.bind_eq_ok h
      obtain ⟨rfl, hlayout₁, hnone₁⟩ := upload_beside hlayout hnone pending_mem (by decide)
        (by decide) (by decide) hupload
      have hread : readTarget username _ = (.ok b, fs') := h
      rw [readTarget_run hlayout₁ (by
        rw [PathMap.get_put_of_not_prefix _ _ (by decide), hkey])] at hread
      cases hread
      exact ⟨rfl, hlayout₁, hnone₁⟩

/-! ## The history of a mail box -/

/-- The last thing of a name that some of the calls were about. -/
def lastEntry {α : Type} (pick : Call → Option (String × α)) (calls : List Call) (name : String) :
    Option α :=
  calls.foldl (fun last call => (((pick call).filter fun e => e.1 = name).map Prod.snd).or last)
    none

/-- The mail that is delivered, by its id. -/
def Call.delivered : Call → Option (String × EmailMessage)
  | .deliver _ msg => some (msg.id, msg)
  | _ => none

/-- The mail that is filed, by its id. -/
def Call.filed : Call → Option (String × EmailMessage)
  | .file msg => some (msg.id, msg)
  | _ => none

/-- The mail that is sent, by its id. -/
def Call.sent : Call → Option (String × EmailMessage)
  | .send msg => some (msg.id, msg)
  | _ => none

/-- The attachment that the client uploads. -/
def Call.outgoing : Call → Option (String × Bytes)
  | .attachOutgoing uuidBytes data => some (uuidV4 uuidBytes, data)
  | _ => none

/-- The last entry is one of the calls. -/
theorem exists_of_lastEntry {α : Type} {pick : Call → Option (String × α)} {calls : List Call}
    {name : String} {a : α} (h : lastEntry pick calls name = some a) :
    ∃ call ∈ calls, pick call = some (name, a) := by
  suffices hgen : ∀ last : Option α,
      calls.foldl (fun last call => (((pick call).filter fun e => e.1 = name).map Prod.snd).or last)
        last = some a → (∃ call ∈ calls, pick call = some (name, a)) ∨ last = some a by
    exact (hgen none h).resolve_right (by simp)
  clear h
  induction calls with
  | nil => exact fun last h => .inr h
  | cons call calls ih =>
      intro last h
      rcases ih _ h with ⟨call', hcall', hpick⟩ | hlast
      · exact .inl ⟨call', List.mem_cons_of_mem _ hcall', hpick⟩
      · rcases Option.or_eq_some_iff.1 hlast with hcall | ⟨-, hlast⟩
        · obtain ⟨e, he, rfl⟩ := Option.map_eq_some_iff.1 hcall
          obtain ⟨hpick, hname⟩ := Option.filter_eq_some_iff.1 he
          exact .inl ⟨call, List.mem_cons_self, by rw [hpick, ← of_decide_eq_true hname]⟩
        · exact .inr hlast

theorem MailBox.set_of_ne (box : MailBox) {dir dir' : FolderPath} (name : String)
    (item : Option Item) (h : dir' ≠ dir) : box.set dir name item dir' = box dir' :=
  Function.update_of_ne h ..

theorem takeAttachment_of_ne (box : MailBox) (att : Attachment) {dir : FolderPath}
    (h : dir ≠ attachments) (h' : dir ≠ pendingAttachments) :
    takeAttachment box att dir = box dir := by
  rw [takeAttachment.eq_def]
  generalize box attachments att.uuid = held
  generalize box pendingAttachments att.uuid = waits
  rcases held with - | held
  · rcases waits with - | - | bytes
    · rfl
    · rfl
    · exact (MailBox.set_of_ne _ _ _ h').trans (box.set_of_ne _ _ h)
  · rfl

theorem takeAttachments_of_ne (box : MailBox) (atts : List Attachment) {dir : FolderPath}
    (h : dir ≠ attachments) (h' : dir ≠ pendingAttachments) :
    atts.foldl takeAttachment box dir = box dir := by
  induction atts generalizing box with
  | nil => rfl
  | cons att atts ih => rw [List.foldl_cons, ih, takeAttachment_of_ne box att h h']

/-- The folder that a call puts something into. -/
def Call.target : Call → FolderPath
  | .attach .. => pendingAttachments
  | .deliver .. => pendingInbox
  | .file _ => inbox
  | .attachOutgoing .. => outgoingAttachments
  | .send _ => outbox

/-- Another folder stays as it is, unless attachments are moved there. -/
theorem Call.step_of_ne (box : MailBox) {call : Call} {dir : FolderPath} (h : dir ≠ call.target)
    (hatt : dir ≠ attachments) (hwait : dir ≠ pendingAttachments) :
    call.step box dir = box dir := by
  cases call with
  | file msg =>
      exact (MailBox.set_of_ne _ _ _ h).trans (takeAttachments_of_ne box msg.attachments hatt hwait)
  | attach draws uuidBytes filename size mimeType data => exact box.set_of_ne _ _ h
  | deliver draws msg => exact box.set_of_ne _ _ h
  | attachOutgoing uuidBytes data => exact box.set_of_ne _ _ h
  | send msg => exact box.set_of_ne _ _ h

/-- A folder that only some of the calls put something into. -/
theorem box_of_lastEntry {α : Type} (pick : Call → Option (String × α)) (dir : FolderPath)
    {nameOf : String → String} (item : α → Item) (hinj : Function.Injective nameOf)
    (hstep : ∀ (box : MailBox) call, call.step box dir = (pick call).elim (box dir) fun e =>
      Function.update (box dir) (nameOf e.1) (some (item e.2)))
    (calls : List Call) (name : String) :
    calls.foldl Call.step (fun _ _ => none) dir (nameOf name) =
      (lastEntry pick calls name).map item := by
  suffices h : ∀ (box : MailBox) (last : Option α), box dir (nameOf name) = last.map item →
      calls.foldl Call.step box dir (nameOf name) =
        (calls.foldl (fun last call =>
          (((pick call).filter fun e => e.1 = name).map Prod.snd).or last) last).map item from
    h _ _ rfl
  induction calls with
  | nil => exact fun box last h => h
  | cons call calls ih =>
      intro box last hlast
      rw [List.foldl_cons, List.foldl_cons]
      refine ih _ _ ?_
      rw [hstep]
      cases hpick : pick call with
      | none => simpa using hlast
      | some e =>
          by_cases hname : e.1 = name
          · subst hname
            simp only [Option.elim_some, Function.update_self, Option.filter_some, decide_true,
              if_true, Option.map_some, Option.some_or]
          · have hne : nameOf name ≠ nameOf e.1 := fun heq => hname (hinj heq).symm
            simp only [Option.elim_some, Function.update_of_ne hne, hlast, Option.filter_some,
              hname, decide_false, Bool.false_eq_true, if_false, Option.map_none, Option.none_or]

theorem step_pendingInbox (box : MailBox) (call : Call) :
    call.step box pendingInbox = call.delivered.elim (box pendingInbox) fun e =>
      Function.update (box pendingInbox) (fileName e.1) (some (.sealed e.2.serialize)) := by
  by_cases h : pendingInbox = call.target
  · cases call with
    | deliver draws msg => simp [Call.step, Call.delivered, MailBox.set]
    | attach | file | attachOutgoing | send =>
        simp [Call.target, pendingInbox, pendingAttachments, outgoingAttachments, inbox, outbox,
          folder, root] at h
  · rw [Call.step_of_ne box h (by decide) (by decide)]
    cases call with
    | deliver draws msg => exact absurd rfl h
    | attach | file | attachOutgoing | send => rfl

theorem step_inbox (box : MailBox) (call : Call) :
    call.step box inbox = call.filed.elim (box inbox) fun e =>
      Function.update (box inbox) (fileName e.1) (some (.plain e.2.serialize)) := by
  by_cases h : inbox = call.target
  · cases call with
    | file msg =>
        simp only [Call.step, Call.filed, MailBox.set, Function.update_self]
        rw [takeAttachments_of_ne _ _ (by decide) (by decide), Option.elim_some]
    | attach | deliver | attachOutgoing | send =>
        simp [Call.target, pendingInbox, pendingAttachments, outgoingAttachments, inbox, outbox,
          folder, root] at h
  · rw [Call.step_of_ne box h (by decide) (by decide)]
    cases call with
    | file msg => exact absurd rfl h
    | attach | deliver | attachOutgoing | send => rfl

theorem step_outbox (box : MailBox) (call : Call) :
    call.step box outbox = call.sent.elim (box outbox) fun e =>
      Function.update (box outbox) (fileName e.1) (some (.plain e.2.serialize)) := by
  by_cases h : outbox = call.target
  · cases call with
    | send msg => simp [Call.step, Call.sent, MailBox.set]
    | attach | deliver | file | attachOutgoing =>
        simp [Call.target, pendingInbox, pendingAttachments, outgoingAttachments, inbox, outbox,
          folder, root] at h
  · rw [Call.step_of_ne box h (by decide) (by decide)]
    cases call with
    | send msg => exact absurd rfl h
    | attach | deliver | file | attachOutgoing => rfl

theorem step_outgoing (box : MailBox) (call : Call) :
    call.step box outgoingAttachments = call.outgoing.elim (box outgoingAttachments) fun e =>
      Function.update (box outgoingAttachments) e.1 (some (.plain e.2)) := by
  by_cases h : outgoingAttachments = call.target
  · cases call with
    | attachOutgoing uuidBytes data => simp [Call.step, Call.outgoing, MailBox.set]
    | attach | deliver | file | send =>
        simp [Call.target, pendingInbox, pendingAttachments, outgoingAttachments, inbox, outbox,
          folder, root] at h
  · rw [Call.step_of_ne box h (by decide) (by decide)]
    cases call with
    | attachOutgoing uuidBytes data => exact absurd rfl h
    | attach | deliver | file | send => rfl

/-! ### Attachments -/

/-- The name of the attachment that the bridge uploads. -/
def Call.attached : Call → Option String
  | .attach _ uuidBytes filename _ _ _ => some (attachmentUuid uuidBytes filename)
  | _ => none

/-- An attachment among those the client has, and among those that wait for it. -/
def view (box : MailBox) (uuid : String) : Option Item × Option Item :=
  (box attachments uuid, box pendingAttachments uuid)

/-- What it is after it was taken. -/
def taken : Option Item × Option Item → Option Item × Option Item
  | (none, some (.sealed bytes)) => (some (.plain bytes), none)
  | v => v

theorem taken_taken (v : Option Item × Option Item) : taken (taken v) = taken v := by
  rcases v with ⟨- | held, - | - | bytes⟩ <;> rfl

theorem attachments_ne : attachments ≠ pendingAttachments := by decide

theorem view_takeAttachment (box : MailBox) (att : Attachment) (uuid : String) :
    view (takeAttachment box att) uuid =
      if att.uuid = uuid then taken (view box uuid) else view box uuid := by
  have hne := attachments_ne
  unfold view
  rw [takeAttachment.eq_def]
  rcases hheld : box attachments att.uuid with - | held
  · rcases hwaits : box pendingAttachments att.uuid with - | bytes | bytes
    · by_cases h : att.uuid = uuid
      · simp [← h, hheld, hwaits, taken]
      · simp [h]
    · by_cases h : att.uuid = uuid
      · simp [← h, hheld, hwaits, taken]
      · simp [h]
    · by_cases h : att.uuid = uuid
      · subst h
        simp [hheld, hwaits, taken, MailBox.set, hne, hne.symm]
      · simp [MailBox.set, hne, hne.symm, h, Ne.symm h]
  · by_cases h : att.uuid = uuid
    · subst h
      simp [hheld, taken]
    · simp [h]

theorem view_takeAttachments (box : MailBox) (atts : List Attachment) (uuid : String) :
    view (atts.foldl takeAttachment box) uuid =
      if ∃ att ∈ atts, att.uuid = uuid then taken (view box uuid) else view box uuid := by
  induction atts generalizing box with
  | nil => simp
  | cons att atts ih =>
      rw [List.foldl_cons, ih, view_takeAttachment]
      by_cases h : att.uuid = uuid
      · simp [h, taken_taken]
      · simp [h]

theorem view_set_of_ne (box : MailBox) {dir : FolderPath} (name uuid : String) (item : Option Item)
    (h : dir ≠ attachments) (h' : dir ≠ pendingAttachments) :
    view (box.set dir name item) uuid = view box uuid := by
  rw [view, view, box.set_of_ne _ _ h.symm, box.set_of_ne _ _ h'.symm]

theorem view_file (box : MailBox) (msg : EmailMessage) (uuid : String) :
    view ((Call.file msg).step box) uuid =
      if ∃ att ∈ msg.attachments, att.uuid = uuid then taken (view box uuid)
      else view box uuid := by
  rw [← view_takeAttachments]
  exact view_set_of_ne _ _ _ _ (by decide) (by decide)

theorem view_attach (box : MailBox) (draws : EmailBridgeClient.Draws) (uuidBytes : Fin 16 → UInt8)
    (filename mimeType : String) (size : Int64) (data : Bytes) (uuid : String) :
    view ((Call.attach draws uuidBytes filename size mimeType data).step box) uuid =
      (box attachments uuid, if uuid = attachmentUuid uuidBytes filename then
        some (.sealed data) else box pendingAttachments uuid) := by
  simp [view, Call.step, MailBox.set, attachments_ne, Function.update_apply]

/-- Only the bridge adds an attachment of its name, and only filing takes it. -/
theorem view_step (box : MailBox) {call : Call} {uuid : String} (h : call.attached ≠ some uuid) :
    view (call.step box) uuid = view box uuid ∨
      view (call.step box) uuid = taken (view box uuid) := by
  cases call with
  | attach draws uuidBytes filename size mimeType data =>
      have hne : uuid ≠ attachmentUuid uuidBytes filename := fun heq => h (by rw [heq]; rfl)
      exact .inl (by rw [view_attach, if_neg hne, view])
  | file msg =>
      rw [view_file]
      split
      · exact .inr rfl
      · exact .inl rfl
  | deliver draws msg =>
      exact .inl (view_set_of_ne _ _ _ _ (by decide) (by decide))
  | attachOutgoing uuidBytes data =>
      exact .inl (view_set_of_ne _ _ _ _ (by decide) (by decide))
  | send msg => exact .inl (view_set_of_ne _ _ _ _ (by decide) (by decide))

theorem view_steps (box : MailBox) {calls : List Call} {uuid : String}
    (h : ∀ call ∈ calls, call.attached ≠ some uuid) :
    view (calls.foldl Call.step box) uuid = view box uuid ∨
      view (calls.foldl Call.step box) uuid = taken (view box uuid) := by
  induction calls generalizing box with
  | nil => exact .inl rfl
  | cons call calls ih =>
      rw [List.forall_mem_cons] at h
      rw [List.foldl_cons]
      rcases ih (call.step box) h.2 with heq | heq
      · rw [heq]
        exact view_step box h.1
      · rw [heq]
        rcases view_step box h.1 with hstep | hstep
        · exact .inr (by rw [hstep])
        · exact .inr (by rw [hstep, taken_taken])

/-- What the client has it keeps. -/
theorem held_step (box : MailBox) (call : Call) {uuid : String} {item : Item}
    (h : box attachments uuid = some item) : call.step box attachments uuid = some item := by
  have htaken : taken (view box uuid) = view box uuid := by rw [view, h]; rfl
  have hview : (view (call.step box) uuid).1 = (view box uuid).1 := by
    by_cases hcall : call.attached = some uuid
    · cases call with
      | attach draws uuidBytes filename size mimeType data => rw [view_attach]; rfl
      | deliver | file | attachOutgoing | send => cases hcall
    · rcases view_step box hcall with hstep | hstep
      · rw [hstep]
      · rw [hstep, htaken]
  exact hview.trans h

theorem held_steps (box : MailBox) (calls : List Call) {uuid : String} {item : Item}
    (h : box attachments uuid = some item) :
    calls.foldl Call.step box attachments uuid = some item := by
  induction calls generalizing box with
  | nil => exact h
  | cons call calls ih => exact ih _ (held_step box call h)

/-- An attachment of a name of its own is with the client once a mail that lists it is filed. -/
theorem attachment_held {before between after : List Call} {draws : EmailBridgeClient.Draws}
    {uuidBytes : Fin 16 → UInt8} {filename mimeType : String} {size : Int64} {data : Bytes}
    {msg : EmailMessage}
    (hown : ∀ call ∈ before ++ between, call.attached ≠ some (attachmentUuid uuidBytes filename))
    (hlists : ∃ att ∈ msg.attachments, att.uuid = attachmentUuid uuidBytes filename) :
    (before ++ .attach draws uuidBytes filename size mimeType data :: between ++
        .file msg :: after).foldl Call.step (fun _ _ => none) attachments
      (attachmentUuid uuidBytes filename) = some (.plain data) := by
  rw [List.forall_mem_append] at hown
  rw [List.foldl_append, List.foldl_append, List.foldl_cons, List.foldl_cons]
  refine held_steps _ after ?_
  set box := before.foldl Call.step fun _ _ => none with hbox
  have hbefore : view box (attachmentUuid uuidBytes filename) = (none, none) := by
    rcases view_steps (fun _ _ => none) hown.1 with h | h
    · exact h
    · exact h
  have hattach : view ((Call.attach draws uuidBytes filename size mimeType data).step box)
      (attachmentUuid uuidBytes filename) = (none, some (.sealed data)) := by
    rw [view_attach, if_pos rfl]
    exact congrArg (·, some (Item.sealed data)) (congrArg Prod.fst hbefore)
  have htaken : taken (view (between.foldl Call.step
      ((Call.attach draws uuidBytes filename size mimeType data).step box))
      (attachmentUuid uuidBytes filename)) = (some (.plain data), none) := by
    rcases view_steps _ hown.2 with h | h
    · rw [h, hattach]; rfl
    · rw [h, taken_taken, hattach]; rfl
  have hfile := view_file (between.foldl Call.step
    ((Call.attach draws uuidBytes filename size mimeType data).step box)) msg
    (attachmentUuid uuidBytes filename)
  rw [if_pos hlists, htaken] at hfile
  exact congrArg Prod.fst hfile

/-! ## Delivery -/

section Delivery

variable (hP : P.Correct) {address : String} {fs₀ fs₁ fs₂ : Files} {b : EmailBridgeClient}
  {calls : List Call}

include hP in
/-- Files are in their folders after any calls to a client and a bridge that were just set up. -/
theorem stores_of_run (hfresh : ∀ q, root <+: q → fs₀.get q = none)
    (hinit : EmailClient.initialise P drawn fs₀ = (.ok c, fs₁))
    (hbuild : EmailBridgeClient.build (folder ["pending"]) username address fs₁ = (.ok b, fs₂))
    (hfits : ∀ call ∈ calls, call.Fits P b) :
    c = client P drawn ∧ b = bridge P drawn username ∧
      ∃ fs, Exec.forEach calls (Call.run P b c) fs₂ = (.ok (), fs) ∧
        Stores P (client P drawn) (calls.foldl Call.step fun _ _ => none) fs ∧
        Pending (calls.foldl Call.step fun _ _ => none) := by
  have honly : OnlyFolders fs₀ := fun q hq => by simp [hfresh q hq]
  obtain ⟨rfl, hlayout, hnone, hkey⟩ := initialise_eq_ok honly hinit
  obtain ⟨rfl, hlayout₂, hnone₂⟩ := build_eq_ok hlayout hnone hkey hbuild
  exact ⟨rfl, rfl, stores_run hP hfits (stores_empty hlayout₂ hnone₂)
    ⟨by rintro _ _ ⟨⟩, by rintro _ _ ⟨⟩⟩⟩

/-! ### A client and a bridge -/

/-- Boxes that only carry the message. -/
def openBoxes : BoxPrimitives where
  publicFromSecret := id
  cryptoBox payload _ _ _ := .ok (List.replicate 16 0 ++ payload)
  cryptoBoxOpen boxed _ _ _ := .ok (boxed.drop 16)
  mlkemEncapsulate _ _ := cryptoErr "no ML-KEM"
  mlkemDecapsulate _ _ := cryptoErr "no ML-KEM"
  hkdfKey := id
  secretbox payload _ _ := .ok payload
  secretboxOpen boxed _ _ := .ok boxed

theorem openBoxes_correct : openBoxes.Correct where
  open_box payload nonce ours theirs hnonce :=
    ⟨List.replicate 16 0 ++ payload, rfl,
      by rw [List.length_append, List.length_replicate, Nat.add_comm], by simp [openBoxes]⟩

/-- The keys and nonces that are drawn. -/
def sampleDraws : EmailBridgeClient.Draws :=
  ⟨⟨List.replicate 32 1, rfl⟩, ⟨List.replicate 24 0, [], [], [], rfl⟩⟩

/-- A mail with one attachment. -/
def sampleMail : EmailMessage where
  id := "m"
  msgId := ""
  fromAddress := "a@b"
  subject := "s"
  created := 0
  toAddresses := []
  cc := []
  bcc := []
  content := ""
  unread := true
  star := false
  attachments := [⟨"a.txt", 1, "text/plain", attachmentUuid (fun _ => 0) "a.txt"⟩]
  icalEvent := ""
  replyingToEmail := none
  forwardingToEmail := none
  sendError := none

/-- The mail is forwarded, with another attachment. -/
def sampleForward : EmailMessage :=
  { sampleMail with
    id := "f"
    attachments := [⟨"b.txt", 1, "text/plain", uuidV4 fun _ => 1⟩]
    forwardingToEmail := some sampleMail }

/-- The mail and its attachment are delivered, and the client forwards the mail and files it. -/
def sampleCalls : List Call :=
  [.attach sampleDraws (fun _ => 0) "a.txt" 1 "text/plain" [7], .deliver sampleDraws sampleMail,
    .attachOutgoing (fun _ => 1) [8], .send sampleForward, .file sampleMail]

/-- The key that the client draws. -/
def sampleKey : Key32 := ⟨List.replicate 32 2, rfl⟩

/-- A client and then a bridge are set up. -/
def setUp (P : BoxPrimitives) (drawn : Key32) (username address : String) :
    FileCall (EmailClient × EmailBridgeClient) := do
  let c ← EmailClient.initialise P drawn
  let b ← EmailBridgeClient.build (folder ["pending"]) username address
  pure (c, b)

theorem exists_of_setUp {fs : Files}
    (h : (setUp P drawn username address fs).1.toOption.isSome = true) :
    ∃ (c : EmailClient) (b : EmailBridgeClient) (fs₁ fs₂ : Files),
      EmailClient.initialise P drawn fs = (.ok c, fs₁) ∧
        EmailBridgeClient.build (folder ["pending"]) username address fs₁ = (.ok b, fs₂) := by
  obtain ⟨r, hr⟩ := exists_eq_ok h
  obtain ⟨c, fs₁, hinit, hrest⟩ := Exec.bind_eq_ok (Prod.ext hr rfl)
  obtain ⟨b, fs₂, hbuild, -⟩ := Exec.bind_eq_ok hrest
  exact ⟨c, b, fs₁, fs₂, hinit, hbuild⟩

theorem sample_fresh : ∀ q, root <+: q → (∅ : Files).get q = none := fun _ _ => rfl

theorem sample_setup : ∃ (c : EmailClient) (b : EmailBridgeClient) (fs₁ fs₂ : Files),
    EmailClient.initialise openBoxes sampleKey ∅ = (.ok c, fs₁) ∧
      EmailBridgeClient.build (folder ["pending"]) "u" "u@b" fs₁ = (.ok b, fs₂) :=
  exists_of_setUp (by decide +kernel)

theorem sampleCalls_fit {c : EmailClient} {b : EmailBridgeClient} {fs₁ fs₂ : Files}
    (hinit : EmailClient.initialise openBoxes sampleKey ∅ = (.ok c, fs₁))
    (hbuild : EmailBridgeClient.build (folder ["pending"]) "u" "u@b" fs₁ = (.ok b, fs₂)) :
    ∀ call ∈ sampleCalls, call.Fits openBoxes b := by
  obtain ⟨-, rfl, -⟩ := stores_of_run openBoxes_correct sample_fresh hinit hbuild
    (show ∀ call ∈ ([] : List Call), call.Fits openBoxes b by simp)
  have hsize : ∀ {x : Result SourcedAsymmetricCipherText},
      x.toOption.all (fun ct => decide (ct.toCbor.toBytes.length < 2 ^ 63)) = true →
      ∀ ct, x = .ok ct → ct.toCbor.toBytes.length < 2 ^ 63 := by
    rintro _ h ct rfl
    simpa only [Except.toOption, Option.all_some, decide_eq_true_eq] using h
  simp only [sampleCalls, List.forall_mem_cons, Call.Fits, List.not_mem_nil, false_implies,
    implies_true, and_true]
  refine ⟨hsize ?_, ⟨?_, hsize ?_⟩, ?_, ?_⟩
  · decide +kernel
  · decide +kernel
  · decide +kernel
  · decide +kernel
  · decide +kernel

/-! ### What is delivered -/

include hP in
/-- After any interleaving of deliveries by the bridge and calls of the client, each of which
succeeds, the client lists as new, once each, the last mail of every id that was delivered, whether
it has filed it or not; the private inbox has the last mail of every id that was filed; and the
bridge reads from the outbox the last mail of every id that was sent. -/
theorem mail_delivered (hfresh : ∀ q, root <+: q → fs₀.get q = none)
    (hinit : EmailClient.initialise P drawn fs₀ = (.ok c, fs₁))
    (hbuild : EmailBridgeClient.build (folder ["pending"]) username address fs₁ = (.ok b, fs₂))
    (hfits : ∀ call ∈ calls, call.Fits P b) :
    ∃ fs, Exec.forEach calls (Call.run P b c) fs₂ = (.ok (), fs) ∧
      (∃ emails, c.getNewIncoming P fs = (.ok emails, fs) ∧ emails.Nodup ∧
        ∀ msg, msg ∈ emails ↔ lastEntry Call.delivered calls msg.id = some msg) ∧
      (∀ id, fs.get (inbox ++ [id ++ ".cbor"]) =
        (lastEntry Call.filed calls id).map fun msg => .file msg.serialize) ∧
      ∀ id msg, lastEntry Call.sent calls id = some msg →
        b.getPendingEmail (id ++ ".cbor") fs = (.ok (outbox ++ [id ++ ".cbor"], msg), fs) := by
  obtain ⟨rfl, rfl, fs, hrun, hstores, hpending⟩ := stores_of_run hP hfresh hinit hbuild hfits
  refine ⟨fs, hrun, ?_, fun id => ?_, fun id msg hsent => ?_⟩
  · obtain ⟨emails, hlist, hnodup, hmem⟩ := hstores.getNewIncoming hpending
    refine ⟨emails, hlist, hnodup, fun msg => (hmem msg).trans ?_⟩
    have hbox := box_of_lastEntry Call.delivered pendingInbox
      (fun msg => .sealed msg.serialize) fileName_injective step_pendingInbox calls msg.id
    cases hlast : lastEntry Call.delivered calls msg.id with
    | none =>
        rw [hbox, hlast]
        simp [mailIn]
    | some msg' =>
        rw [hlast] at hbox
        obtain ⟨msg'', -, hitem, hlen⟩ := hpending.mails _ _ hbox
        have hlen' : msg'.serialize.length < 2 ^ 63 := by rwa [Item.sealed.inj hitem]
        rw [hbox, Option.map_some, mailIn_serialize hlen']
  · have hname := fileName_not_folder id (show inbox ∈ _ by simp)
    have hrel := hstores.files inbox (by decide) _ hname
    rw [box_of_lastEntry Call.filed inbox (fun msg => .plain msg.serialize) fileName_injective
      step_inbox] at hrel
    change Option.Rel _ _ (fs.get (inbox ++ [id ++ ".cbor"])) at hrel
    generalize fs.get (inbox ++ [id ++ ".cbor"]) = node at hrel ⊢
    cases hlast : lastEntry Call.filed calls id with
    | none =>
        rw [hlast] at hrel
        cases hrel
        rfl
    | some msg =>
        rw [hlast] at hrel
        cases hrel with
        | some hholds => exact congrArg some hholds
  · have hbox := box_of_lastEntry Call.sent outbox (fun msg => .plain msg.serialize)
      fileName_injective step_outbox calls id
    rw [hsent] at hbox
    obtain ⟨node, hnode, rfl⟩ := hstores.get outbox_mem hbox
    obtain ⟨call, hcall, hpick⟩ := exists_of_lastEntry hsent
    have hlen : msg.serialize.length < 2 ^ 63 := by
      cases call with
      | send msg' => cases hpick; exact hfits _ hcall
      | attach | deliver | file | attachOutgoing => cases hpick
    have hfile : ∀ missing, FileWrapper.childOr outbox (id ++ ".cbor") missing fs =
        (.ok (outbox ++ [id ++ ".cbor"]), fs) := fun missing =>
      childOr_of_isSome (hstores.layout.isDirectory (mem_folders_of_mem_mailFolders outbox_mem))
        (Option.isSome_iff_exists.2 ⟨_, hnode⟩)
    have hread : FileWrapper.read (outbox ++ [id ++ ".cbor"]) fs = (.ok msg.serialize, fs) :=
      read_of_file hnode
    rw [EmailBridgeClient.getPendingEmail,
      Exec.bind_of_ok (hstores.layout.bridgeFolder (mem_folders_of_mem_mailFolders outbox_mem))]
    show (FileWrapper.childOr outbox (id ++ ".cbor") _ >>= _) fs = _
    obtain ⟨cbor, hcbor, hmsg⟩ := bind_eq_ok.1 (EmailMessage.fromBytes_serialize hlen)
    rw [Exec.bind_of_ok (hfile _), Exec.bind_of_ok hread, hcbor, Exec.lift_ok_bind, hmsg,
      Exec.lift_ok_bind]
    rfl

/-- The mail was filed, and is still listed as new; the bridge finds the one that forwards it. -/
theorem mail_delivered_sample : ∃ (c : EmailClient) (b : EmailBridgeClient) (fs₁ fs₂ fs : Files)
    (emails : List EmailMessage),
    EmailClient.initialise openBoxes sampleKey ∅ = (.ok c, fs₁) ∧
      EmailBridgeClient.build (folder ["pending"]) "u" "u@b" fs₁ = (.ok b, fs₂) ∧
      Exec.forEach sampleCalls (Call.run openBoxes b c) fs₂ = (.ok (), fs) ∧
      c.getNewIncoming openBoxes fs = (.ok emails, fs) ∧ sampleMail ∈ emails ∧
      fs.get (inbox ++ [sampleMail.id ++ ".cbor"]) = some (.file sampleMail.serialize) ∧
      b.getPendingEmail (sampleForward.id ++ ".cbor") fs =
        (.ok (outbox ++ [sampleForward.id ++ ".cbor"], sampleForward), fs) := by
  obtain ⟨c, b, fs₁, fs₂, hinit, hbuild⟩ := sample_setup
  obtain ⟨fs, hrun, ⟨emails, hlist, -, hmem⟩, hfiled, hsent⟩ := mail_delivered openBoxes_correct
    sample_fresh hinit hbuild (sampleCalls_fit hinit hbuild)
  refine ⟨c, b, fs₁, fs₂, fs, emails, hinit, hbuild, hrun, hlist, (hmem sampleMail).2 ?_, ?_,
    hsent _ _ ?_⟩
  · simp [lastEntry, sampleCalls, Call.delivered]
  · have hlast : lastEntry Call.filed sampleCalls sampleMail.id = some sampleMail := by
      simp [lastEntry, sampleCalls, Call.filed]
    have hfile := hfiled sampleMail.id
    rw [hlast, Option.map_some] at hfile
    exact hfile
  · simp [lastEntry, sampleCalls, Call.sent]

include hP in
/-- After the same calls, an attachment under a name of its own that the bridge uploaded and that a
mail filed later lists is with the client, as it was.  What the bridge finds in the outbox are the
attachments that the client uploaded there: those of a forwarded mail never get there. -/
theorem attachments_delivered (hfresh : ∀ q, root <+: q → fs₀.get q = none)
    (hinit : EmailClient.initialise P drawn fs₀ = (.ok c, fs₁))
    (hbuild : EmailBridgeClient.build (folder ["pending"]) username address fs₁ = (.ok b, fs₂))
    (hfits : ∀ call ∈ calls, call.Fits P b) :
    ∃ fs, Exec.forEach calls (Call.run P b c) fs₂ = (.ok (), fs) ∧
      (∀ (before between after : List Call) (draws : EmailBridgeClient.Draws)
        (uuidBytes : Fin 16 → UInt8) (filename mimeType : String) (size : Int64) (data : Bytes)
        (msg : EmailMessage),
        calls = before ++ .attach draws uuidBytes filename size mimeType data :: between ++
          .file msg :: after →
        (∀ call ∈ before ++ between, call.attached ≠ some (attachmentUuid uuidBytes filename)) →
        (∃ att ∈ msg.attachments, att.uuid = attachmentUuid uuidBytes filename) →
        c.getAttachment (attachmentUuid uuidBytes filename) fs = (.ok data, fs)) ∧
      ∀ name, b.getOutgoingAttachment name fs =
        match lastEntry Call.outgoing calls name with
        | some data => (.ok data, fs)
        | none => (protocolErr ("attachment " ++ name ++ " not found"), fs) := by
  obtain ⟨rfl, rfl, fs, hrun, hstores, -⟩ := stores_of_run hP hfresh hinit hbuild hfits
  have hlayout := hstores.layout
  have hfile : ∀ {dir name missing data}, dir ∈ mailFolders →
      calls.foldl Call.step (fun _ _ => none) dir name = some (.plain data) →
      (FileWrapper.childOr dir name missing >>= FileWrapper.read) fs = (.ok data, fs) := by
    intro dir name missing data hdir hitem
    obtain ⟨node, hnode, rfl⟩ := hstores.get hdir hitem
    rw [Exec.bind_of_ok (childOr_of_isSome
      (hlayout.isDirectory (mem_folders_of_mem_mailFolders hdir)) (by simp [hnode]))]
    exact read_of_file hnode
  refine ⟨fs, hrun, ?_, fun name => ?_⟩
  · rintro before between after draws uuidBytes filename mimeType size data msg rfl hown hlists
    have hdir : (client P drawn).attachmentsDir fs = (.ok attachments, fs) := by
      rw [EmailClient.attachmentsDir, Exec.bind_of_ok hlayout.defaultDir]
      exact hlayout.childOr default_mem (mem_folders_of_mem_mailFolders attachments_mem)
    rw [EmailClient.getAttachment, Exec.bind_of_ok hdir]
    exact hfile attachments_mem (attachment_held hown hlists)
  · have hbox := box_of_lastEntry Call.outgoing outgoingAttachments .plain Function.injective_id
      step_outgoing calls name
    have hgo : ∀ r, (FileWrapper.childOr outgoingAttachments name
        ("attachment " ++ name ++ " not found") >>= FileWrapper.read) fs = r →
        (bridge P drawn username).getOutgoingAttachment name fs = r := by
      rintro r rfl
      have houtbox : folder ["pending"] ++ ["outbox"] ∈ folders :=
        mem_folders_of_mem_mailFolders outbox_mem
      rw [EmailBridgeClient.getOutgoingAttachment, Exec.bind_of_ok (hlayout.bridgeFolder houtbox),
        Exec.bind_of_ok (hlayout.childOr houtbox
          (mem_folders_of_mem_mailFolders outgoingAttachments_mem))]
      rfl
    refine hgo _ ?_
    cases hlast : lastEntry Call.outgoing calls name with
    | some data =>
        rw [hlast] at hbox
        exact hfile outgoingAttachments_mem hbox
    | none =>
        rw [hlast] at hbox
        have hrel := hstores.files _ outgoingAttachments_mem name
          (attachment_not_folder name (by simp))
        rw [show calls.foldl Call.step (fun _ _ => none) outgoingAttachments name = none from hbox]
          at hrel
        have hnone : fs.get (outgoingAttachments ++ [name]) = none := by
          generalize fs.get (outgoingAttachments ++ [name]) = node at hrel
          cases hrel
          rfl
        rw [Exec.bind_of_error (childOr_of_none (hlayout.isDirectory
          (mem_folders_of_mem_mailFolders outgoingAttachments_mem)) hnone)]
        rfl

/-- The client has the attachment of the mail; the bridge finds the client's own, and not that of
the mail that is forwarded. -/
theorem attachments_delivered_sample : ∃ (c : EmailClient) (b : EmailBridgeClient)
    (fs₁ fs₂ fs : Files),
    EmailClient.initialise openBoxes sampleKey ∅ = (.ok c, fs₁) ∧
      EmailBridgeClient.build (folder ["pending"]) "u" "u@b" fs₁ = (.ok b, fs₂) ∧
      Exec.forEach sampleCalls (Call.run openBoxes b c) fs₂ = (.ok (), fs) ∧
      c.getAttachment (attachmentUuid (fun _ => 0) "a.txt") fs = (.ok [7], fs) ∧
      b.getOutgoingAttachment (uuidV4 fun _ => 1) fs = (.ok [8], fs) ∧
      b.getOutgoingAttachment (attachmentUuid (fun _ => 0) "a.txt") fs =
        (protocolErr ("attachment " ++ attachmentUuid (fun _ => 0) "a.txt" ++ " not found"), fs) := by
  obtain ⟨c, b, fs₁, fs₂, hinit, hbuild⟩ := sample_setup
  obtain ⟨fs, hrun, hheld, hout⟩ := attachments_delivered openBoxes_correct sample_fresh hinit
    hbuild (sampleCalls_fit hinit hbuild)
  refine ⟨c, b, fs₁, fs₂, fs, hinit, hbuild, hrun, ?_, ?_, ?_⟩
  · refine hheld [] [.deliver sampleDraws sampleMail, .attachOutgoing (fun _ => 1) [8],
      .send sampleForward] [] sampleDraws (fun _ => 0) "a.txt" "text/plain" 1 [7] sampleMail ?_ ?_ ?_
    · rw [sampleCalls, List.nil_append]
      rfl
    · simp [Call.attached]
    · simp [sampleMail]
  · have hlast : lastEntry Call.outgoing sampleCalls (uuidV4 fun _ => 1) = some [8] := by
      simp [lastEntry, sampleCalls, Call.outgoing]
    rw [hout, hlast]
  · have hlast : lastEntry Call.outgoing sampleCalls (attachmentUuid (fun _ => 0) "a.txt") =
        none := by
      have hne : uuidV4 (fun _ => 1) ≠ attachmentUuid (fun _ => 0) "a.txt" := by decide +kernel
      simp [lastEntry, sampleCalls, Call.outgoing, hne]
    rw [hout, hlast]

end Delivery

end Mail

end Peergos
