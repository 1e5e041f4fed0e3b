import PeergosClient.Email.Crypto
import PeergosClient.Email.Files
import PeergosClient.Email.Message

/-!
# The user's email client

`EmailClient`: the folders it keeps under `.apps/email/data/default`, the key pair stored there, and
the calls that fetch mail from the bridge's `pending` folder and file it away.  What the code draws
at random is an argument.
-/

namespace Peergos

/-- `str::rsplit_once`. -/
def rsplitOnce (s : String) (c : Char) : Option (String × String) :=
  if c ∈ s.toList then
    some (String.ofList ((s.toList.reverse.dropWhile (· ≠ c)).drop 1).reverse,
      String.ofList (s.toList.reverse.takeWhile (· ≠ c)).reverse)
  else none

/-- `str::ends_with`. -/
def endsWith (s suffix : String) : Bool := suffix.toList.isSuffixOf s.toList

/-- A hexadecimal digit. -/
def hexDigit (n : ℕ) : Char := if n < 10 then Char.ofNat (48 + n) else Char.ofNat (87 + n)

/-- `{:02x}`. -/
def hexByte (b : UInt8) : List Char := [hexDigit (b.toNat / 16), hexDigit (b.toNat % 16)]

/-- `uuid_v4`, the random bytes an argument. -/
def uuidV4 (bytes : Fin 16 → UInt8) : String :=
  String.ofList (hexByte (bytes 0) ++ hexByte (bytes 1) ++ hexByte (bytes 2) ++ hexByte (bytes 3) ++
    '-' :: (hexByte (bytes 4) ++ hexByte (bytes 5) ++
    '-' :: (hexByte (bytes 6 &&& 0x0f ||| 0x40) ++ hexByte (bytes 7) ++
    '-' :: (hexByte (bytes 8 &&& 0x3f ||| 0x80) ++ hexByte (bytes 9) ++
    '-' :: (hexByte (bytes 10) ++ hexByte (bytes 11) ++ hexByte (bytes 12) ++ hexByte (bytes 13) ++
      hexByte (bytes 14) ++ hexByte (bytes 15))))))

open FileWrapper

/-- `EmailClient`. -/
structure EmailClient where
  encryptionKeys : BoxingKeyPair
  emailRoot : FolderPath

namespace EmailClient

/-- `ACCOUNT`. -/
def account : String := "default"

/-- `KEYPAIR_PATH`. -/
def keypairPath : String := "encryption.keypair.cbor"

/-- `PUBLIC_KEY_FILENAME`. -/
def publicKeyFilename : String := "encryption.publickey.cbor"

/-- `DIRS`. -/
def dirs : List String :=
  ["inbox", "sent", "pending", "attachments", "pending/inbox", "pending/outbox", "pending/sent",
    "pending/inbox/attachments", "pending/outbox/attachments", "pending/sent/attachments"]

/-! ## Construction -/

/-- The folders `EmailClient::initialise` makes. -/
def makeFolders : FileCall FolderPath := do
  let emailRoot ← getOrMkdirs [] ".apps/email/data"
  Exec.forEach dirs fun d => do
    let _ ← getOrMkdirs emailRoot (account ++ "/" ++ d)
  pure emailRoot

/-- The keys `EmailClient::initialise` stores, the public one for the bridge. -/
def storeKeys (keys : BoxingKeyPair) (emailRoot : FolderPath) : FileCall EmailClient := do
  let defaultDir ← childOr emailRoot account "default email dir missing"
  let _ ← upload defaultDir keypairPath keys.toCbor.toBytes
  let pending ← childOr defaultDir "pending" "pending dir missing"
  let _ ← upload pending publicKeyFilename keys.publicKey.toCbor.toBytes
  pure ⟨keys, emailRoot⟩

/-- `EmailClient::initialise`, the secret key it draws an argument. -/
def initialise (P : BoxPrimitives) (drawn : Key32) : FileCall EmailClient := do
  let emailRoot ← makeFolders
  storeKeys (.randomCurve25519 P drawn) emailRoot

/-- `EmailClient::load`. -/
def load (P : BoxPrimitives) (drawn : Key32) : FileCall EmailClient := do
  match ← child [] ".apps/email/data" with
  | none => initialise P drawn
  | some emailRoot =>
      let defaultDir ← childOr emailRoot account "default email dir missing"
      match ← child defaultDir keypairPath with
      | some f =>
          let bytes ← read f
          let cbor ← Exec.lift (liftCbor (CborObject.fromBytes bytes))
          let keys ← Exec.lift (BoxingKeyPair.fromCbor cbor)
          pure ⟨keys, emailRoot⟩
      | none => initialise P drawn

/-! ## Helpers -/

variable (P : BoxPrimitives) (c : EmailClient)

/-- `default_dir`. -/
def defaultDir : FileCall FolderPath := childOr c.emailRoot account "default email dir missing"

/-- `pending_dir`. -/
def pendingDir : FileCall FolderPath := do
  childOr (← c.defaultDir) "pending" "pending dir missing"

/-- `attachments_dir`. -/
def attachmentsDir : FileCall FolderPath := do
  childOr (← c.defaultDir) "attachments" "attachments dir missing"

/-- `decrypt_email`. -/
def decryptEmail (ct : SourcedAsymmetricCipherText) : Result EmailMessage := do
  let bytes ← ct.decrypt P c.encryptionKeys.secret
  let cbor ← liftCbor (CborObject.fromBytes bytes)
  EmailMessage.fromCbor cbor

/-- `decrypt_attachment`. -/
def decryptAttachment (ct : SourcedAsymmetricCipherText) : Result Bytes :=
  ct.decrypt P c.encryptionKeys.secret

/-- One child in `list_encrypted_emails`: no message if it is no email of ours. -/
def readEncryptedEmail (dir : FolderPath) (name : String) : FileCall (Option EmailMessage) :=
  if endsWith name ".cbor" then do
    let bytes ← read (dir ++ [name])
    let ct ← Exec.lift (SourcedAsymmetricCipherText.parse bytes)
    pure (c.decryptEmail P ct).toOption
  else pure none

/-- `list_encrypted_emails`. -/
def listEncryptedEmails (dir : FolderPath) : FileCall (List EmailMessage) := do
  let children ← children dir
  let emails ← Exec.collect children fun e => c.readEncryptedEmail P dir e.1
  pure (emails.filterMap id)

/-- `save_email`. -/
def saveEmail (folder : String) (msg : EmailMessage) : FileCall Unit := do
  let dir ← getOrMkdirs (← c.defaultDir) folder
  let _ ← upload dir (msg.id ++ ".cbor") msg.serialize

/-- One attachment in `move_attachments_to_private`. -/
def moveAttachmentToPrivate (privateAttachments : FolderPath) (pendingFolder : String)
    (att : Attachment) : FileCall Unit := do
  let srcPath := "pending/" ++ pendingFolder ++ "/attachments/" ++ att.uuid
  -- an attachment already there is left as it is
  match ← child privateAttachments att.uuid with
  | some _ => pure ()
  | none =>
      match ← getByPath c.emailRoot (account ++ "/" ++ srcPath) with
      | none => pure ()
      | some src =>
          let bytes ← read src
          let ct ← Exec.lift (SourcedAsymmetricCipherText.parse bytes)
          let decrypted ← Exec.lift (c.decryptAttachment P ct)
          let _ ← upload privateAttachments att.uuid decrypted
          match rsplitOnce srcPath '/' with
          | none => pure ()
          | some parentPath =>
              match ← getByPath c.emailRoot (account ++ "/" ++ parentPath.1) with
              | none => pure ()
              | some parent =>
                  -- whether the removal went through is not looked at
                  let _ ← Exec.attempt (removeChild parent att.uuid)

/-- `move_attachments_to_private`. -/
def moveAttachmentsToPrivate (attachments : List Attachment) (pendingFolder : String) :
    FileCall Unit := do
  let privateAttachments ←
    childOr (← c.defaultDir) "attachments" "attachments dir missing"
  Exec.forEach attachments fun att =>
    c.moveAttachmentToPrivate P privateAttachments pendingFolder att

/-- `move_to_private_dir`. -/
def moveToPrivateDir (destFolder : String) (msg : EmailMessage) (srcRelative : String) :
    FileCall Unit := do
  let dest ← getOrMkdirs (← c.defaultDir) destFolder
  let filename := msg.id ++ ".cbor"
  let _ ← upload dest filename msg.serialize
  let parentPath := ((rsplitOnce srcRelative '/').map Prod.fst).getD ""
  match ← getByPath c.emailRoot (account ++ "/" ++ parentPath) with
  | none => pure ()
  | some parent =>
      let _ ← Exec.attempt (removeChild parent filename)

/-! ## Public calls -/

/-- `EmailClient::upload_attachment`. -/
def uploadAttachment (uuidBytes : Fin 16 → UInt8) (data : Bytes) : FileCall String := do
  let uuid := uuidV4 uuidBytes
  let outbox ← getOrMkdirs (← c.pendingDir) "outbox/attachments"
  let _ ← upload outbox uuid data
  pure uuid

/-- One attachment of the email forwarded by `send`. -/
def forwardAttachment (att : Attachment) : FileCall Unit := do
  let srcPath := account ++ "/default/attachments/" ++ att.uuid
  match ← getByPath c.emailRoot srcPath with
  | none => pure ()
  | some src =>
      let bytes ← read src
      let dest ← getOrMkdirs (← c.pendingDir) "outbox/attachments"
      let _ ← upload dest att.uuid bytes

/-- The attachments of the email a message forwards. -/
def forwardedAttachments (msg : EmailMessage) : List Attachment :=
  match msg.forwardingToEmail with
  | some fwd => fwd.attachments
  | none => []

/-- `EmailClient::send`. -/
def send (msg : EmailMessage) : FileCall Unit := do
  Exec.forEach (forwardedAttachments msg) c.forwardAttachment
  c.saveEmail "pending/outbox" msg

/-- `EmailClient::get_new_incoming`. -/
def getNewIncoming : FileCall (List EmailMessage) := do
  let inbox ← childOr (← c.pendingDir) "inbox" "pending/inbox dir missing"
  c.listEncryptedEmails P inbox

/-- `EmailClient::get_new_sent`. -/
def getNewSent : FileCall (List EmailMessage) := do
  let sent ← childOr (← c.pendingDir) "sent" "pending/sent dir missing"
  c.listEncryptedEmails P sent

/-- `EmailClient::get_attachment`. -/
def getAttachment (uid : String) : FileCall Bytes := do
  let attachments ← c.attachmentsDir
  let file ← childOr attachments uid ("attachment " ++ uid ++ " not found")
  read file

/-- `EmailClient::move_to_private_inbox`. -/
def moveToPrivateInbox (msg : EmailMessage) : FileCall Unit := do
  c.moveAttachmentsToPrivate P msg.attachments "inbox"
  c.moveToPrivateDir "inbox" msg (account ++ "/pending/inbox/" ++ msg.id ++ ".cbor")

/-- `EmailClient::move_to_private_sent`. -/
def moveToPrivateSent (msg : EmailMessage) : FileCall Unit := do
  c.moveAttachmentsToPrivate P msg.attachments "sent"
  c.moveToPrivateDir "sent" msg (account ++ "/pending/sent/" ++ msg.id ++ ".cbor")

end EmailClient

end Peergos
