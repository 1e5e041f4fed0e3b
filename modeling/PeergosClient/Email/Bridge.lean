import PeergosClient.Email.Client

/-!
# The email bridge

`EmailBridgeClient`: the worker that holds a writable link to the client's `pending` folder.  It
keeps the public key it read when it was built, and encrypts to that key whatever it delivers.
-/

namespace Peergos

open FileWrapper

/-- `EmailBridgeClient`. -/
structure EmailBridgeClient where
  clientUsername : String
  pending : FolderPath
  encryptionTarget : PublicBoxingKey

namespace EmailBridgeClient

/-- What an encryption of the bridge draws: the secret half of its key pair, and the nonces. -/
structure Draws where
  secret : Key32
  box : BoxDraws

/-- `EmailBridgeClient::build`, the folder its link resolves to an argument. -/
def build (pending : FolderPath) (clientUsername clientEmailAddress : String) :
    FileCall EmailBridgeClient := do
  match ← child pending "email.json" with
  | some _ => pure ()
  | none =>
      let contents := "\x7b \"email\": \"" ++ clientEmailAddress ++ "\" \x7d"
      let _ ← upload pending "email.json" (CborObject.utf8 contents)
  let pubKeyFile ← childOr pending "encryption.publickey.cbor"
    "encryption.publickey.cbor not found in pending"
  let bytes ← read pubKeyFile
  let cbor ← Exec.lift (liftCbor (CborObject.fromBytes bytes))
  let encryptionTarget ← Exec.lift (PublicBoxingKey.fromCbor cbor)
  pure ⟨clientUsername, pending, encryptionTarget⟩

variable (P : BoxPrimitives) (b : EmailBridgeClient)

/-- `list_outbox`. -/
def listOutbox : FileCall (List String) := do
  let outbox ← childOr b.pending "outbox" "outbox directory missing"
  let children ← children outbox
  pure ((children.filter fun e => e.2 ≠ .directory).map Prod.fst)

/-- `get_pending_email`. -/
def getPendingEmail (filename : String) : FileCall (FolderPath × EmailMessage) := do
  let outbox ← childOr b.pending "outbox" "outbox directory missing"
  let file ← childOr outbox filename (filename ++ " not found in outbox")
  let bytes ← read file
  let cbor ← Exec.lift (liftCbor (CborObject.fromBytes bytes))
  let msg ← Exec.lift (EmailMessage.fromCbor cbor)
  pure (file, msg)

/-- `get_outgoing_attachment`. -/
def getOutgoingAttachment (filename : String) : FileCall Bytes := do
  let outbox ← childOr b.pending "outbox" "outbox directory missing"
  let attachments ← childOr outbox "attachments" "outbox/attachments missing"
  let file ← childOr attachments filename ("attachment " ++ filename ++ " not found")
  read file

/-- `encrypt_attachment`. -/
def encryptAttachment (draws : Draws) (data : Bytes) : Result SourcedAsymmetricCipherText :=
  SourcedAsymmetricCipherText.encrypt P draws.box (.randomCurve25519 P draws.secret)
    b.encryptionTarget data

/-- `encrypt_email`. -/
def encryptEmail (draws : Draws) (msg : EmailMessage) : Result SourcedAsymmetricCipherText :=
  b.encryptAttachment P draws msg.serialize

/-- `upload_attachment`, with the envelope it stored. -/
def uploadAttachment (draws : Draws) (uuidBytes : Fin 16 → UInt8) (filename : String)
    (size : Int64) (mimeType : String) (data : Bytes) :
    FileCall (Attachment × SourcedAsymmetricCipherText) := do
  let ext := ((rsplitOnce filename '.').map Prod.snd).getD ""
  let ct ← Exec.lift (b.encryptAttachment P draws data)
  let uuid := uuidV4 uuidBytes ++ "." ++ ext
  let inbox ← childOr b.pending "inbox" "inbox directory missing"
  let baseDir ← getOrMkdirs inbox "attachments"
  let _ ← upload baseDir uuid ct.toCbor.toBytes
  pure (⟨filename, size, mimeType, uuid⟩, ct)

/-- `add_to_inbox`, with the envelope it stored. -/
def addToInbox (draws : Draws) (msg : EmailMessage) : FileCall SourcedAsymmetricCipherText := do
  let inbox ← childOr b.pending "inbox" "inbox directory missing"
  let ct ← Exec.lift (b.encryptEmail P draws msg)
  let _ ← upload inbox (msg.id ++ ".cbor") ct.toCbor.toBytes
  pure ct

/-- `all_attachments`. -/
def allAttachments (msg : EmailMessage) : List Attachment :=
  msg.attachments ++ EmailClient.forwardedAttachments msg

/-- One attachment in `encrypt_and_move_to_sent`. -/
def moveAttachmentToSent (sentAttachments outbox : FolderPath)
    (attachmentsMap : String → Option Bytes) (draws : Draws) (att : Attachment) :
    FileCall Unit := do
  match attachmentsMap att.uuid with
  | none => pure ()
  | some bytes =>
      let ct ← Exec.lift (b.encryptAttachment P draws bytes)
      let _ ← upload sentAttachments att.uuid ct.toCbor.toBytes
      match ← child outbox "attachments" with
      | none => pure ()
      | some outboxAtts =>
          let _ ← Exec.attempt (removeChild outboxAtts att.uuid)

/-- `encrypt_and_move_to_sent` of the file named `filename` in the outbox. -/
def encryptAndMoveToSent (draws : Draws) (attachmentDraws : ℕ → Draws) (filename : String)
    (msg : EmailMessage) (attachmentsMap : String → Option Bytes) : FileCall Unit := do
  let sent ← childOr b.pending "sent" "sent directory missing"
  let ct ← Exec.lift (b.encryptEmail P draws msg)
  let _ ← upload sent filename ct.toCbor.toBytes
  let outbox ← childOr b.pending "outbox" "outbox missing"
  let _ ← Exec.attempt (removeChild outbox filename)
  let sentAttachments ← getOrMkdirs sent "attachments"
  Exec.forEach (allAttachments msg).zipIdx fun a =>
    b.moveAttachmentToSent P sentAttachments outbox attachmentsMap (attachmentDraws a.2) a.1

end EmailBridgeClient

end Peergos
