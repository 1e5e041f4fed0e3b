import PeergosClient.Champ.Node
import PeergosClient.Core.Mutable
import PeergosClient.Fs.HashTree

/-!
# The cryptree

A file or directory is a chain of encrypted nodes in the champ of its writer.  A node holds three
encrypted parts: the base block (the data or parent key, the link to the signer, the location of
the next chunk), the parent block (the link to the parent directory and the properties), and the
children of a directory or the data of a file chunk.

A ciphertext is modelled as what it is to somebody who does not break it: the secret, openable with
the key it was made with and with no other.  Padding and the splitting of a chunk into fragment
blocks are inside it.
-/

namespace Peergos

/-! ## Keys and ciphertexts -/

/-- `SymmetricKey`. -/
structure SymmetricKey where
  key : Bytes
  isDirty : Bool
  deriving DecidableEq, Repr

/-- `CipherText`, `PaddedCipherText`: a secret under a key. -/
structure CipherText (α : Type) where
  key : Bytes
  secret : α
  deriving DecidableEq, Repr

namespace CipherText

variable {α : Type}

/-- `CipherText::build`. -/
def build (key : SymmetricKey) (secret : α) : CipherText α := ⟨key.key, secret⟩

/-- `CipherText::decrypt`. -/
def decrypt (c : CipherText α) (key : SymmetricKey) : Result α :=
  if c.key = key.key then .ok c.secret
  else .error (.err (.crypto "secretbox authentication failed"))

@[simp] theorem decrypt_build (key : SymmetricKey) (secret : α) :
    (build key secret).decrypt key = .ok secret := if_pos rfl

end CipherText

/-- `Bat`. -/
structure Bat where
  secret : Bytes
  length_eq : secret.length = 32
  deriving DecidableEq, Repr

/-- `Bat::new`. -/
def Bat.new (secret : Bytes) : Result Bat :=
  if h : secret.length = 32 then .ok ⟨secret, h⟩
  else protocolErr s!"Invalid BAT length: {secret.length}"

/-- `BatId::inline`. -/
def BatId.inline (bat : Bat) : Result BatId := do
  let cid ← liftMf (Cid.new .v1 .raw .id bat.secret)
  pure ⟨cid⟩

/-! ## Capabilities -/

/-- `AbsoluteCapability`. -/
structure AbsoluteCapability where
  owner : PublicKeyHash
  writer : PublicKeyHash
  mapKey : Bytes
  bat : Option Bat
  rBaseKey : SymmetricKey
  wBaseKey : Option SymmetricKey
  mapKey_length : mapKey.length = 32
  deriving DecidableEq, Repr

/-- `AbsoluteCapability::new`. -/
def AbsoluteCapability.new (owner writer : PublicKeyHash) (mapKey : Bytes) (bat : Option Bat)
    (rBaseKey : SymmetricKey) (wBaseKey : Option SymmetricKey) : Result AbsoluteCapability :=
  if h : mapKey.length = 32 then .ok ⟨owner, writer, mapKey, bat, rBaseKey, wBaseKey, h⟩
  else protocolErr s!"Invalid map key length: {mapKey.length}"

/-- `RelativeCapability`. -/
structure RelativeCapability where
  writer : Option PublicKeyHash
  mapKey : Bytes
  bat : Option Bat
  rBaseKey : SymmetricKey
  wBaseKeyLink : Option (CipherText SymmetricKey)
  deriving DecidableEq, Repr

namespace RelativeCapability

/-- `RelativeCapability::subsequent_chunk`. -/
def subsequentChunk (mapKey : Bytes) (bat : Option Bat) (baseKey : SymmetricKey) :
    RelativeCapability := ⟨none, mapKey, bat, baseKey, none⟩

end RelativeCapability

/-- `NamedRelativeCapability`. -/
structure NamedRelativeCapability where
  name : String
  cap : RelativeCapability
  isDir : Option Bool
  mimeType : Option String
  createdEpoch : Option ℤ
  deriving DecidableEq, Repr

/-! ## Nodes -/

/-- `FileProperties`. -/
structure FileProperties where
  name : String
  isDirectory : Bool
  isLink : Bool
  mimeType : String
  size : ℕ
  isHidden : Bool
  modifiedEpoch : ℤ
  createdEpoch : ℤ
  streamSecret : Option Bytes
  thumbnail : Option (String × Bytes)
  treeHash : Option HashBranch
  chunkSize : ℕ
  deriving DecidableEq, Repr

/-- `FileProperties::new_file`. -/
def FileProperties.newFile (name mimeType : String) (size : ℕ) (epoch : ℤ) (streamSecret : Bytes)
    (thumbnail : Option (String × Bytes)) : FileProperties :=
  ⟨name, false, false, mimeType, size, false, epoch, epoch, some streamSecret, thumbnail, none,
    chunkSizeForNewFiles⟩

/-- `FromBase`: for a file the data key, for a directory the parent key. -/
structure FromBase where
  parentOrData : SymmetricKey
  signer : Option (CipherText SigningPrivateKeyAndPublicHash)
  nextChunk : RelativeCapability
  deriving DecidableEq, Repr

/-- `FromParent`. -/
structure FromParent where
  parentLink : Option RelativeCapability
  properties : FileProperties
  deriving DecidableEq, Repr

/-- What the third part of a node decrypts to: a byte string, or `ChildrenLinks`, the links of a
directory. -/
inductive ChildrenOrData where
  | data (bytes : Bytes)
  | named (links : List NamedRelativeCapability)
  | legacy (links : List RelativeCapability)
  deriving DecidableEq, Repr

/-- `FragmentedPaddedCipherText::get_and_decrypt_bytes`. -/
def getAndDecryptBytes (c : CipherText ChildrenOrData) (dataKey : SymmetricKey) : Result Bytes := do
  match ← c.decrypt dataKey with
  | .data bytes => pure bytes
  | _ => cborErr "chunk did not decrypt to a byte array"

/-- A cryptree node as it is stored. -/
structure CryptreeBlock where
  bats : List BatId
  fromBaseKey : CipherText FromBase
  fromParentKey : CipherText FromParent
  childrenOrData : CipherText ChildrenOrData
  deriving DecidableEq, Repr

/-- `CryptreeNode`. -/
structure CryptreeNode extends CryptreeBlock where
  isDirectory : Bool
  deriving DecidableEq, Repr

namespace CryptreeNode

/-- `CryptreeNode::from_cbor`: a node whose parent block the base key does not open is a
directory. -/
def fromCbor (block : CryptreeBlock) (base : SymmetricKey) : CryptreeNode :=
  { block with
    isDirectory := match block.fromParentKey.decrypt base with
      | .ok fp => fp.properties.isDirectory
      | .error _ => true }

/-- `CryptreeNode::to_cbor`. -/
def toCbor (n : CryptreeNode) : CryptreeBlock := n.toCryptreeBlock

/-- `CryptreeNode::get_parent_key`. -/
def getParentKey (n : CryptreeNode) (baseKey : SymmetricKey) : SymmetricKey :=
  if n.isDirectory then
    match n.fromBaseKey.decrypt baseKey with
    | .ok base => base.parentOrData
    | .error _ => baseKey
  else baseKey

/-- `CryptreeNode::get_data_key`. -/
def getDataKey (n : CryptreeNode) (baseKey : SymmetricKey) : Result SymmetricKey :=
  if n.isDirectory then protocolErr "Directories don't have a data key!"
  else do
    let base ← n.fromBaseKey.decrypt baseKey
    pure base.parentOrData

/-- `CryptreeNode::get_properties`. -/
def getProperties (n : CryptreeNode) (baseKey : SymmetricKey) : Result FileProperties := do
  let parent ← n.fromParentKey.decrypt (n.getParentKey baseKey)
  pure parent.properties

/-- `CryptreeNode::parent_link`. -/
def parentLink (n : CryptreeNode) (baseKey : SymmetricKey) :
    Result (Option RelativeCapability) := do
  let parent ← n.fromParentKey.decrypt (n.getParentKey baseKey)
  pure parent.parentLink

/-- `CryptreeNode::base_block`. -/
def baseBlock (n : CryptreeNode) (baseKey : SymmetricKey) : Result FromBase :=
  n.fromBaseKey.decrypt baseKey

/-- `CryptreeNode::update_properties`. -/
def updateProperties (n : CryptreeNode) (baseKey : SymmetricKey) (newProps : FileProperties) :
    Result CryptreeNode := do
  let link ← n.parentLink baseKey
  pure { n with fromParentKey := .build (n.getParentKey baseKey) ⟨link, newProps⟩ }

/-- `CryptreeNode::overwrite_chunk_data`. -/
def overwriteChunkData (n : CryptreeNode) (baseKey : SymmetricKey) (newData : CipherText ChildrenOrData)
    (modifiedEpoch : ℤ) : Result CryptreeNode := do
  let link ← n.parentLink baseKey
  let props ← n.getProperties baseKey
  let props := { props with treeHash := none, modifiedEpoch := modifiedEpoch }
  pure { n with
    isDirectory := false
    fromParentKey := .build (n.getParentKey baseKey) ⟨link, props⟩
    childrenOrData := newData }

end CryptreeNode

end Peergos
