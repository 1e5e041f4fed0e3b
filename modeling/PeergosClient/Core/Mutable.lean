import PeergosClient.Core.Storage
import PeergosClient.Lib.Exec

/-!
# Keys and mutable pointers

A mutable pointer maps a writer's public key to the current root of their data.  It moves by a
compare-and-swap, `PointerUpdate`, from a root to the next one, with a sequence number of its own.

`MutablePointers` is the trait of that name over a state `σ`.  On the wire an update is the
writer's signature over its CBOR; the model carries the update itself, so that a server that checks
the signature is one that sees what the writer sent.
-/

namespace Peergos

/-! ## Keys -/

/-- `PublicKeyHash`: a CID that names a public key by one of the two safe hashes. -/
structure PublicKeyHash where
  target : Cid
  safe : target.multihash.hashType = .sha2_256 ∨ target.multihash.hashType = .id
  deriving DecidableEq, Repr

namespace PublicKeyHash

/-- `PublicKeyHash::new`. -/
def new (target : Cid) : Result PublicKeyHash :=
  if h : target.multihash.hashType = .sha2_256 ∨ target.multihash.hashType = .id then
    .ok ⟨target, h⟩
  else protocolErr "Must use a safe hash for a public key!"

/-- `PublicKeyHash::identity`. -/
def identity (raw : Bytes) : Result PublicKeyHash := do
  let cid ← liftMf (Cid.new .v1 .dagCbor .id raw)
  new cid

end PublicKeyHash

/-- `SigningPrivateKeyAndPublicHash`. -/
structure SigningPrivateKeyAndPublicHash where
  publicKeyHash : PublicKeyHash
  secret : Bytes
  deriving DecidableEq, Repr

/-! ## Pointer updates -/

/-- `PointerUpdate`. -/
structure PointerUpdate where
  original : Option Cid
  updated : Option Cid
  sequence : Option Int64
  deriving DecidableEq, Repr

namespace PointerUpdate

/-- `PointerUpdate::empty`. -/
def empty : PointerUpdate := ⟨none, none, none⟩

/-- `PointerUpdate::increment`. -/
def increment (sequence : Option Int64) : Option Int64 :=
  some ((sequence.map (· + 1)).getD 1)

/-- The update continues the pointer: it starts from its root and has the next sequence. -/
def Continues (current u : PointerUpdate) : Prop :=
  u.original = current.updated ∧ u.sequence = increment current.sequence

instance (current u : PointerUpdate) : Decidable (current.Continues u) :=
  inferInstanceAs (Decidable (_ ∧ _))

end PointerUpdate

/-- `MutablePointers`, as far as the buffer uses the one it writes to. -/
structure MutablePointers (σ : Type) where
  /-- `set_pointer_update`: whether the compare-and-swap was applied. -/
  setPointerUpdate :
    PublicKeyHash → SigningPrivateKeyAndPublicHash → PointerUpdate → Exec σ Fault Bool
  /-- `get_pointer_target`: the last update applied for a writer. -/
  getPointerTarget : PublicKeyHash → PublicKeyHash → Exec σ Fault PointerUpdate

namespace MutablePointers

variable {σ : Type}

/-- One write as a client makes it: read the writer's pointer, then move it on from there. -/
def advance (P : MutablePointers σ) (owner : PublicKeyHash)
    (signer : SigningPrivateKeyAndPublicHash) (root : Option Cid) : Exec σ Fault Bool := do
  let current ← P.getPointerTarget owner signer.publicKeyHash
  P.setPointerUpdate owner signer
    ⟨current.updated, root, PointerUpdate.increment current.sequence⟩

/-- The server compare-and-swaps on the root and the sequence: `pointer s w` is the last update it
applied for `w`, and a call that does not fit leaves every pointer alone. -/
structure CompareAndSwap (P : MutablePointers σ) (pointer : σ → PublicKeyHash → PointerUpdate) :
    Prop where
  /-- An update that continues the writer's pointer is applied. -/
  set_fits : ∀ {s o signer u}, (pointer s signer.publicKeyHash).Continues u →
    ∃ s', P.setPointerUpdate o signer u s = (.ok true, s') ∧
      pointer s' = Function.update (pointer s) signer.publicKeyHash u
  /-- Any other update is refused, with an answer or with an error. -/
  set_refused : ∀ {s o signer u}, ¬ (pointer s signer.publicKeyHash).Continues u →
    ∃ r s', P.setPointerUpdate o signer u s = (r, s') ∧
      (r = .ok false ∨ ∃ e, r = .error (.err e)) ∧ pointer s' = pointer s
  /-- A read returns the pointer. -/
  get_pointer : ∀ s owner writer,
    ∃ s', P.getPointerTarget owner writer s = (.ok (pointer s writer), s') ∧
      pointer s' = pointer s

end MutablePointers

/-! ## Names for concrete runs -/

/-- The CID that embeds one byte. -/
def byteCid (n : UInt8) : Cid := ⟨.v1, .dagCbor, ⟨.id, [n], rfl⟩⟩

/-- The key named by one byte. -/
def byteKey (n : UInt8) : PublicKeyHash := ⟨byteCid n, Or.inr rfl⟩

/-- A signer with this key. -/
def byteSigner (n : UInt8) : SigningPrivateKeyAndPublicHash := ⟨byteKey n, []⟩

end Peergos
