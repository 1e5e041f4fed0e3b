import PeergosClient.Cbor.Canonical
import PeergosClient.Core.Ram
import PeergosClient.Fs.Cryptree

/-!
# Capabilities as CBOR

How a capability is written down, in a sharing file or in a feed record: the owner and the writer as
links, the map key, the block access token if it has one, and its keys.  Every capability a client
can hold reads back from what it writes.
-/

namespace Peergos

namespace CborObject

/-- `CborObject::as_string`. -/
def asString : CborObject → Option String
  | str s => some s
  | _ => none

/-- `CborObject::as_long`. -/
def asLong : CborObject → Option Int64
  | long v => some v
  | _ => none

/-- `CborObject::as_bool`. -/
def asBool : CborObject → Option Bool
  | boolean b => some b
  | _ => none

end CborObject

/-! ## Keys and tokens -/

/-- `PublicKeyHash::to_cbor`. -/
def PublicKeyHash.toCbor (k : PublicKeyHash) : CborObject := .merkleLink k.target.toBytes

/-- `PublicKeyHash::from_cbor`. -/
def PublicKeyHash.fromCbor (cbor : CborObject) : Result PublicKeyHash :=
  match cbor.asLink with
  | some bytes => do
      let cid ← liftMf (Cid.cast bytes)
      PublicKeyHash.new cid
  | none => cborErr "Invalid cbor for PublicKeyHash"

/-- `Bat::to_cbor`. -/
def Bat.toCbor (b : Bat) : CborObject := .build [("s", .byteString b.secret)]

/-- `Bat::from_cbor`. -/
def Bat.fromCbor (cbor : CborObject) : Result Bat :=
  match (cbor.get "s").bind CborObject.asBytes with
  | some s => Bat.new s
  | none => cborErr "Incorrect cbor for Bat"

/-- `SymmetricKey::new`. -/
def SymmetricKey.new (key : Bytes) (isDirty : Bool) : Result SymmetricKey :=
  if key.length = 32 then .ok ⟨key, isDirty⟩
  else .error (.err (.crypto s!"Incorrect key size! ({key.length})"))

/-- `SymmetricKey::to_cbor`, after the type `TWEETNACL`. -/
def SymmetricKey.toCbor (k : SymmetricKey) : CborObject :=
  .list [.long 1, .byteString k.key, .boolean k.isDirty]

/-- `SymmetricKey::from_cbor`. -/
def SymmetricKey.fromCbor (cbor : CborObject) : Result SymmetricKey :=
  match cbor.asList with
  | none => cborErr "Invalid cbor for SymmetricKey"
  | some list =>
      match list[1]?.bind CborObject.asBytes with
      | none => cborErr "missing symmetric key bytes"
      | some key => SymmetricKey.new key ((list[2]?.bind CborObject.asBool).getD false)

/-- A name whose CID reads back from its bytes, as every CID that came from bytes or has version 1
does. -/
def PublicKeyHash.Encodable (k : PublicKeyHash) : Prop :=
  (Cid.cast k.target.toBytes).toOption = some k.target

instance (k : PublicKeyHash) : Decidable k.Encodable :=
  inferInstanceAs (Decidable (_ = _))

theorem PublicKeyHash.fromCbor_toCbor {k : PublicKeyHash} (h : k.Encodable) :
    fromCbor k.toCbor = .ok k := by
  have hcast : Cid.cast k.target.toBytes = .ok k.target := by
    unfold Encodable at h
    cases hc : Cid.cast k.target.toBytes with
    | error e => simp [hc, Except.toOption] at h
    | ok c => simpa [hc, Except.toOption] using h
  simp only [fromCbor, toCbor, CborObject.asLink, hcast, liftMf, ok_bind, new, dif_pos k.safe]

theorem Bat.fromCbor_toCbor (b : Bat) : fromCbor b.toCbor = .ok b := by
  have hget : (b.toCbor.get "s").bind CborObject.asBytes = some b.secret := rfl
  simp only [fromCbor, hget, new, dif_pos b.length_eq]

theorem SymmetricKey.fromCbor_toCbor {k : SymmetricKey} (h : k.key.length = 32) :
    fromCbor k.toCbor = .ok k := by
  simp only [fromCbor, toCbor, CborObject.asList, List.getElem?_cons_succ, List.getElem?_cons_zero,
    Option.bind_some, CborObject.asBytes, CborObject.asBool, Option.getD_some, new, if_pos h]

theorem Bat.ordered_toCbor (b : Bat) : b.toCbor.Ordered :=
  CborObject.ordered_build fun e he => by
    rw [List.mem_singleton.1 he]
    trivial

theorem SymmetricKey.ordered_toCbor (k : SymmetricKey) : k.toCbor.Ordered :=
  ⟨trivial, trivial, trivial, trivial⟩

/-! ## Capabilities -/

namespace AbsoluteCapability

/-- The fields of a capability, in the order they are put. -/
def fields (c : AbsoluteCapability) : List (String × CborObject) :=
  [("o", c.owner.toCbor), ("w", c.writer.toCbor), ("m", .byteString c.mapKey)] ++
    (c.bat.map fun b => ("a", b.toCbor)).toList ++ [("k", c.rBaseKey.toCbor)] ++
    (c.wBaseKey.map fun k => ("b", k.toCbor)).toList

/-- `AbsoluteCapability::to_cbor`. -/
def toCbor (c : AbsoluteCapability) : CborObject := .build c.fields

/-- A field that has to be there. -/
def required (cbor : CborObject) (field : String) : Result CborObject :=
  match cbor.get field with
  | some v => .ok v
  | none => cborErr s!"cap missing '{field}'"

/-- A field that may be absent, read if it is there (`map(..).transpose()?`). -/
def optional {α : Type} (cbor : CborObject) (field : String) (read : CborObject → Result α) :
    Result (Option α) :=
  match cbor.get field with
  | some v => do
      let a ← read v
      pure (some a)
  | none => .ok none

/-- `AbsoluteCapability::from_cbor`. -/
def fromCbor (cbor : CborObject) : Result AbsoluteCapability := do
  let owner ← required cbor "o" >>= PublicKeyHash.fromCbor
  let writer ← required cbor "w" >>= PublicKeyHash.fromCbor
  let mapKey ←
    match (cbor.get "m").bind CborObject.asBytes with
    | some m => .ok m
    | none => cborErr "cap missing 'm'"
  let bat ← optional cbor "a" Bat.fromCbor
  let rBaseKey ← required cbor "k" >>= SymmetricKey.fromCbor
  let wBaseKey ← optional cbor "b" SymmetricKey.fromCbor
  AbsoluteCapability.new owner writer mapKey bat rBaseKey wBaseKey

/-- The keys have the length the code checks wherever it makes one, and the names read back. -/
structure Encodable (c : AbsoluteCapability) : Prop where
  owner : c.owner.Encodable
  writer : c.writer.Encodable
  rBaseKey : c.rBaseKey.key.length = 32
  wBaseKey : ∀ k ∈ c.wBaseKey, k.key.length = 32

theorem ordered_toCbor (c : AbsoluteCapability) : c.toCbor.Ordered := by
  refine CborObject.ordered_build fun e he => ?_
  simp only [fields, List.mem_append, List.mem_cons, List.not_mem_nil, or_false,
    Option.mem_toList, Option.map_eq_some_iff] at he
  rcases he with (((rfl | rfl | rfl) | ⟨b, -, rfl⟩) | rfl) | ⟨k, -, rfl⟩
  · trivial
  · trivial
  · trivial
  · exact b.ordered_toCbor
  · exact c.rBaseKey.ordered_toCbor
  · exact k.ordered_toCbor

/-- A field of a written capability: the optional ones come after those that are always there. -/
theorem get_toCbor (c : AbsoluteCapability) (field : String) : c.toCbor.get field =
    if field = "b" ∧ c.wBaseKey.isSome then c.wBaseKey.map SymmetricKey.toCbor
    else if field = "k" then some c.rBaseKey.toCbor
    else if field = "a" ∧ c.bat.isSome then c.bat.map Bat.toCbor
    else if field = "m" then some (.byteString c.mapKey)
    else if field = "w" then some c.writer.toCbor
    else if field = "o" then some c.owner.toCbor
    else none := by
  obtain ⟨owner, writer, mapKey, bat, rBaseKey, wBaseKey, hlen⟩ := c
  cases bat <;> cases wBaseKey <;>
    simp [toCbor, fields, CborObject.build, CborObject.get_map_mapInsert] <;> rfl

theorem get_bat (c : AbsoluteCapability) : c.toCbor.get "a" = c.bat.map Bat.toCbor := by
  cases h : c.bat <;> simp [get_toCbor, h]

theorem get_wBaseKey (c : AbsoluteCapability) :
    c.toCbor.get "b" = c.wBaseKey.map SymmetricKey.toCbor := by
  cases h : c.wBaseKey <;> simp [get_toCbor, h]

theorem optional_of_map {α : Type} {cbor : CborObject} {field : String} {a : Option α}
    {write : α → CborObject} {read : CborObject → Result α} (hget : cbor.get field = a.map write)
    (hread : ∀ x ∈ a, read (write x) = .ok x) : optional cbor field read = .ok a := by
  cases a with
  | none => simp [optional, hget]
  | some x => simp [optional, hget, hread x rfl, pure, Except.pure]

/-- A capability reads back from what it writes. -/
theorem fromCbor_toCbor {c : AbsoluteCapability} (h : c.Encodable) : fromCbor c.toCbor = .ok c := by
  have hbat : optional c.toCbor "a" Bat.fromCbor = .ok c.bat :=
    optional_of_map c.get_bat fun b _ => b.fromCbor_toCbor
  have hwKey : optional c.toCbor "b" SymmetricKey.fromCbor = .ok c.wBaseKey :=
    optional_of_map c.get_wBaseKey fun k hk => SymmetricKey.fromCbor_toCbor (h.wBaseKey k hk)
  have ho : c.toCbor.get "o" = some c.owner.toCbor := by simp [get_toCbor]
  have hw : c.toCbor.get "w" = some c.writer.toCbor := by simp [get_toCbor]
  have hm : c.toCbor.get "m" = some (.byteString c.mapKey) := by simp [get_toCbor]
  have hk : c.toCbor.get "k" = some c.rBaseKey.toCbor := by simp [get_toCbor]
  simp only [fromCbor, required, ho, hw, hm, hk, ok_bind,
    PublicKeyHash.fromCbor_toCbor h.owner, PublicKeyHash.fromCbor_toCbor h.writer, hbat, hwKey,
    SymmetricKey.fromCbor_toCbor h.rBaseKey, Option.bind_some, CborObject.asBytes,
    AbsoluteCapability.new, dif_pos c.mapKey_length]

end AbsoluteCapability

end Peergos
