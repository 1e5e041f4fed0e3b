import PeergosClient.Cbor.Object

/-!
# Decoding CBOR

`fromBytes`, the decoder of `peergos-cbor`.  A reader is the list of the bytes still to come, and
every read returns what is left of it.

A value starts with at least one byte of its own, so values nest at most as deep as there are
bytes.  `deserialize` therefore counts down from the number of bytes: where the count is at zero
there is nothing left to read either, and the answer is the source's own `EOF`.
-/

namespace Peergos

/-- `CborError`.  The text that prints the value found in place of a link keeps the value. -/
inductive CborError where
  | text (msg : String)
  | invalidLink (other : CborObject)
  deriving Repr

namespace CborObject

/-- The reads of `Reader`: a value and the bytes after it. -/
abbrev Read (α : Type) := Bytes → Except CborError (α × Bytes)

/-- `err`. -/
def decodeErr {α : Type} (msg : String) : Except CborError α := .error (.text msg)

/-! ## The reader -/

/-- `Reader::read_u8`. -/
def readU8 : Read UInt8
  | [] => decodeErr "EOF"
  | b :: rest => .ok (b, rest)

/-- `Reader::peek_major`. -/
def peekMajor : Bytes → Except CborError UInt8
  | [] => decodeErr "EOF"
  | b :: _ => .ok (b >>> 5)

/-- `Reader::peek_additional`. -/
def peekAdditional : Bytes → Except CborError UInt8
  | [] => decodeErr "EOF"
  | b :: _ => .ok (b &&& 0x1f)

/-- `Reader::read_n`. -/
def readN (n : ℕ) : Read Bytes := fun buf =>
  if n ≤ buf.length then .ok (buf.take n, buf.drop n) else decodeErr "EOF"

/-- A big-endian unsigned integer. -/
def bigEndian (b : Bytes) : ℕ := b.foldl (fun acc x => acc * 256 + x.toNat) 0

/-- `Reader::read_uint`. -/
def readUint (length : UInt8) : Read ℕ := fun buf =>
  if length < 0x18 then .ok (length.toNat, buf)
  else if length = 0x18 then do
    let (b, buf) ← readU8 buf
    .ok (b.toNat, buf)
  else if length = 0x19 then do
    let (b, buf) ← readN 2 buf
    .ok (bigEndian b, buf)
  else if length = 0x1a then do
    let (b, buf) ← readN 4 buf
    .ok (bigEndian b, buf)
  else if length = 0x1b then do
    let (b, buf) ← readN 8 buf
    .ok (bigEndian b, buf)
  else decodeErr s!"invalid cbor length indicator: {length}"

/-- `Reader::read_major_type`. -/
def readMajorType (expected : UInt8) : Read UInt8 := fun buf => do
  let (ib, buf) ← readU8 buf
  if expected ≠ (ib >>> 5) &&& 0x07 then
    decodeErr s!"unexpected cbor major type {(ib >>> 5) &&& 0x07}"
  else .ok (ib &&& 0x1f, buf)

/-- `Reader::read_major_type_with_size`. -/
def readMajorTypeWithSize (expected : UInt8) : Read ℕ := fun buf => do
  let (length, buf) ← readMajorType expected buf
  readUint length buf

/-- `read_int`: the ones' complement of the magnitude for a negative number. -/
def readInt : Read Int64 := fun buf => do
  let (ib, buf) ← readU8 buf
  let major := ib >>> 5
  if major ≠ 0 ∧ major ≠ 1 then decodeErr "expected integer type"
  else
    let (magnitude, buf) ← readUint (ib &&& 0x1f) buf
    let ui : Int64 := if major = 0 then 0 else -1
    .ok (ui ^^^ (UInt64.ofNat magnitude).toInt64, buf)

/-! ## Values -/

/-- The elements of an array. -/
def readItems (read : Read CborObject) : ℕ → Read (List CborObject)
  | 0, buf => .ok ([], buf)
  | n + 1, buf => do
      let (item, buf) ← read buf
      let (items, buf) ← readItems read n buf
      .ok (item :: items, buf)

/-- The entries of a map, inserted into what was read before them. -/
def readEntries (read : Read CborObject) :
    ℕ → List (String × CborObject) → Read (List (String × CborObject))
  | 0, entries, buf => .ok (entries, buf)
  | n + 1, entries, buf => do
      let (key, buf) ← read buf
      match key with
      | .str key => do
          let (value, buf) ← read buf
          if entries.any fun e => e.1 = key then decodeErr "Duplicate map key in cbor!"
          else readEntries read n (mapInsert key value entries) buf
      | _ => decodeErr "non-string cbor map key"

/-- How `Option<&u8>` prints. -/
def firstByteText : Bytes → String
  | [] => "None"
  | b :: _ => s!"Some({b})"

/-- The target of a link, from the value under the link tag. -/
def linkTarget : CborObject → Except CborError CborObject
  | .str s => decodeErr s!"text merkle link not supported at cbor layer: {s}"
  | .byteString (0 :: cid) => .ok (.merkleLink cid)
  | .byteString b => decodeErr s!"Unknown Multibase decoding Merkle link: {firstByteText b}"
  | other => .error (.invalidLink other)

/-- `deserialize`. -/
def deserialize : ℕ → ℕ → Read CborObject
  | 0, _, _ => decodeErr "EOF"
  | depth + 1, maxGroupSize, buf => do
      let major ← peekMajor buf
      if major = 3 then
        let (len, buf) ← readMajorTypeWithSize 3 buf
        if maxGroupSize < len then
          decodeErr "Invalid cbor: text string longer than original bytes!"
        else
          let (raw, buf) ← readN len buf
          match String.fromUTF8? ⟨raw.toArray⟩ with
          | some s => .ok (.str s, buf)
          | none => decodeErr "invalid utf-8 in text string"
      else if major = 2 then
        let (len, buf) ← readMajorTypeWithSize 2 buf
        if maxGroupSize < len then
          decodeErr "Invalid cbor: byte string longer than original bytes!"
        else
          let (raw, buf) ← readN len buf
          .ok (.byteString raw, buf)
      else if major = 0 ∨ major = 1 then
        let (v, buf) ← readInt buf
        .ok (.long v, buf)
      else if major = 7 then
        let additional ← peekAdditional buf
        let (_, rest) ← readU8 buf
        if additional = 0x16 then .ok (.null, rest)
        else if additional = 0x15 then .ok (.boolean true, rest)
        else if additional = 0x14 then .ok (.boolean false, rest)
        else decodeErr s!"Unimplemented simple type! {additional}"
      else if major = 5 then
        let (n, buf) ← readMajorTypeWithSize 5 buf
        if maxGroupSize < n then
          decodeErr "Invalid cbor: more map elements than original bytes!"
        else
          let (entries, buf) ← readEntries (deserialize depth maxGroupSize) n [] buf
          .ok (.map entries, buf)
      else if major = 4 then
        let (n, buf) ← readMajorTypeWithSize 4 buf
        if maxGroupSize < n then
          decodeErr "Invalid cbor: more array elements than original bytes!"
        else
          let (items, buf) ← readItems (deserialize depth maxGroupSize) n buf
          .ok (.list items, buf)
      else if major = 6 then
        let (tag, buf) ← readMajorTypeWithSize 6 buf
        if tag ≠ 42 then decodeErr s!"Unknown TAG in CBOR: {tag}"
        else
          let (value, buf) ← deserialize depth maxGroupSize buf
          let link ← linkTarget value
          .ok (link, buf)
      else decodeErr s!"Unimplemented cbor major type: {major}"

/-- `CborObject::from_bytes`. -/
def fromBytes (bytes : Bytes) : Except CborError CborObject :=
  if bytes = [] then decodeErr "Empty cbor byte array!"
  else do
    let (obj, rest) ← deserialize bytes.length bytes.length bytes
    if rest ≠ [] then decodeErr "trailing bytes after cbor value" else .ok obj

/-! ## Links -/

mutual

/-- `CborObject::links`. -/
def links : CborObject → List Bytes
  | merkleLink cid => [cid]
  | list items => listLinks items
  | map entries => entriesLinks entries
  | _ => []

def listLinks : List CborObject → List Bytes
  | [] => []
  | item :: items => links item ++ listLinks items

def entriesLinks : List (String × CborObject) → List Bytes
  | [] => []
  | (_, v) :: entries => links v ++ entriesLinks entries

end

example : (fromBytes (CborObject.map [("a", .list [.long (-1), .null]),
    ("b", .merkleLink [7])]).toBytes).toOption =
      some (.map [("a", .list [.long (-1), .null]), ("b", .merkleLink [7])]) := by
  decide +kernel

end CborObject

end Peergos
