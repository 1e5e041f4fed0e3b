import Mathlib

/-!
# Multihashes and CIDs

A model of the part of `peergos-multiformats` that names blocks: unsigned varints, `Multihash` and
`Cid` with their binary forms.  A multihash carries the proof that its constructor accepts it, as
the source keeps the digest private behind `Multihash::new`.

The main result is `Cid.cast_toBytes`: a version 1 CID reads back from its bytes, which is what
lets a Merkle link inside a block be followed.
-/

namespace Peergos

/-- `Vec<u8>`. -/
abbrev Bytes := List UInt8

/-- `MfError`, with the text of the source. -/
structure MfError where
  msg : String
  deriving DecidableEq, Repr

/-! ## Unsigned varints -/

/-- The loop of `put_uvarint`; a `u64` has at most ten groups of seven bits. -/
def putUvarintLoop : ℕ → ℕ → Bytes
  | 0, x => [UInt8.ofNat x]
  | n + 1, x =>
      if x ≥ 0x80 then (UInt8.ofNat x ||| 0x80) :: putUvarintLoop n (x >>> 7)
      else [UInt8.ofNat x]

/-- `put_uvarint`. -/
def putUvarint (x : ℕ) : Bytes := putUvarintLoop 9 x

/-- The loop of `read_uvarint`, from its `i`-th round with `s = 7 * i` bits read into `x`. -/
def readUvarintLoop : ℕ → ℕ → ℕ → Bytes → Except MfError (ℕ × Bytes)
  | 0, _, _, _ => .error ⟨"Varint too long!"⟩
  | _ + 1, _, _, [] => .error ⟨"EOF reading varint"⟩
  | n + 1, s, x, b :: rest =>
      if b.toNat < 0x80 then
        if n = 0 ∧ b.toNat > 1 then .error ⟨"Overflow reading varint!"⟩
        else if b.toNat = 0 ∧ s > 0 then .error ⟨"Non minimal varint encoding!"⟩
        else .ok (x ||| (b.toNat <<< s), rest)
      else readUvarintLoop n (s + 7) (x ||| ((b.toNat &&& 0x7f) <<< s)) rest

/-- `read_uvarint`, on the bytes from the cursor on; the rest is where the cursor ends. -/
def readUvarint (buf : Bytes) : Except MfError (ℕ × Bytes) := readUvarintLoop 10 0 0 buf

/-- A group that more follow: its low seven bits, and the high bit set. -/
theorem toNat_ofNat_or (x : ℕ) : (UInt8.ofNat x ||| 0x80).toNat = x % 128 + 128 := by
  have h1 : (UInt8.ofNat x ||| 0x80).toNat = (x % 256) ||| 128 := by
    rw [UInt8.toNat_or, UInt8.toNat_ofNat']
    rfl
  have h2 : x % 256 = x % 128 + (x / 128 % 2) * 128 := by omega
  rw [h1]
  rcases Nat.mod_two_eq_zero_or_one (x / 128) with h3 | h3
  · rw [h2, h3, Nat.zero_mul, Nat.add_zero, Nat.or_comm]
    have := Nat.two_pow_add_eq_or_of_lt (i := 7) (show x % 128 < 2 ^ 7 by omega) 1
    simp only [Nat.reducePow, Nat.mul_one] at this
    rw [← this, Nat.add_comm]
  · rw [h2, h3, Nat.one_mul]
    have := Nat.two_pow_add_eq_or_of_lt (i := 7) (show x % 128 < 2 ^ 7 by omega) 1
    simp only [Nat.reducePow, Nat.mul_one] at this
    rw [Nat.add_comm (x % 128) 128, this, Nat.or_comm 128, Nat.or_assoc, Nat.or_self]

/-- A number is its lowest group and those above it. -/
theorem groups_or (x s : ℕ) : (x % 128) <<< s ||| (x >>> 7) <<< (s + 7) = x <<< s := by
  have hlow : x % 128 ||| (x / 128) <<< 7 = x := by
    have := Nat.two_pow_add_eq_or_of_lt (i := 7) (show x % 128 < 2 ^ 7 by omega) (x / 128)
    simp only [Nat.reducePow] at this
    rw [Nat.or_comm, Nat.shiftLeft_eq, Nat.mul_comm, show (2 : ℕ) ^ 7 = 128 from rfl, ← this]
    omega
  have hdiv : x >>> 7 = x / 128 := by
    rw [Nat.shiftRight_eq_div_pow]
  rw [hdiv, Nat.add_comm s 7, Nat.shiftLeft_add, ← Nat.shiftLeft_or_distrib, hlow]

/-- What is read after `s` bits: the induction is on the groups there is still room for, and a last
group of zero is the whole number. -/
theorem readUvarintLoop_putUvarintLoop (n s acc x : ℕ) (hx : x < 2 ^ (7 * n + 1))
    (hzero : s = 0 ∨ 0 < x) (rest : Bytes) :
    readUvarintLoop (n + 1) s acc (putUvarintLoop n x ++ rest) = .ok (acc ||| x <<< s, rest) := by
  induction n generalizing s acc x with
  | zero =>
      have hb : (UInt8.ofNat x).toNat = x := by
        rw [UInt8.toNat_ofNat']
        omega
      rw [putUvarintLoop, List.singleton_append, readUvarintLoop, hb, if_pos (by omega),
        if_neg (by omega), if_neg (by omega)]
  | succ n ih =>
      rw [putUvarintLoop]
      by_cases h : x ≥ 0x80
      · have hhigh : x >>> 7 < 2 ^ (7 * n + 1) := by
          rw [Nat.shiftRight_eq_div_pow, Nat.div_lt_iff_lt_mul (by positivity), ← pow_add]
          exact hx.trans_eq (by ring_nf)
        have hpos : 0 < x >>> 7 := by
          rw [Nat.shiftRight_eq_div_pow]
          omega
        have hand : (x % 128 + 128) &&& 0x7f = x % 128 := by
          rw [Nat.and_two_pow_sub_one_eq_mod (x % 128 + 128) 7]
          omega
        rw [if_pos h, List.cons_append, readUvarintLoop, toNat_ofNat_or, if_neg (by omega), hand,
          ih (s + 7) _ _ hhigh (.inr hpos), Nat.or_assoc, groups_or]
      · have hb : (UInt8.ofNat x).toNat = x := by
          rw [UInt8.toNat_ofNat']
          omega
        rw [if_neg h, List.singleton_append, readUvarintLoop, hb, if_pos (by omega),
          if_neg (by omega), if_neg (by omega)]

/-- Every `u64` reads back. -/
theorem readUvarint_putUvarint {x : ℕ} (hx : x < 2 ^ 64) (rest : Bytes) :
    readUvarint (putUvarint x ++ rest) = .ok (x, rest) := by
  rw [readUvarint, putUvarint, readUvarintLoop_putUvarintLoop 9 0 0 x hx (.inl rfl)]
  simp

/-! ## Multihashes -/

/-- `MultihashType`. -/
inductive MultihashType where
  | id
  | sha2_256
  | sha2_512
  | sha3
  | blake2b
  | blake2s
  | blake3
  deriving DecidableEq, Repr

namespace MultihashType

/-- `MultihashType::index`. -/
def index : MultihashType → ℕ
  | id => 0x00
  | sha2_256 => 0x12
  | sha2_512 => 0x13
  | sha3 => 0x14
  | blake2b => 0x40
  | blake2s => 0x41
  | blake3 => 0x1e

/-- `MultihashType::length`, with `none` for the source's `-1`. -/
def length : MultihashType → Option ℕ
  | id => none
  | sha2_256 => some 32
  | sha2_512 => some 64
  | sha3 => some 64
  | blake2b => some 64
  | blake2s => some 32
  | blake3 => some 32

/-- `MultihashType::lookup`. -/
def lookup (t : ℕ) : Except MfError MultihashType :=
  if t = 0x00 then .ok id
  else if t = 0x12 then .ok sha2_256
  else if t = 0x13 then .ok sha2_512
  else if t = 0x14 then .ok sha3
  else if t = 0x40 then .ok blake2b
  else if t = 0x41 then .ok blake2s
  else if t = 0x1e then .ok blake3
  else .error ⟨s!"Unknown Multihash type: {t}"⟩

theorem lookup_index (t : MultihashType) : lookup t.index = .ok t := by
  cases t <;> rfl

end MultihashType

/-- `LEGACY_MAX_IDENTITY_HASH_SIZE`. -/
def legacyMaxIdentityHashSize : ℕ := 4112

/-- The checks of `Multihash::new`, in order; `none` when all of them pass. -/
def multihashRefusal (hashType : MultihashType) (hash : Bytes) : Option MfError :=
  if hash.length > 127 ∧ hashType ≠ .id then
    some ⟨s!"Unsupported hash size: {hash.length}"⟩
  else if hash.length > legacyMaxIdentityHashSize then
    some ⟨s!"Unsupported hash size: {hash.length}"⟩
  else match hashType.length with
    | none => none
    | some n =>
        if hash.length ≠ n then some ⟨s!"Incorrect hash length: {hash.length} != {n}"⟩ else none

/-- `Multihash`: a digest its constructor accepts. -/
structure Multihash where
  hashType : MultihashType
  hash : Bytes
  valid : multihashRefusal hashType hash = none
  deriving DecidableEq, Repr

namespace Multihash

/-- `Multihash::new`. -/
def new (hashType : MultihashType) (hash : Bytes) : Except MfError Multihash :=
  match h : multihashRefusal hashType hash with
  | some e => .error e
  | none => .ok ⟨hashType, hash, h⟩

theorem new_of_valid (m : Multihash) : new m.hashType m.hash = .ok m := by
  obtain ⟨t, h, hv⟩ := m
  unfold new
  split
  · rename_i e he
    rw [hv] at he
    cases he
  · rfl

theorem length_le (m : Multihash) : m.hash.length ≤ legacyMaxIdentityHashSize := by
  have h := m.valid
  unfold multihashRefusal at h
  split at h
  · cases h
  · split at h
    · cases h
    · rename_i h2
      omega

/-- `Multihash::is_identity`. -/
def isIdentity (m : Multihash) : Bool := m.hashType = .id

/-- `Multihash::decode`: single-byte type and length prefixes, the length unread. -/
def decode (multihash : Bytes) : Except MfError Multihash :=
  match multihash with
  | t :: _ :: rest => do
      let t ← MultihashType.lookup t.toNat
      new t rest
  | _ => .error ⟨"multihash too short"⟩

/-- `Multihash::to_bytes`. -/
def toBytes (m : Multihash) : Bytes :=
  putUvarint m.hashType.index ++ putUvarint m.hash.length ++ m.hash

/-- `Multihash::deserialize`, on the bytes from the cursor on. -/
def deserialize (buf : Bytes) : Except MfError (Multihash × Bytes) := do
  let (t, buf) ← readUvarint buf
  let (len, buf) ← readUvarint buf
  let t ← MultihashType.lookup t
  if len ≤ buf.length then
    let m ← new t (buf.take len)
    .ok (m, buf.drop len)
  else .error ⟨"EOF reading multihash"⟩

theorem deserialize_toBytes (m : Multihash) (rest : Bytes) :
    deserialize (m.toBytes ++ rest) = .ok (m, rest) := by
  have ht : m.hashType.index < 2 ^ 64 := by cases m.hashType <;> decide
  have hl : m.hash.length < 2 ^ 64 := by
    have := m.length_le
    unfold legacyMaxIdentityHashSize at this
    omega
  unfold deserialize toBytes
  rw [List.append_assoc, List.append_assoc, readUvarint_putUvarint ht]
  simp only [bind, Except.bind]
  rw [readUvarint_putUvarint hl]
  simp [MultihashType.lookup_index, new_of_valid]

end Multihash

/-! ## CIDs -/

/-- The two CID versions, `CID_V0` and `CID_V1`; the source panics on any other. -/
inductive CidVersion where
  | v0
  | v1
  deriving DecidableEq, Repr

/-- `Codec`. -/
inductive Codec where
  | raw
  | dagProtobuf
  | dagCbor
  | libP2pKey
  deriving DecidableEq, Repr

namespace Codec

/-- `Codec::code`. -/
def code : Codec → ℕ
  | raw => 0x55
  | dagProtobuf => 0x70
  | dagCbor => 0x71
  | libP2pKey => 0x72

/-- `Codec::lookup`. -/
def lookup (c : ℕ) : Except MfError Codec :=
  if c = 0x55 then .ok raw
  else if c = 0x70 then .ok dagProtobuf
  else if c = 0x71 then .ok dagCbor
  else if c = 0x72 then .ok libP2pKey
  else .error ⟨s!"Unknown Codec type: {c}"⟩

theorem lookup_code (c : Codec) : lookup c.code = .ok c := by
  cases c <;> rfl

end Codec

/-- `Cid`. -/
structure Cid where
  version : CidVersion
  codec : Codec
  multihash : Multihash
  deriving DecidableEq, Repr

namespace Cid

/-- `Cid::new`. -/
def new (version : CidVersion) (codec : Codec) (hashType : MultihashType) (hash : Bytes) :
    Except MfError Cid := do
  let multihash ← Multihash.new hashType hash
  .ok ⟨version, codec, multihash⟩

/-- `Cid::to_bytes`. -/
def toBytes (c : Cid) : Bytes :=
  match c.version with
  | .v0 => c.multihash.toBytes
  | .v1 => putUvarint 1 ++ putUvarint c.codec.code ++ c.multihash.toBytes

/-- `Cid::cast`. -/
def cast (data : Bytes) : Except MfError Cid :=
  if data.length = 34 ∧ data[0]? = some 18 ∧ data[1]? = some 32 then do
    let h ← Multihash.decode data
    .ok ⟨.v0, .dagProtobuf, h⟩
  else do
    let (version, data) ← readUvarint data
    let version ←
      if version = 0 then .ok CidVersion.v0
      else if version = 1 then .ok CidVersion.v1
      else .error (MfError.mk s!"Invalid Cid version number: {version}")
    let (codec, data) ← readUvarint data
    let (hash, _) ← Multihash.deserialize data
    let codec ← Codec.lookup codec
    .ok ⟨version, codec, hash⟩

/-- A version 1 CID reads back from its bytes. -/
theorem cast_toBytes {c : Cid} (hv : c.version = .v1) : cast c.toBytes = .ok c := by
  have hcode : c.codec.code < 2 ^ 64 := by cases c.codec <;> decide
  have hone : putUvarint 1 = [1] := by decide
  have hmh := Multihash.deserialize_toBytes c.multihash []
  rw [List.append_nil] at hmh
  have hbytes : c.toBytes = putUvarint 1 ++ (putUvarint c.codec.code ++ c.multihash.toBytes) := by
    rw [toBytes, hv, List.append_assoc]
  unfold cast
  rw [hbytes, if_neg]
  · rw [readUvarint_putUvarint (by decide)]
    simp only [bind, Except.bind, if_neg (by decide : (1 : ℕ) ≠ 0), if_true]
    rw [readUvarint_putUvarint hcode]
    simp only [hmh, Codec.lookup_code]
    rw [← hv]
  · rw [hone]
    simp

end Cid

end Peergos
