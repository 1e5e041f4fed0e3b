import PeergosClient.Core.CidBytes
import PeergosClient.Fs.CapabilityCbor

/-!
# What reads back

A capability reads back from what it writes exactly when its keys have the length of a key and its
names are CIDs that read back.  Of the CIDs these are the ones of version 1, and of version 0 those
that have no other form: SHA-256 digests of dag-protobuf blocks.
-/

namespace Peergos

/-! ## CIDs -/

namespace Cid

/-- The CIDs that have a binary form of their own. -/
def Written (c : Cid) : Prop :=
  c.version = .v1 ∨ (c.codec = .dagProtobuf ∧ c.multihash.hashType = .sha2_256)

instance (c : Cid) : Decidable c.Written := inferInstanceAs (Decidable (_ ∨ _))

theorem length_of_sha2_256 {m : Multihash} (h : m.hashType = .sha2_256) : m.hash.length = 32 := by
  have hv := m.valid
  rw [h] at hv
  unfold multihashRefusal at hv
  split_ifs at hv
  simp only [MultihashType.length] at hv
  split_ifs at hv with hne
  exact not_not.1 hne

/-- A multihash of the 34-byte form. -/
theorem cast_multihash {m : Multihash} (h : m.hashType = .sha2_256) :
    cast m.toBytes = .ok ⟨.v0, .dagProtobuf, m⟩ := by
  have hlen := length_of_sha2_256 h
  have hbytes : m.toBytes = 18 :: 32 :: m.hash := by
    rw [Multihash.toBytes_eq, h, hlen]
    rfl
  have hnew : Multihash.new .sha2_256 m.hash = .ok m := by
    rw [← h]
    exact m.new_of_valid
  have hdecode : Multihash.decode (18 :: 32 :: m.hash) = .ok m := hnew
  rw [hbytes, cast, if_pos ⟨by simp [hlen], rfl, rfl⟩, hdecode]
  rfl

theorem cast_toBytes_iff {c : Cid} : cast c.toBytes = .ok c ↔ c.Written := by
  constructor
  · intro h
    cases hv : c.version with
    | v1 => exact .inl hv
    | v0 =>
        have hbytes : c.toBytes = c.multihash.toBytes := by rw [toBytes, hv]
        rw [hbytes] at h
        rcases cast_eq_ok h with ⟨-, -, hlen, h0, -⟩ | ⟨rest, hform⟩
        · have htype : c.multihash.hashType = .sha2_256 := by
            rw [Multihash.toBytes_eq, List.getElem?_cons_zero, Option.some.injEq] at h0
            revert h0
            cases c.multihash.hashType <;> decide
          rw [cast_multihash htype] at h
          exact .inr ⟨(congrArg codec (Except.ok.inj h)).symm, htype⟩
        · -- the bytes of the multihash cannot be the end of themselves
          have hlength := congrArg List.length hform
          have hpos : 0 < (putUvarint (versionNumber c.version)).length := by
            cases c.version <;> decide
          simp only [List.length_append] at hlength
          omega
  · rintro (hv | ⟨hcodec, htype⟩)
    · exact cast_toBytes hv
    · cases hv : c.version with
      | v1 => exact cast_toBytes hv
      | v0 =>
          have hbytes : c.toBytes = c.multihash.toBytes := by rw [toBytes, hv]
          rw [hbytes, cast_multihash htype, ← hv, ← hcodec]

end Cid

/-! ## Keys -/

theorem PublicKeyHash.encodable_iff (k : PublicKeyHash) : k.Encodable ↔ k.target.Written := by
  rw [← Cid.cast_toBytes_iff, Encodable]
  cases Cid.cast k.target.toBytes <;> simp [Except.toOption]

theorem PublicKeyHash.fromCbor_toCbor_iff {k : PublicKeyHash} :
    fromCbor k.toCbor = .ok k ↔ k.Encodable := by
  refine ⟨fun h => ?_, fromCbor_toCbor⟩
  simp only [fromCbor, toCbor, CborObject.asLink] at h
  obtain ⟨cid, hcid, hnew⟩ := bind_eq_ok.1 h
  unfold new at hnew
  split at hnew
  · cases hnew
    rw [Encodable]
    cases hcast : Cid.cast cid.toBytes with
    | error e =>
        rw [hcast] at hcid
        cases hcid
    | ok c =>
        rw [hcast] at hcid
        cases hcid
        rfl
  · cases hnew

theorem SymmetricKey.fromCbor_toCbor_iff {k : SymmetricKey} :
    fromCbor k.toCbor = .ok k ↔ k.key.length = 32 := by
  refine ⟨fun h => ?_, fromCbor_toCbor⟩
  simp only [fromCbor, toCbor, CborObject.asList, List.getElem?_cons_succ,
    List.getElem?_cons_zero, Option.bind_some, CborObject.asBytes, new] at h
  split at h
  · assumption
  · cases h

/-! ## Capabilities -/

/-- A list of records reads back exactly when each of them does. -/
theorem mapM_map_iff {α β : Type} {read : β → Result α} {write : α → β} {l : List α} :
    (l.map write).mapM read = .ok l ↔ ∀ a ∈ l, read (write a) = .ok a := by
  refine ⟨fun h => ?_, mapM_map_eq_ok⟩
  induction l with
  | nil => simp
  | cons a l ih =>
      rw [List.map_cons, List.mapM_cons] at h
      obtain ⟨a', ha, h⟩ := bind_eq_ok.1 h
      obtain ⟨l', hl, h⟩ := bind_eq_ok.1 h
      cases h
      exact List.forall_mem_cons.2 ⟨ha, ih hl⟩

namespace AbsoluteCapability

/-- A field that may be absent reads back exactly when its value does. -/
theorem optional_iff {α : Type} {cbor : CborObject} {field : String} {a : Option α}
    {write : α → CborObject} {read : CborObject → Result α} (hget : cbor.get field = a.map write) :
    optional cbor field read = .ok a ↔ ∀ x ∈ a, read (write x) = .ok x := by
  refine ⟨fun h => ?_, optional_of_map hget⟩
  cases a with
  | none => simp
  | some x =>
      simp only [optional, hget, Option.map_some] at h
      obtain ⟨y, hy, h⟩ := bind_eq_ok.1 h
      cases h
      rintro z ⟨⟩
      exact hy

theorem fromCbor_toCbor_iff {c : AbsoluteCapability} : fromCbor c.toCbor = .ok c ↔ c.Encodable := by
  refine ⟨fun h => ?_, fromCbor_toCbor⟩
  have ho : c.toCbor.get "o" = some c.owner.toCbor := by simp [get_toCbor]
  have hw : c.toCbor.get "w" = some c.writer.toCbor := by simp [get_toCbor]
  have hm : c.toCbor.get "m" = some (.byteString c.mapKey) := by simp [get_toCbor]
  have hk : c.toCbor.get "k" = some c.rBaseKey.toCbor := by simp [get_toCbor]
  simp only [fromCbor, required, ho, hw, hm, hk, ok_bind, Option.bind_some,
    CborObject.asBytes] at h
  obtain ⟨owner, howner, h⟩ := bind_eq_ok.1 h
  obtain ⟨writer, hwriter, h⟩ := bind_eq_ok.1 h
  obtain ⟨bat, -, h⟩ := bind_eq_ok.1 h
  obtain ⟨rKey, hrKey, h⟩ := bind_eq_ok.1 h
  obtain ⟨wKey, hwKey, h⟩ := bind_eq_ok.1 h
  rw [AbsoluteCapability.new, dif_pos c.mapKey_length] at h
  have heq := Except.ok.inj h
  obtain rfl : owner = c.owner := congrArg AbsoluteCapability.owner heq
  obtain rfl : writer = c.writer := congrArg AbsoluteCapability.writer heq
  obtain rfl : rKey = c.rBaseKey := congrArg AbsoluteCapability.rBaseKey heq
  obtain rfl : wKey = c.wBaseKey := congrArg AbsoluteCapability.wBaseKey heq
  exact ⟨PublicKeyHash.fromCbor_toCbor_iff.1 howner, PublicKeyHash.fromCbor_toCbor_iff.1 hwriter,
    SymmetricKey.fromCbor_toCbor_iff.1 hrKey, fun k hkmem =>
      SymmetricKey.fromCbor_toCbor_iff.1 ((optional_iff c.get_wBaseKey).1 hwKey k hkmem)⟩

/-- The lengths the code checks wherever it makes a key. -/
def KeysFit (c : AbsoluteCapability) : Prop :=
  c.rBaseKey.key.length = 32 ∧ ∀ k ∈ c.wBaseKey, k.key.length = 32

theorem encodable_iff (c : AbsoluteCapability) (h : c.KeysFit) :
    c.Encodable ↔ c.owner.target.Written ∧ c.writer.target.Written := by
  rw [← PublicKeyHash.encodable_iff, ← PublicKeyHash.encodable_iff]
  exact ⟨fun he => ⟨he.owner, he.writer⟩, fun he => ⟨he.1, he.2, h.1, h.2⟩⟩

end AbsoluteCapability

end Peergos
