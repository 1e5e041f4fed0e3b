import PeergosClient.Core.Multiformats

/-!
# The bytes a CID is read from

Reading a varint takes only the shortest form, so what was read can be written again and gives the
same bytes.  The same holds of a multihash read by its varints.  `Multihash::decode` takes one byte
for a length that can need two, though, and `Cid::cast` neither looks at what follows the multihash
nor refuses a version of zero written as a varint.
-/

namespace Peergos

/-- A parse step that succeeded, and what it handed on. -/
theorem parse_bind_eq_ok {α β : Type} {x : Except MfError α} {f : α → Except MfError β} {b : β}
    (h : (x >>= f) = .ok b) : ∃ a, x = .ok a ∧ f a = .ok b := by
  cases x with
  | error e => cases h
  | ok a => exact ⟨a, rfl, h⟩

/-! ## Varints -/

/-- What is read after `s` bits was written as a number that ends the varint: the induction is on
the groups there is still room for. -/
theorem readUvarintLoop_eq_ok {n s acc x : ℕ} {buf rest : Bytes}
    (h : readUvarintLoop (n + 1) s acc buf = .ok (x, rest)) :
    ∃ v, x = acc ||| v <<< s ∧ buf = putUvarintLoop n v ++ rest ∧ v < 2 ^ (7 * n + 1) ∧
      (s = 0 ∨ 0 < v) := by
  induction n generalizing s acc buf with
  | zero =>
      cases buf with
      | nil => cases h
      | cons b buf =>
          rw [readUvarintLoop] at h
          split_ifs at h with hlow hover hzero
          · cases h
            have hb : UInt8.ofNat b.toNat = b := UInt8.ofNat_toNat
            exact ⟨b.toNat, rfl, by rw [putUvarintLoop, hb]; rfl, by omega, by omega⟩
          · cases h
  | succ n ih =>
      cases buf with
      | nil => cases h
      | cons b buf =>
          rw [readUvarintLoop] at h
          split_ifs at h with hlow hover hzero
          · cases h
            have hb : UInt8.ofNat b.toNat = b := UInt8.ofNat_toNat
            have hpow : 2 ^ 7 ≤ 2 ^ (7 * (n + 1) + 1) :=
              Nat.pow_le_pow_right (by norm_num) (by omega)
            have hbound : b.toNat < 2 ^ (7 * (n + 1) + 1) := hlow.trans_le hpow
            refine ⟨b.toNat, rfl, ?_, hbound, by omega⟩
            rw [putUvarintLoop, if_neg (by omega), hb]
            rfl
          · obtain ⟨v, rfl, rfl, hv, hpos⟩ := ih h
            have hand : b.toNat &&& 0x7f = b.toNat % 128 := Nat.and_two_pow_sub_one_eq_mod _ 7
            have hbyte := b.toNat_lt
            have hmod : (b.toNat % 128 + 128 * v) % 128 = b.toNat % 128 := by omega
            have hdiv : (b.toNat % 128 + 128 * v) >>> 7 = v := by
              rw [Nat.shiftRight_eq_div_pow]
              omega
            refine ⟨b.toNat % 128 + 128 * v, ?_, ?_, ?_, Or.inr (by omega)⟩
            · rw [← groups_or (b.toNat % 128 + 128 * v) s, hmod, hdiv, hand, Nat.or_assoc]
            · have hhead : UInt8.ofNat (b.toNat % 128 + 128 * v) ||| 0x80 = b := by
                rw [← UInt8.toNat_inj, toNat_ofNat_or, hmod]
                omega
              rw [putUvarintLoop, if_pos (by omega), hhead, hdiv]
              rfl
            · rw [show 7 * (n + 1) + 1 = 7 * n + 1 + 7 by ring, pow_add]
              omega

/-- A varint that was read is the one that is written. -/
theorem readUvarint_eq_ok {x : ℕ} {buf rest : Bytes} (h : readUvarint buf = .ok (x, rest)) :
    buf = putUvarint x ++ rest := by
  obtain ⟨v, rfl, rfl, -⟩ := readUvarintLoop_eq_ok h
  simp [putUvarint]

/-! ## Multihashes -/

theorem MultihashType.index_of_lookup {t : ℕ} {ty : MultihashType} (h : lookup t = .ok ty) :
    ty.index = t := by
  unfold lookup at h
  split_ifs at h <;> cases h <;> simp_all [index]

namespace Multihash

theorem parts_of_new {t : MultihashType} {hash : Bytes} {m : Multihash} (h : new t hash = .ok m) :
    m.hashType = t ∧ m.hash = hash := by
  unfold new at h
  split at h
  · cases h
  · cases h
    exact ⟨rfl, rfl⟩

/-- A multihash that was read is the one that is written. -/
theorem deserialize_eq_ok {buf rest : Bytes} {m : Multihash} (h : deserialize buf = .ok (m, rest)) :
    buf = m.toBytes ++ rest := by
  unfold deserialize at h
  obtain ⟨⟨t, buf₁⟩, ht, h⟩ := parse_bind_eq_ok h
  obtain ⟨⟨len, buf₂⟩, hlen, h⟩ := parse_bind_eq_ok h
  obtain ⟨ty, hty, h⟩ := parse_bind_eq_ok h
  split at h
  · rename_i hle
    obtain ⟨m', hnew, h⟩ := parse_bind_eq_ok h
    cases h
    obtain ⟨htype, hhash⟩ := parts_of_new hnew
    rw [readUvarint_eq_ok ht, readUvarint_eq_ok hlen, toBytes, htype,
      MultihashType.index_of_lookup hty, hhash, List.length_take, Nat.min_eq_left hle,
      List.append_assoc, List.append_assoc, List.take_append_drop]
  · cases h

theorem toBytes_eq (m : Multihash) :
    m.toBytes = UInt8.ofNat m.hashType.index :: (putUvarint m.hash.length ++ m.hash) := by
  have htype : putUvarint m.hashType.index = [UInt8.ofNat m.hashType.index] := by
    cases m.hashType <;> rfl
  rw [toBytes, htype, List.append_assoc]
  rfl

theorem lookup_toNat (t : MultihashType) :
    MultihashType.lookup (UInt8.ofNat t.index).toNat = .ok t := by
  cases t <;> rfl

/-- `decode` takes the length to be one byte, so from 128 bytes on the digest it returns starts
with a part of the length. -/
theorem decode_toBytes (m : Multihash) : decode m.toBytes = .ok m ↔ m.hash.length < 128 := by
  rw [toBytes_eq]
  by_cases hlen : m.hash.length < 128
  · have hone : putUvarint m.hash.length = [UInt8.ofNat m.hash.length] := by
      rw [putUvarint, putUvarintLoop, if_neg (by omega)]
    refine ⟨fun _ => hlen, fun _ => ?_⟩
    simp only [hone, decode, lookup_toNat, List.cons_append, List.nil_append, bind, Except.bind]
    exact new_of_valid m
  · have hmore : putUvarint m.hash.length
        = (UInt8.ofNat m.hash.length ||| 0x80) :: putUvarintLoop 8 (m.hash.length >>> 7) := by
      rw [putUvarint, putUvarintLoop, if_pos (by omega)]
    have hpos : 0 < (putUvarintLoop 8 (m.hash.length >>> 7)).length := by
      rw [putUvarintLoop]
      split <;> simp
    refine ⟨fun h => ?_, fun h => absurd h hlen⟩
    simp only [hmore, decode, lookup_toNat, List.cons_append, bind, Except.bind] at h
    have hlong := congrArg List.length (parts_of_new h).2
    rw [List.length_append] at hlong
    omega

end Multihash

/-! ## CIDs -/

namespace Cid

/-- The bytes after the digest of a binary CID, by the length written before the digest. -/
def trailing (data : Bytes) : Except MfError ℕ := do
  let (_, data) ← readUvarint data
  let (_, data) ← readUvarint data
  let (_, data) ← readUvarint data
  let (len, data) ← readUvarint data
  .ok (data.length - len)

/-- The binary forms `to_bytes` writes: the 34 bytes of a version 0 CID, or version 1 with nothing
after the digest. -/
def IsCanonical (data : Bytes) : Prop :=
  (data.length = 34 ∧ data[0]? = some 18 ∧ data[1]? = some 32) ∨
    (data[0]? = some 1 ∧ trailing data = .ok 0)

theorem codec_of_lookup {n : ℕ} {codec : Codec} (h : Codec.lookup n = .ok codec) :
    codec.code = n := by
  unfold Codec.lookup at h
  split_ifs at h <;> cases h <;> simp_all [Codec.code]

/-- The number that stands for a version. -/
def versionNumber : CidVersion → ℕ
  | .v0 => 0
  | .v1 => 1

theorem afterVersion_eq_ok {data : Bytes} {version : CidVersion} {c : Cid}
    (h : (do
      let (codec, data) ← readUvarint data
      let (hash, _) ← Multihash.deserialize data
      let codec ← Codec.lookup codec
      .ok (Cid.mk version codec hash)) = Except.ok c) :
    ∃ rest, c.version = version ∧
      data = putUvarint c.codec.code ++ (c.multihash.toBytes ++ rest) := by
  obtain ⟨⟨k, data₁⟩, hk, h⟩ := parse_bind_eq_ok h
  obtain ⟨⟨m, rest⟩, hm, h⟩ := parse_bind_eq_ok h
  obtain ⟨codec, hcodec, h⟩ := parse_bind_eq_ok h
  cases h
  refine ⟨rest, rfl, ?_⟩
  rw [readUvarint_eq_ok hk, codec_of_lookup hcodec]
  exact congrArg _ (Multihash.deserialize_eq_ok hm)

/-- What `cast` accepts, and what it makes of it. -/
theorem cast_eq_ok {data : Bytes} {c : Cid} (h : cast data = .ok c) :
    (c.version = .v0 ∧ data = c.multihash.toBytes ∧
        data.length = 34 ∧ data[0]? = some 18 ∧ data[1]? = some 32) ∨
      ∃ rest, data = putUvarint (versionNumber c.version) ++ (putUvarint c.codec.code ++
        (c.multihash.toBytes ++ rest)) := by
  unfold cast at h
  split_ifs at h with hform
  · obtain ⟨hlen, h0, h1⟩ := hform
    obtain ⟨m, hm, h⟩ := parse_bind_eq_ok h
    cases h
    obtain ⟨x, y, hash, rfl⟩ : ∃ x y hash, data = x :: y :: hash := by
      match data, hlen with
      | x :: y :: hash, _ => exact ⟨x, y, hash, rfl⟩
    obtain rfl : x = 18 := by simpa using h0
    obtain rfl : y = 32 := by simpa using h1
    have hhash : hash.length = 32 := by simpa using hlen
    obtain ⟨ty, hty, hnew⟩ := parse_bind_eq_ok hm
    cases hty
    obtain ⟨htype, rfl⟩ := Multihash.parts_of_new hnew
    refine Or.inl ⟨rfl, ?_, hlen, h0, h1⟩
    rw [Multihash.toBytes_eq, htype, hhash]
    rfl
  · obtain ⟨⟨n, data₁⟩, hn, h⟩ := parse_bind_eq_ok h
    rw [readUvarint_eq_ok hn]
    dsimp only at h
    split_ifs at h with h0 h1
    · obtain ⟨rest, hv, hrest⟩ := afterVersion_eq_ok h
      exact Or.inr ⟨rest, by rw [hrest, hv, h0]; rfl⟩
    · obtain ⟨rest, hv, hrest⟩ := afterVersion_eq_ok h
      exact Or.inr ⟨rest, by rw [hrest, hv, h1]; rfl⟩
    · cases h

/-- The version number is the first byte of the varint form. -/
theorem getElem?_versionNumber (v : CidVersion) (rest : Bytes) :
    (putUvarint (versionNumber v) ++ rest)[0]? = some (UInt8.ofNat (versionNumber v)) := by
  cases v <;> rfl

theorem trailing_eq (v : CidVersion) (codec : Codec) (m : Multihash) (rest : Bytes) :
    trailing (putUvarint (versionNumber v) ++ (putUvarint codec.code ++ (m.toBytes ++ rest)))
      = .ok rest.length := by
  have hv : versionNumber v < 2 ^ 64 := by cases v <;> decide
  have hc : codec.code < 2 ^ 64 := by cases codec <;> decide
  have ht : m.hashType.index < 2 ^ 64 := by cases m.hashType <;> decide
  have hl : m.hash.length < 2 ^ 64 := by
    have := m.length_le
    unfold legacyMaxIdentityHashSize at this
    omega
  unfold trailing Multihash.toBytes
  simp only [List.append_assoc, readUvarint_putUvarint hv, readUvarint_putUvarint hc,
    readUvarint_putUvarint ht, readUvarint_putUvarint hl, bind, Except.bind, List.length_append]
  rw [Nat.add_sub_cancel_left]

/-- An accepted byte string is written again exactly when it is one of the forms that are
written. -/
theorem toBytes_of_cast {data : Bytes} {c : Cid} (h : cast data = .ok c) :
    c.toBytes = data ↔ IsCanonical data := by
  rcases cast_eq_ok h with ⟨hv, hdata, hform⟩ | ⟨rest, rfl⟩
  · refine ⟨fun _ => Or.inl hform, fun _ => ?_⟩
    rw [hdata, toBytes, hv]
  · have hsmall : UInt8.ofNat (versionNumber c.version) ≠ 18 := by cases c.version <;> decide
    simp only [IsCanonical, getElem?_versionNumber, Option.some.injEq, hsmall, false_and, and_false,
      false_or, trailing_eq, Except.ok.injEq]
    cases hv : c.version with
    | v0 =>
        refine ⟨fun heq => ?_, fun hone => absurd hone.1 (by decide)⟩
        have hlength := congrArg List.length heq
        have hzero : (putUvarint (versionNumber .v0)).length = 1 := rfl
        simp only [toBytes, hv, List.length_append, hzero] at hlength
        omega
    | v1 =>
        rw [toBytes, hv, List.append_assoc]
        refine ⟨fun heq => ⟨rfl, ?_⟩, fun hone => ?_⟩
        · have hlength := congrArg List.length heq
          simp only [List.length_append, versionNumber] at hlength
          omega
        · rw [List.length_eq_zero_iff.1 hone.2, List.append_nil]
          rfl

end Cid

/-- Reading back what was written: a multihash through `decode` when its digest is shorter than 128
bytes, an accepted CID when its bytes are of the form `to_bytes` gives, and then it has no other
bytes of that form. -/
theorem parsing_strict_iff (h : Multihash) {data : Bytes} {c : Cid} (hc : Cid.cast data = .ok c) :
    (Multihash.decode h.toBytes = .ok h ↔ h.hash.length < 128) ∧
      (c.toBytes = data ↔ Cid.IsCanonical data) ∧
      (Cid.IsCanonical data → ∀ data', Cid.IsCanonical data' → Cid.cast data' = .ok c →
        data' = data) := by
  refine ⟨h.decode_toBytes, Cid.toBytes_of_cast hc, fun hcan data' hcan' hc' => ?_⟩
  rw [← (Cid.toBytes_of_cast hc).2 hcan, (Cid.toBytes_of_cast hc').2 hcan']

/-- An identity hash of 128 bytes. -/
def longIdentity : Multihash := ⟨.id, List.replicate 128 0, by
  simp [multihashRefusal, legacyMaxIdentityHashSize, MultihashType.length]⟩

/-- A version 1 raw CID of an empty identity hash. -/
theorem parsing_strict_iff_empty :
    (Multihash.decode longIdentity.toBytes = .ok longIdentity ↔ longIdentity.hash.length < 128) ∧
      (Cid.toBytes ⟨.v1, .raw, ⟨.id, [], rfl⟩⟩ = [1, 0x55, 0, 0] ↔
        Cid.IsCanonical [1, 0x55, 0, 0]) ∧
      (Cid.IsCanonical [1, 0x55, 0, 0] → ∀ data', Cid.IsCanonical data' →
        Cid.cast data' = .ok ⟨.v1, .raw, ⟨.id, [], rfl⟩⟩ → data' = [1, 0x55, 0, 0]) :=
  parsing_strict_iff longIdentity (by decide)

/-- An identity hash of 128 bytes is read back with a byte of its length before the digest, a byte
after a CID is dropped, and the version 0 form with a codec shares its bytes with nothing that is
written. -/
theorem parsing_not_strict :
    Multihash.decode longIdentity.toBytes ≠ .ok longIdentity ∧
      Cid.cast [1, 0x55, 0, 0, 7] = Cid.cast [1, 0x55, 0, 0] ∧
      (Cid.cast [1, 0x55, 0, 0, 7]).toOption.map Cid.toBytes = some [1, 0x55, 0, 0] ∧
      (Cid.cast [0, 0x55, 0, 0]).toOption.map Cid.toBytes = some [0, 0] := by
  refine ⟨fun h => ?_, ?_, ?_, ?_⟩
  · exact absurd (longIdentity.decode_toBytes.1 h) (by simp [longIdentity])
  · rfl
  · rfl
  · rfl

end Peergos
