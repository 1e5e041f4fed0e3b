import PeergosClient.Cbor.Decode

/-!
# Encoded values are read back

A decoder that is given the encoding of a value, followed by whatever else, returns the value and
what follows.  So a stream of encodings can be taken apart again.
-/

namespace Peergos

namespace CborObject

/-! ## Headers -/

/-- The first byte of an encoding: the major type and the additional information. -/
theorem header_parts {m x : ℕ} (hm : m < 8) (hx : x < 32) :
    ((UInt8.ofNat m <<< 5 ||| UInt8.ofNat x) >>> 5 = UInt8.ofNat m) ∧
      (((UInt8.ofNat m <<< 5 ||| UInt8.ofNat x) >>> 5) &&& 0x07 = UInt8.ofNat m) ∧
      ((UInt8.ofNat m <<< 5 ||| UInt8.ofNat x) &&& 0x1f = UInt8.ofNat x) := by
  have h : ∀ m < 8, ∀ x < 32,
      ((UInt8.ofNat m <<< 5 ||| UInt8.ofNat x) >>> 5 = UInt8.ofNat m) ∧
      (((UInt8.ofNat m <<< 5 ||| UInt8.ofNat x) >>> 5) &&& 0x07 = UInt8.ofNat m) ∧
      ((UInt8.ofNat m <<< 5 ||| UInt8.ofNat x) &&& 0x1f = UInt8.ofNat x) := by decide
  exact h m hm x hx

/-- Reading as many bytes as there are at hand. -/
theorem readN_append (b rest : Bytes) : readN b.length (b ++ rest) = .ok (b, rest) := by
  unfold readN
  rw [if_pos (by rw [List.length_append]; omega), List.take_left, List.drop_left]

/-- A number in bytes of its own. -/
theorem readUint_bytes {x : UInt8} (tail rest : Bytes)
    (hx : ∀ buf, readUint x buf = do
      let (b, buf) ← readN tail.length buf
      .ok (bigEndian b, buf)) :
    readUint x (tail ++ rest) = .ok (bigEndian tail, rest) := by
  rw [hx, readN_append]
  rfl

/-- A length or value is written as one byte with five bits of it and the bytes it takes. -/
theorem writeUint_eq {n : ℕ} (hn : n < 2 ^ 64) :
    ∃ x tail, x < 32 ∧ (∀ mt, writeUint mt n = (mt ||| UInt8.ofNat x) :: tail) ∧
      ∀ rest, readUint (UInt8.ofNat x) (tail ++ rest) = .ok (n, rest) := by
  have hbyte : ∀ k, (UInt8.ofNat k).toNat = k % 256 := fun k => UInt8.toNat_ofNat'
  unfold writeUint
  by_cases h8 : n < 0x18
  · refine ⟨n, [], by omega, fun mt => if_pos h8, fun rest => ?_⟩
    have hlt : UInt8.ofNat n < 0x18 := by
      rw [UInt8.lt_iff_toNat_lt, hbyte]
      exact (Nat.mod_le n 256).trans_lt h8
    rw [readUint, if_pos hlt, hbyte, Nat.mod_eq_of_lt (by omega)]
    rfl
  · by_cases h1 : n < 0x100
    · refine ⟨0x18, [UInt8.ofNat n], by omega, fun mt => by rw [if_neg h8, if_pos h1]; rfl,
        fun rest => ?_⟩
      change (Except.ok ((UInt8.ofNat n).toNat, rest) : Except CborError _) = _
      rw [hbyte, Nat.mod_eq_of_lt h1]
    · by_cases h2 : n < 0x10000
      · refine ⟨0x19, _, by omega, fun mt => by rw [if_neg h8, if_neg h1, if_pos h2]; rfl,
          fun rest => (readUint_bytes _ rest fun _ => rfl).trans ?_⟩
        simp only [bigEndian, List.foldl_cons, List.foldl_nil, hbyte, Nat.shiftRight_eq_div_pow]
        congr 2
        omega
      · by_cases h4 : n < 0x100000000
        · refine ⟨0x1a, _, by omega,
            fun mt => by rw [if_neg h8, if_neg h1, if_neg h2, if_pos h4]; rfl,
            fun rest => (readUint_bytes _ rest fun _ => rfl).trans ?_⟩
          simp only [bigEndian, List.foldl_cons, List.foldl_nil, hbyte, Nat.shiftRight_eq_div_pow]
          congr 2
          omega
        · refine ⟨0x1b, _, by omega,
            fun mt => by rw [if_neg h8, if_neg h1, if_neg h2, if_neg h4]; rfl,
            fun rest => (readUint_bytes _ rest fun _ => rfl).trans ?_⟩
          simp only [bigEndian, List.foldl_cons, List.foldl_nil, hbyte, Nat.shiftRight_eq_div_pow]
          congr 2
          omega

/-- A header is read back. -/
theorem writeType_eq {m n : ℕ} (hm : m < 8) (hn : n < 2 ^ 64) (rest : Bytes) :
    peekMajor (writeType (UInt8.ofNat m) n ++ rest) = .ok (UInt8.ofNat m) ∧
      readMajorTypeWithSize (UInt8.ofNat m) (writeType (UInt8.ofNat m) n ++ rest) =
        .ok (n, rest) := by
  obtain ⟨x, tail, hx, hwrite, hread⟩ := writeUint_eq hn
  obtain ⟨hmajor, hmajor', hinfo⟩ := header_parts hm hx
  rw [writeType, hwrite, List.cons_append]
  refine ⟨congrArg Except.ok hmajor, ?_⟩
  simp only [readMajorTypeWithSize, readMajorType, readU8, bind, Except.bind, hmajor', ne_eq,
    not_true_eq_false, if_false, hinfo, hread]

/-! ## Integers -/

/-- The arithmetic shift leaves the sign in every bit. -/
theorem shiftRight_sign (v : Int64) : v >>> 63 = if v < 0 then -1 else 0 := by
  have h : (v >>> 63).toInt = v.toInt / 2 ^ 63 := by
    have hshift : (v >>> 63).toBitVec = v.toBitVec.sshiftRight 63 := Int64.toBitVec_shiftRight v 63
    rw [← Int64.toInt_toBitVec, hshift, BitVec.toInt_sshiftRight, Int.shiftRight_eq_div_pow]
    rfl
  have hlo : -2 ^ 63 ≤ v.toInt := Int64.le_toInt v
  have hhi : v.toInt < 2 ^ 63 := Int64.toInt_lt v
  have hneg : v < 0 ↔ v.toInt < 0 := Int64.lt_iff_toInt_lt
  apply Int64.toInt_inj.1
  rw [h]
  by_cases hv : v < 0
  · have := hneg.1 hv
    rw [if_pos hv, show (-1 : Int64).toInt = -1 from rfl]
    omega
  · have : ¬v.toInt < 0 := fun h => hv (hneg.2 h)
    rw [if_neg hv, show (0 : Int64).toInt = 0 from rfl]
    omega

/-- A number is written by its sign and the magnitude of its ones' complement. -/
theorem writeInt_eq (v : Int64) :
    ∃ m x tail, m < 2 ∧ x < 32 ∧
      writeInt v = (UInt8.ofNat m <<< 5 ||| UInt8.ofNat x) :: tail ∧
      ∀ rest, readUint (UInt8.ofNat x) (tail ++ rest) =
        .ok (((if m = 0 then 0 else -1) ^^^ v : Int64).toUInt64.toNat, rest) := by
  unfold writeInt
  rw [shiftRight_sign]
  by_cases hv : v < 0
  · obtain ⟨x, tail, hx, hwrite, hread⟩ := writeUint_eq (UInt64.toNat_lt ((-1) ^^^ v).toUInt64)
    refine ⟨1, x, tail, by omega, hx, ?_, hread⟩
    simp only [if_pos hv, hwrite]
    rfl
  · obtain ⟨x, tail, hx, hwrite, hread⟩ := writeUint_eq (UInt64.toNat_lt (0 ^^^ v).toUInt64)
    refine ⟨0, x, tail, by omega, hx, ?_, hread⟩
    simp only [if_neg hv, hwrite]
    rfl

/-- A number is read back. -/
theorem readInt_writeInt (v : Int64) (rest : Bytes) :
    (∃ m : ℕ, m < 2 ∧ peekMajor (writeInt v ++ rest) = .ok (UInt8.ofNat m)) ∧
      readInt (writeInt v ++ rest) = .ok (v, rest) := by
  obtain ⟨m, x, tail, hm, hx, hwrite, hread⟩ := writeInt_eq v
  obtain ⟨hmajor, -, hinfo⟩ := header_parts (show m < 8 by omega) hx
  rw [hwrite, List.cons_append]
  refine ⟨⟨m, hm, congrArg Except.ok hmajor⟩, ?_⟩
  simp only [readInt, readU8, bind, Except.bind, hmajor, hinfo, hread, UInt64.ofNat_toNat]
  obtain rfl | rfl : m = 0 ∨ m = 1 := by omega
  · simp
  · simp

/-! ## Keys in order -/

theorem cborStringCmp_swap {a b : String} (h : cborStringCmp a b = .lt) :
    cborStringCmp b a = .gt := by
  unfold cborStringCmp at h ⊢
  rw [Std.OrientedOrd.eq_swap (a := (utf16 b).length), Std.OrientedOrd.eq_swap (a := utf16 b),
    ← Ordering.swap_then, h]
  rfl

/-- An entry with the greatest key goes to the end. -/
theorem mapInsert_of_forall_lt {k : String} {v : CborObject} {entries : List (String × CborObject)}
    (h : ∀ e ∈ entries, cborStringCmp e.1 k = .lt) : mapInsert k v entries = entries ++ [(k, v)] := by
  induction entries with
  | nil => rfl
  | cons e entries ih =>
      have he := cborStringCmp_swap (h e List.mem_cons_self)
      rw [mapInsert, he]
      exact congrArg (e :: ·) (ih fun e' he' => h e' (List.mem_cons_of_mem _ he'))

/-! ## Values -/

/-- The keys of an encoded map, as a `BTreeMap` holds them. -/
def KeysAscend (entries : List (String × CborObject)) : Prop :=
  entries.Pairwise fun a b => cborStringCmp a.1 b.1 = .lt

mutual

/-- The maps of a value have their keys in order: it is a value `CborObject` can hold. -/
def Ordered : CborObject → Prop
  | list items => OrderedItems items
  | map entries => KeysAscend entries ∧ OrderedEntries entries
  | _ => True

def OrderedItems : List CborObject → Prop
  | [] => True
  | item :: items => Ordered item ∧ OrderedItems items

def OrderedEntries : List (String × CborObject) → Prop
  | [] => True
  | (_, v) :: entries => Ordered v ∧ OrderedEntries entries

end

theorem length_writeType_pos (m : UInt8) (n : ℕ) : 0 < (writeType m n).length := by
  unfold writeType writeUint
  split_ifs <;> exact Nat.succ_pos _

theorem length_toBytes_pos (v : CborObject) : 0 < v.toBytes.length := by
  cases v with
  | long n =>
      obtain ⟨m, x, tail, -, -, hwrite, -⟩ := writeInt_eq n
      rw [toBytes, hwrite]
      exact Nat.succ_pos _
  | boolean b => exact Nat.succ_pos _
  | null => exact Nat.succ_pos _
  | byteString b =>
      rw [toBytes, writeString, List.length_append]
      exact Nat.add_pos_left (length_writeType_pos _ _) _
  | str t =>
      rw [toBytes, writeString, List.length_append]
      exact Nat.add_pos_left (length_writeType_pos _ _) _
  | list items =>
      rw [toBytes, List.length_append]
      exact Nat.add_pos_left (length_writeType_pos _ _) _
  | map entries =>
      rw [toBytes, List.length_append]
      exact Nat.add_pos_left (length_writeType_pos _ _) _
  | merkleLink cid =>
      rw [toBytes, List.length_append]
      exact Nat.add_pos_left (length_writeType_pos _ _) _

theorem length_le_listBytes (items : List CborObject) : items.length ≤ (listBytes items).length := by
  induction items with
  | nil => exact le_rfl
  | cons v items ih =>
      have := length_toBytes_pos v
      rw [listBytes, List.length_append, List.length_cons]
      omega

theorem length_le_entriesBytes (entries : List (String × CborObject)) :
    entries.length ≤ (entriesBytes entries).length := by
  induction entries with
  | nil => exact le_rfl
  | cons e entries ih =>
      have := length_toBytes_pos e.2
      rw [entriesBytes, List.length_append, List.length_append, List.length_cons]
      omega

theorem fromUTF8_utf8 (t : String) : String.fromUTF8? ⟨(utf8 t).toArray⟩ = some t := by
  have h : (⟨(utf8 t).toArray⟩ : ByteArray) = t.toUTF8 := by rw [utf8, Array.toArray_toList]
  rw [h, String.fromUTF8?, String.toUTF8_eq_toByteArray, dif_pos t.isValidUTF8]
  rfl

section Values

variable {depth max : ℕ}

/-- The elements of an array are read back, if each of them is. -/
theorem readItems_listBytes {items : List CborObject}
    (h : ∀ v ∈ items, ∀ rest, deserialize depth max (v.toBytes ++ rest) = .ok (v, rest))
    (rest : Bytes) :
    readItems (deserialize depth max) items.length (listBytes items ++ rest) = .ok (items, rest) := by
  induction items with
  | nil => rfl
  | cons v items ih =>
      have hv := h v List.mem_cons_self (listBytes items ++ rest)
      have hitems := ih fun v hv => h v (List.mem_cons_of_mem _ hv)
      simp only [List.length_cons, readItems, listBytes, List.append_assoc, hv, bind, Except.bind,
        hitems]

variable (hmax : max < 2 ^ 64)

include hmax

/-- A text is read back. -/
theorem deserialize_str {t : String} (hlen : (utf8 t).length ≤ max) (rest : Bytes) :
    deserialize (depth + 1) max ((str t).toBytes ++ rest) = .ok (str t, rest) := by
  obtain ⟨hmajor, hsize⟩ := writeType_eq (show 3 < 8 by decide) (hlen.trans_lt hmax)
    (utf8 t ++ rest)
  simp only [toBytes, writeString, List.append_assoc]
  simp only [UInt8.reduceOfNat] at hmajor hsize
  simp [deserialize, bind, Except.bind, hmajor, hsize, readN_append, fromUTF8_utf8,
    Nat.not_lt.2 hlen]

/-- A byte string is read back. -/
theorem deserialize_byteString {b : Bytes} (hlen : b.length ≤ max) (rest : Bytes) :
    deserialize (depth + 1) max ((byteString b).toBytes ++ rest) = .ok (byteString b, rest) := by
  obtain ⟨hmajor, hsize⟩ := writeType_eq (show 2 < 8 by decide) (hlen.trans_lt hmax) (b ++ rest)
  simp only [toBytes, writeString, List.append_assoc]
  simp only [UInt8.reduceOfNat] at hmajor hsize
  simp [deserialize, bind, Except.bind, hmajor, hsize, readN_append, Nat.not_lt.2 hlen]

/-- The entries of a map are read back, after those read before them. -/
theorem readEntries_entriesBytes {entries acc : List (String × CborObject)}
    (h : ∀ e ∈ entries, ∀ rest, deserialize (depth + 1) max (e.2.toBytes ++ rest) = .ok (e.2, rest))
    (hlen : (entriesBytes entries).length ≤ max) (hkeys : KeysAscend (acc ++ entries))
    (rest : Bytes) :
    readEntries (deserialize (depth + 1) max) entries.length acc (entriesBytes entries ++ rest) =
      .ok (acc ++ entries, rest) := by
  induction entries generalizing acc with
  | nil =>
      rw [List.append_nil]
      rfl
  | cons e entries ih =>
      obtain ⟨k, v⟩ := e
      rw [entriesBytes, List.length_append, List.length_append, writeString, List.length_append]
        at hlen
      have hkey : deserialize (depth + 1) max
          ((str k).toBytes ++ (v.toBytes ++ (entriesBytes entries ++ rest))) = _ :=
        deserialize_str hmax (by omega) _
      have hv := h (k, v) List.mem_cons_self (entriesBytes entries ++ rest)
      have hlt : ∀ e ∈ acc, cborStringCmp e.1 k = .lt := fun e he =>
        (List.pairwise_append.1 hkeys).2.2 e he (k, v) List.mem_cons_self
      have hnew : (acc.any fun e => e.1 = k) = false := by
        refine List.any_eq_false.2 fun e he => ?_
        have hne := hlt e he
        rintro heq
        rw [cborStringCmp_eq_iff.2 (of_decide_eq_true heq)] at hne
        cases hne
      have hrest := @ih (acc ++ [(k, v)]) (fun e he => h e (List.mem_cons_of_mem _ he))
        (by omega) (by rwa [List.append_assoc])
      simp only [toBytes] at hkey
      simp only [List.length_cons, readEntries, entriesBytes, List.append_assoc, hkey, hv, bind,
        Except.bind, hnew, Bool.false_eq_true, if_false, mapInsert_of_forall_lt hlt]
      rw [hrest, List.append_assoc]
      rfl

end Values

/-- The encoding of a value is read back, whatever follows it. -/
theorem deserialize_encoded : ∀ v : CborObject, v.Ordered → ∀ depth max : ℕ, max < 2 ^ 64 →
    v.toBytes.length ≤ depth → v.toBytes.length ≤ max → ∀ rest,
      deserialize depth max (v.toBytes ++ rest) = .ok (v, rest) := by
  refine @CborObject.rec
    (fun v => v.Ordered → ∀ depth max : ℕ, max < 2 ^ 64 → v.toBytes.length ≤ depth →
      v.toBytes.length ≤ max → ∀ rest, deserialize depth max (v.toBytes ++ rest) = .ok (v, rest))
    (fun items => OrderedItems items → ∀ depth max : ℕ, max < 2 ^ 64 →
      (listBytes items).length ≤ depth → (listBytes items).length ≤ max →
        ∀ v ∈ items, ∀ rest, deserialize depth max (v.toBytes ++ rest) = .ok (v, rest))
    (fun entries => OrderedEntries entries → ∀ depth max : ℕ, max < 2 ^ 64 →
      (entriesBytes entries).length ≤ depth → (entriesBytes entries).length ≤ max →
        ∀ e ∈ entries, ∀ rest, deserialize depth max (e.2.toBytes ++ rest) = .ok (e.2, rest))
    (fun e => e.2.Ordered → ∀ depth max : ℕ, max < 2 ^ 64 → e.2.toBytes.length ≤ depth →
      e.2.toBytes.length ≤ max → ∀ rest,
        deserialize depth max (e.2.toBytes ++ rest) = .ok (e.2, rest))
    ?long ?boolean ?byteString ?str ?list ?map ?merkleLink ?null ?nil ?cons ?enil ?econs ?mk
  case long =>
    intro n _ depth max hmax hdepth _ rest
    obtain ⟨depth, rfl⟩ := Nat.exists_eq_succ_of_ne_zero
      (Nat.ne_of_gt ((length_toBytes_pos (long n)).trans_le hdepth))
    obtain ⟨⟨m, hm, hmajor⟩, hint⟩ := readInt_writeInt n rest
    obtain rfl | rfl : m = 0 ∨ m = 1 := by omega
    · simp only [UInt8.reduceOfNat] at hmajor
      simp [toBytes, deserialize, bind, Except.bind, hmajor, hint]
    · simp only [UInt8.reduceOfNat] at hmajor
      simp [toBytes, deserialize, bind, Except.bind, hmajor, hint]
  case boolean =>
    intro b _ depth max _ hdepth _ rest
    obtain ⟨depth, rfl⟩ := Nat.exists_eq_succ_of_ne_zero
      (Nat.ne_of_gt ((length_toBytes_pos (boolean b)).trans_le hdepth))
    cases b <;> rfl
  case null =>
    intro _ depth max _ hdepth _ rest
    obtain ⟨depth, rfl⟩ := Nat.exists_eq_succ_of_ne_zero
      (Nat.ne_of_gt ((length_toBytes_pos null).trans_le hdepth))
    rfl
  case byteString =>
    intro b _ depth max hmax hdepth hlen rest
    obtain ⟨depth, rfl⟩ := Nat.exists_eq_succ_of_ne_zero
      (Nat.ne_of_gt ((length_toBytes_pos (byteString b)).trans_le hdepth))
    rw [toBytes, writeString, List.length_append] at hlen
    exact deserialize_byteString hmax (by omega) rest
  case str =>
    intro t _ depth max hmax hdepth hlen rest
    obtain ⟨depth, rfl⟩ := Nat.exists_eq_succ_of_ne_zero
      (Nat.ne_of_gt ((length_toBytes_pos (str t)).trans_le hdepth))
    rw [toBytes, writeString, List.length_append] at hlen
    exact deserialize_str hmax (by omega) rest
  case merkleLink =>
    intro cid _ depth max hmax hdepth hlen rest
    have htag := length_writeType_pos 6 42
    have hcid := length_toBytes_pos (byteString (0 :: cid))
    have hbytes : (merkleLink cid).toBytes = writeType 6 42 ++ (byteString (0 :: cid)).toBytes := rfl
    rw [hbytes, List.length_append] at hdepth hlen
    obtain ⟨depth, rfl⟩ := Nat.exists_eq_add_of_le' (show 1 ≤ depth by omega)
    obtain ⟨hmajor, hsize⟩ := writeType_eq (show 6 < 8 by decide) (show 42 < 2 ^ 64 by decide)
      ((byteString (0 :: cid)).toBytes ++ rest)
    simp only [UInt8.reduceOfNat] at hmajor hsize
    have hread : deserialize depth max ((byteString (0 :: cid)).toBytes ++ rest) =
        .ok (byteString (0 :: cid), rest) := by
      obtain ⟨depth, rfl⟩ := Nat.exists_eq_add_of_le' (show 1 ≤ depth by omega)
      rw [toBytes, writeString, List.length_append] at hlen
      exact deserialize_byteString hmax (by omega) rest
    rw [hbytes, List.append_assoc]
    simp [deserialize, bind, Except.bind, hmajor, hsize, hread, linkTarget]
  case list =>
    intro items ih hord depth max hmax hdepth hlen rest
    have hhead := length_writeType_pos 4 items.length
    have hcount := length_le_listBytes items
    rw [toBytes, List.length_append] at hdepth hlen
    obtain ⟨depth, rfl⟩ := Nat.exists_eq_add_of_le' (show 1 ≤ depth by omega)
    have hn : items.length ≤ max := by omega
    obtain ⟨hmajor, hsize⟩ := writeType_eq (show 4 < 8 by decide) (hn.trans_lt hmax)
      (listBytes items ++ rest)
    simp only [UInt8.reduceOfNat] at hmajor hsize
    have hread := readItems_listBytes (ih hord depth max hmax (by omega) (by omega)) rest
    rw [toBytes, List.append_assoc]
    simp [deserialize, bind, Except.bind, hmajor, hsize, hread, Nat.not_lt.2 hn]
  case map =>
    intro entries ih hord depth max hmax hdepth hlen rest
    have hhead := length_writeType_pos 5 entries.length
    have hcount := length_le_entriesBytes entries
    rw [toBytes, List.length_append] at hdepth hlen
    obtain ⟨depth, rfl⟩ := Nat.exists_eq_add_of_le' (show 1 ≤ depth by omega)
    have hn : entries.length ≤ max := by omega
    obtain ⟨hmajor, hsize⟩ := writeType_eq (show 5 < 8 by decide) (hn.trans_lt hmax)
      (entriesBytes entries ++ rest)
    simp only [UInt8.reduceOfNat] at hmajor hsize
    -- a map with entries has bytes for one more level
    have hread : readEntries (deserialize depth max) entries.length [] (entriesBytes entries ++ rest) =
        .ok (entries, rest) := by
      have hall := ih hord.2 depth max hmax (by omega) (by omega)
      cases entries with
      | nil => rfl
      | cons e entries =>
          rw [List.length_cons] at hcount
          obtain ⟨depth, rfl⟩ := Nat.exists_eq_add_of_le' (show 1 ≤ depth by omega)
          exact readEntries_entriesBytes hmax hall (by omega) hord.1 rest
    rw [toBytes, List.append_assoc]
    simp [deserialize, bind, Except.bind, hmajor, hsize, hread, Nat.not_lt.2 hn]
  case nil => intro _ _ _ _ _ _ v hv; cases hv
  case cons =>
    intro v items ihv ihitems hord depth max hmax hdepth hlen w hw rest
    rw [listBytes, List.length_append] at hdepth hlen
    rcases List.mem_cons.1 hw with rfl | hw
    · exact ihv hord.1 depth max hmax (by omega) (by omega) rest
    · exact ihitems hord.2 depth max hmax (by omega) (by omega) w hw rest
  case enil => intro _ _ _ _ _ _ e he; cases he
  case econs =>
    rintro ⟨k, v⟩ entries ihv ihentries hord depth max hmax hdepth hlen e he rest
    rw [entriesBytes, List.length_append, List.length_append] at hdepth hlen
    rcases List.mem_cons.1 he with rfl | he
    · exact ihv hord.1 depth max hmax (show v.toBytes.length ≤ depth by omega)
        (show v.toBytes.length ≤ max by omega) rest
    · exact ihentries hord.2 depth max hmax (by omega) (by omega) e he rest
  case mk => intro k v ih; exact ih

/-! ## Streams -/

/-- `CborObject::from_bytes_consumed`: a value and how many bytes it took. -/
def fromBytesConsumed (bytes : Bytes) : Except CborError (CborObject × ℕ) :=
  if bytes = [] then decodeErr "Empty cbor byte array!"
  else do
    let (obj, rest) ← deserialize bytes.length bytes.length bytes
    .ok (obj, bytes.length - rest.length)

/-- `CborObject::from_bytes_prefix`: a value, whatever bytes come after it. -/
def fromBytesPrefix (bytes : Bytes) : Except CborError CborObject :=
  if bytes = [] then decodeErr "Empty cbor byte array!"
  else do
    let (obj, _) ← deserialize bytes.length bytes.length bytes
    .ok obj

theorem toBytes_append_ne_nil (v : CborObject) (rest : Bytes) : v.toBytes ++ rest ≠ [] := by
  have hpos := length_toBytes_pos v
  intro h
  rw [List.append_eq_nil_iff] at h
  rw [h.1] at hpos
  exact lt_irrefl _ hpos

theorem fromBytesPrefix_encoded {v : CborObject} (hv : v.Ordered) {rest : Bytes}
    (hlen : (v.toBytes ++ rest).length < 2 ^ 64) :
    fromBytesPrefix (v.toBytes ++ rest) = .ok v := by
  rw [fromBytesPrefix, if_neg (toBytes_append_ne_nil v rest), deserialize_encoded v hv _ _ hlen
    (by rw [List.length_append]; omega) (by rw [List.length_append]; omega)]
  rfl

/-- Encodings are self-delimiting. -/
theorem fromBytesConsumed_encoded {v : CborObject} (hv : v.Ordered) {rest : Bytes}
    (hlen : (v.toBytes ++ rest).length < 2 ^ 64) :
    fromBytesConsumed (v.toBytes ++ rest) = .ok (v, v.toBytes.length) := by
  rw [fromBytesConsumed, if_neg (toBytes_append_ne_nil v rest), deserialize_encoded v hv _ _ hlen
    (by rw [List.length_append]; omega) (by rw [List.length_append]; omega)]
  simp only [bind, Except.bind, List.length_append, Nat.add_sub_cancel]

theorem fromBytes_encoded {v : CborObject} (hv : v.Ordered) (hlen : v.toBytes.length < 2 ^ 63) :
    fromBytes v.toBytes = .ok v := by
  have hne := toBytes_append_ne_nil v []
  have hread := deserialize_encoded v hv v.toBytes.length v.toBytes.length
    (lt_trans hlen (by norm_num)) le_rfl le_rfl []
  rw [List.append_nil] at hread hne
  rw [fromBytes, if_neg hne, hread]
  rfl

end CborObject

end Peergos
