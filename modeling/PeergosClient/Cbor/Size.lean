import PeergosClient.Cbor.Canonical
import PeergosClient.Core.Multiformats

/-!
# Sizes of encodings

How long the encoding of a value is: a header of at most nine bytes and what it holds.  A map that
was put together under different names is as long as its header and its entries.
-/

namespace Peergos

/-! ## Hashes -/

theorem length_putUvarintLoop_le (n x : ℕ) : (putUvarintLoop n x).length ≤ n + 1 := by
  induction n generalizing x with
  | zero => simp [putUvarintLoop]
  | succ n ih =>
      have hrest := ih (x >>> 7)
      unfold putUvarintLoop
      split
      · rw [List.length_cons]
        omega
      · simp

theorem length_putUvarint_le (x : ℕ) : (putUvarint x).length ≤ 10 :=
  length_putUvarintLoop_le 9 x

theorem Multihash.length_toBytes_le (m : Multihash) : m.toBytes.length ≤ 4132 := by
  have htype := length_putUvarint_le m.hashType.index
  have hsize := length_putUvarint_le m.hash.length
  have hhash := m.length_le
  rw [legacyMaxIdentityHashSize] at hhash
  rw [toBytes, List.length_append, List.length_append]
  omega

theorem Cid.length_toBytes_le (c : Cid) : c.toBytes.length ≤ 4152 := by
  have hversion := length_putUvarint_le 1
  have hcodec := length_putUvarint_le c.codec.code
  have hhash := c.multihash.length_toBytes_le
  unfold toBytes
  split
  · omega
  · rw [List.length_append, List.length_append]
    omega

namespace CborObject

/-! ## Values -/

/-- How long the header of a length `n` is. -/
def headerSize (n : ℕ) : ℕ :=
  if n < 0x18 then 1 else if n < 0x100 then 2 else if n < 0x10000 then 3
  else if n < 0x100000000 then 5 else 9

theorem headerSize_le (n : ℕ) : headerSize n ≤ 9 := by
  unfold headerSize
  split_ifs <;> norm_num

theorem headerSize_mono {m n : ℕ} (h : m ≤ n) : headerSize m ≤ headerSize n := by
  unfold headerSize
  split_ifs <;> omega

theorem length_writeType (mt : UInt8) (n : ℕ) : (writeType mt n).length = headerSize n := by
  unfold writeType writeUint headerSize
  split_ifs <;> rfl

theorem length_writeString (mt : UInt8) (b : Bytes) :
    (writeString mt b).length = headerSize b.length + b.length := by
  rw [writeString, List.length_append, length_writeType]

theorem length_toBytes_byteString (b : Bytes) :
    (byteString b).toBytes.length = headerSize b.length + b.length := length_writeString 2 b

theorem length_listBytes (items : List CborObject) :
    (listBytes items).length = (items.map fun v => v.toBytes.length).sum := by
  induction items with
  | nil => rfl
  | cons v items ih => rw [listBytes, List.length_append, ih, List.map_cons, List.sum_cons]

theorem length_toBytes_list (items : List CborObject) :
    (list items).toBytes.length =
      headerSize items.length + (items.map fun v => v.toBytes.length).sum := by
  rw [toBytes, List.length_append, length_writeType, length_listBytes]

/-! ## Maps -/

/-- How long an entry of a map is. -/
def entrySize (e : String × CborObject) : ℕ :=
  headerSize (utf8 e.1).length + (utf8 e.1).length + e.2.toBytes.length

theorem length_entriesBytes (entries : List (String × CborObject)) :
    (entriesBytes entries).length = (entries.map entrySize).sum := by
  induction entries with
  | nil => rfl
  | cons e entries ih =>
      rw [entriesBytes, List.length_append, List.length_append, ih, length_writeString,
        List.map_cons, List.sum_cons, entrySize]
      omega

theorem mapInsert_perm {k : String} (v : CborObject) {entries : List (String × CborObject)}
    (h : k ∉ entries.map Prod.fst) : (mapInsert k v entries).Perm ((k, v) :: entries) := by
  induction entries with
  | nil => exact .refl _
  | cons e entries ih =>
      obtain ⟨k', v'⟩ := e
      simp only [List.map_cons, List.mem_cons, not_or] at h
      unfold mapInsert
      split
      · exact .refl _
      · next hcmp => exact absurd (cborStringCmp_eq_iff.1 hcmp) h.1
      · exact ((ih h.2).cons _).trans (.swap _ _ _)

/-- A map that was put together under different names holds what was put. -/
theorem build_perm {puts : List (String × CborObject)} (h : (puts.map Prod.fst).Nodup) :
    ∃ entries, build puts = .map entries ∧ entries.Perm puts := by
  have hfold : ∀ (puts acc : List (String × CborObject)), ((acc ++ puts).map Prod.fst).Nodup →
      (puts.foldl (fun m e => mapInsert e.1 e.2 m) acc).Perm (acc ++ puts) := by
    intro puts
    induction puts with
    | nil =>
        intro acc _
        rw [List.append_nil]
        exact .refl _
    | cons e puts ih =>
        intro acc hnodup
        have hfresh : e.1 ∉ acc.map Prod.fst := by
          rw [List.map_append, List.nodup_append] at hnodup
          intro hmem
          exact hnodup.2.2 e.1 hmem e.1 (by simp) rfl
        have hins := mapInsert_perm e.2 hfresh
        have hnext : ((mapInsert e.1 e.2 acc ++ puts).map Prod.fst).Nodup := by
          refine (List.Perm.nodup_iff ?_).2 hnodup
          refine ((hins.append_right puts).trans ?_).map Prod.fst
          exact List.perm_middle.symm
        exact (ih _ hnext).trans ((hins.append_right puts).trans List.perm_middle.symm)
  exact ⟨_, rfl, hfold puts [] h⟩

theorem length_toBytes_build {puts : List (String × CborObject)} (h : (puts.map Prod.fst).Nodup) :
    (build puts).toBytes.length = headerSize puts.length + (puts.map entrySize).sum := by
  obtain ⟨entries, hbuild, hperm⟩ := build_perm h
  rw [hbuild, toBytes, List.length_append, length_writeType, length_entriesBytes, hperm.length_eq,
    (hperm.map entrySize).sum_eq]

end CborObject

end Peergos
