import PeergosClient.Cbor.RoundTrip
import PeergosClient.Core.Storage

/-!
# The store in memory

`RamStorage` keeps blocks under the bytes of their CIDs, which it computes itself.  Blocks handed in
from outside are filed under the CID they would have as dag-cbor and the one they would have raw, so
that a block that is not what a link names is never found under it.
-/

namespace Peergos

/-- `?` on a `CborError`. -/
def liftCbor {α : Type} : Except CborError α → Result α
  | .ok a => .ok a
  | .error (.text msg) => cborErr msg
  | .error (.invalidLink _) => cborErr "Invalid type for merkle link"

/-- `get_raw`: the bytes under a CID, as far as they are there. -/
abbrev RawReads (σ : Type) := σ → Cid → Result (Option Bytes)

/-- `RamStorage`: the block under each CID. -/
abbrev RamStorage := Bytes → Option Bytes

namespace RamStorage

/-- `RamStorage::new`. -/
def new : RamStorage := fun _ => none

variable (sha256 : Bytes → Bytes)

/-- `RamStorage::store`. -/
def store (isRaw : Bool) : List Bytes → RamStorage → Result (List Cid × RamStorage)
  | [], m => .ok ([], m)
  | block :: blocks, m => do
      let cid ← liftMf (buildCid (sha256 block) isRaw)
      let (out, m) ← store isRaw blocks (Function.update m cid.toBytes (some block))
      .ok (cid :: out, m)

/-- `RamStorage::load_verified`. -/
def loadVerified : List Bytes → RamStorage → Result RamStorage
  | [], m => .ok m
  | block :: blocks, m => do
      let (_, m) ← store sha256 false [block] m
      let (_, m) ← store sha256 true [block] m
      loadVerified blocks m

/-- `RamStorage::fetch`. -/
def fetch (m : RamStorage) (hash : Cid) : Option Bytes :=
  if hash.multihash.isIdentity then some hash.multihash.hash else m hash.toBytes

/-- `RamStorage::get_raw`. -/
def getRaw (m : RamStorage) (hash : Cid) : Result (Option Bytes) := .ok (m.fetch hash)

/-- `RamStorage` as a store of dag-cbor blocks. -/
def storage : ContentAddressedStorage RamStorage where
  get m hash :=
    match m.fetch hash with
    | some raw => (liftCbor (CborObject.fromBytes raw)).map some
    | none => .ok none
  put m block := do
    let cid ← liftMf (buildCid (sha256 block.toBytes) false)
    let (_, m) ← store sha256 false [block.toBytes] m
    .ok (cid, m)

end RamStorage

/-! ## The CID of a block -/

theorem Multihash.new_eq_ok {t : MultihashType} {h : Bytes} {m : Multihash}
    (hm : Multihash.new t h = .ok m) : m.hashType = t ∧ m.hash = h := by
  unfold Multihash.new at hm
  split at hm
  · cases hm
  · cases hm
    exact ⟨rfl, rfl⟩

theorem buildCid_eq_ok {h : Bytes} {isRaw : Bool} {c : Cid} (hc : buildCid h isRaw = .ok c) :
    c.codec = (if isRaw then .raw else .dagCbor) ∧ c.multihash.hashType = .sha2_256 ∧
      c.multihash.hash = h := by
  unfold buildCid Cid.new at hc
  cases hm : Multihash.new .sha2_256 h with
  | error e => rw [hm] at hc; cases hc
  | ok m =>
      rw [hm] at hc
      cases hc
      exact ⟨rfl, Multihash.new_eq_ok hm⟩

theorem not_isIdentity_of_buildCid {h : Bytes} {isRaw : Bool} {c : Cid}
    (hc : buildCid h isRaw = .ok c) : c.multihash.isIdentity = false := by
  unfold Multihash.isIdentity
  rw [(buildCid_eq_ok hc).2.1]
  rfl

theorem exists_buildCid {h : Bytes} (hlen : h.length = 32) (isRaw : Bool) :
    ∃ c, buildCid h isRaw = .ok c := by
  have hok : multihashRefusal .sha2_256 h = none := by
    simp [multihashRefusal, legacyMaxIdentityHashSize, MultihashType.length, hlen]
  have hm : Multihash.new .sha2_256 h = .ok ⟨.sha2_256, h, hok⟩ := by
    unfold Multihash.new
    split
    · rename_i e he
      rw [hok] at he
      cases he
    · rfl
  exact ⟨_, by unfold buildCid Cid.new; rw [hm]; rfl⟩

/-- Two blocks with the same CID bytes have the same hash, and were hashed for the same codec. -/
theorem buildCid_inj {h h' : Bytes} {isRaw isRaw' : Bool} {c c' : Cid}
    (hc : buildCid h isRaw = .ok c) (hc' : buildCid h' isRaw' = .ok c')
    (heq : c.toBytes = c'.toBytes) : h = h' ∧ isRaw = isRaw' := by
  have hcast := Cid.cast_toBytes (buildCid_version hc)
  rw [heq, Cid.cast_toBytes (buildCid_version hc')] at hcast
  cases hcast
  obtain ⟨h1, -, h2⟩ := buildCid_eq_ok hc
  obtain ⟨h1', -, h2'⟩ := buildCid_eq_ok hc'
  refine ⟨h2.symm.trans h2', ?_⟩
  rw [h1] at h1'
  cases isRaw <;> cases isRaw' <;> simp_all

/-! ## What was loaded -/

namespace RamStorage

variable {sha256 : Bytes → Bytes}

theorem store_singleton {isRaw : Bool} {b : Bytes} {m : RamStorage} {r : List Cid × RamStorage}
    (h : store sha256 isRaw [b] m = .ok r) :
    ∃ c, buildCid (sha256 b) isRaw = .ok c ∧ r = ([c], Function.update m c.toBytes (some b)) := by
  unfold store at h
  cases hc : buildCid (sha256 b) isRaw with
  | error e => rw [hc] at h; cases h
  | ok c =>
      rw [hc] at h
      cases h
      exact ⟨c, rfl, rfl⟩

/-- A block that was loaded is under its CIDs, if no other block loaded has its hash. -/
theorem loadVerified_apply {blocks : List Bytes} {m m' : RamStorage}
    (h : loadVerified sha256 blocks m = .ok m') {b : Bytes} {isRaw : Bool} {c : Cid}
    (hc : buildCid (sha256 b) isRaw = .ok c)
    (huniq : ∀ b' ∈ blocks, sha256 b' = sha256 b → b' = b)
    (hb : b ∈ blocks ∨ m c.toBytes = some b) : m' c.toBytes = some b := by
  induction blocks generalizing m with
  | nil =>
      cases h
      exact hb.resolve_left List.not_mem_nil
  | cons x blocks ih =>
      obtain ⟨r₁, h₁, h⟩ := bind_eq_ok.1 h
      obtain ⟨r₂, h₂, h⟩ := bind_eq_ok.1 h
      obtain ⟨c₁, hc₁, rfl⟩ := store_singleton h₁
      obtain ⟨c₂, hc₂, rfl⟩ := store_singleton h₂
      refine ih h (fun b' hb' => huniq b' (List.mem_cons_of_mem _ hb')) ?_
      simp only
      by_cases heq₂ : c.toBytes = c₂.toBytes
      · have hx := huniq x (List.mem_cons_self ..) (buildCid_inj hc hc₂ heq₂).1.symm
        right
        rw [heq₂, Function.update_self, hx]
      rw [Function.update_of_ne heq₂]
      by_cases heq₁ : c.toBytes = c₁.toBytes
      · have hx := huniq x (List.mem_cons_self ..) (buildCid_inj hc hc₁ heq₁).1.symm
        right
        rw [heq₁, Function.update_self, hx]
      rw [Function.update_of_ne heq₁]
      rcases hb with hb | hb
      · rcases List.mem_cons.1 hb with rfl | hb
        · cases isRaw
          · rw [hc] at hc₁
            cases hc₁
            exact absurd rfl heq₁
          · rw [hc] at hc₂
            cases hc₂
            exact absurd rfl heq₂
        · exact Or.inl hb
      · exact Or.inr hb

theorem exists_loadVerified (hlen : ∀ b, (sha256 b).length = 32) (blocks : List Bytes)
    (m : RamStorage) : ∃ m', loadVerified sha256 blocks m = .ok m' := by
  induction blocks generalizing m with
  | nil => exact ⟨m, rfl⟩
  | cons b blocks ih =>
      obtain ⟨c, hc⟩ := exists_buildCid (hlen b) false
      obtain ⟨c', hc'⟩ := exists_buildCid (hlen b) true
      obtain ⟨m', hm'⟩ := ih (Function.update (Function.update m c.toBytes (some b)) c'.toBytes
        (some b))
      refine ⟨m', ?_⟩
      simp only [loadVerified, store, hc, hc', liftMf, ok_bind, hm']

/-- Reading a loaded block. -/
theorem storage_get {blocks : List Bytes} {m m' : RamStorage}
    (h : loadVerified sha256 blocks m = .ok m') {b : CborObject} {c : Cid}
    (hc : buildCid (sha256 b.toBytes) false = .ok c)
    (huniq : ∀ b' ∈ blocks, sha256 b' = sha256 b.toBytes → b' = b.toBytes)
    (hb : b.toBytes ∈ blocks) (hread : CborObject.fromBytes b.toBytes = .ok b) :
    (storage sha256).get m' c = .ok (some b) := by
  have hm := loadVerified_apply h hc huniq (Or.inl hb)
  simp only [storage, fetch, not_isIdentity_of_buildCid hc, Bool.false_eq_true, if_false, hm,
    hread, liftCbor, Except.map]

end RamStorage

end Peergos
