import PeergosClient.Buffered.Server
import PeergosClient.Champ.MergeSpec
import PeergosClient.Core.Bases
import PeergosClient.Core.Mutable
import PeergosClient.Fs.CapabilityCbor

/-!
# The writers a writer owns

Every writing space is owned by another writer, whose `owned` champ maps the reversed name of each
key it owns to a proof, in which the owned key signs its owner's name.  `addOwnedWriter` and
`removeOwnedWriter` change this champ and commit it, `orphanedWriters` lists the owned keys that
have no pointer, and `removeOrphans` lets them go.

* `OwnedRun.inv`: after any run of these calls, successful or not, every owner's champ holds exactly
  the keys that were added and not removed, each with its proof.
* `orphans_removed_exactly`: the orphans of each signer are exactly the keys it owns that have no
  pointer, removing them from a user's signers leaves all others, and there are none afterwards.
-/

namespace Peergos

open Outcome (Ensures)

/-! ## Blocks and pointers -/

/-- What a server keeps for an owner. -/
structure WriterWorld (σ π : Type) where
  blocks : σ
  pointers : π

namespace WriterWorld

variable {σ π α : Type}

/-- A call to the block store that writes. -/
def onBlocks (f : σ → Result (α × σ)) : Exec (WriterWorld σ π) Fault α :=
  .zoom blocks (fun s w => { w with blocks := s }) (.ofExcept f)

/-- A call to the block store that reads. -/
def readBlocks (f : σ → Result α) : Exec (WriterWorld σ π) Fault α := .query fun w => f w.blocks

/-- A call to the pointer store. -/
def onPointers (x : Exec π Fault α) : Exec (WriterWorld σ π) Fault α :=
  .zoom pointers (fun p w => { w with pointers := p }) x

end WriterWorld

/-- `set_field`. -/
def setField (map : CborObject) (key : String) (value : CborObject) : Result CborObject :=
  match map with
  | .map m => .ok (.map (CborObject.mapInsert key value m))
  | _ => cborErr "cryptree block is not a map"

theorem setField_map (m : List (String × CborObject)) (key : String) (value : CborObject) :
    setField (.map m) key value = .ok (.map (CborObject.mapInsert key value m)) := rfl

/-- `owned_key`: the key of a writer in the champ of what its owner owns. -/
def ownedKey (writer : PublicKeyHash) : Bytes := writer.toCbor.toBytes.reverse

/-- What `orphaned_writers` reads such a key as. -/
def readOwnedKey (key : Bytes) : Result PublicKeyHash := do
  let cbor ← liftCbor (CborObject.fromBytes key.reverse)
  PublicKeyHash.fromCbor cbor

/-- The block with which `child` acknowledges its owner. -/
def ownerProof (child : PublicKeyHash) (signed : Bytes) : CborObject :=
  .build [("o", child.toCbor), ("p", .byteString signed)]

/-- A message that names a writer. -/
def writerErr {α : Type} (before : String) (writer : PublicKeyHash) (after : String) :
    Result α := do
  let text ← writer.target.toString
  protocolErr (before ++ text ++ after)

theorem writerErr_ne_ok {α : Type} {before after : String} {writer : PublicKeyHash} {a : α} :
    writerErr before writer after ≠ .ok a := by
  unfold writerErr
  cases writer.target.toString with
  | error e => simp
  | ok text => simp [protocolErr]

section Calls

variable {σ π : Type} (S : ContentAddressedStorage σ) (P : MutablePointers π)
  (signMessage : Bytes → Bytes → Result Bytes) (fuel : ℕ)

open WriterWorld (onBlocks readBlocks onPointers)

/-- `open_champ`. -/
def openChamp (owner writer : PublicKeyHash) (field : String) :
    Exec (WriterWorld σ π) Fault (PointerUpdate × CborObject × ChampWrapper) := do
  let pointer ← onPointers (P.getPointerTarget owner writer)
  let wdCid ←
    match pointer.updated with
    | some cid => pure cid
    | none => Exec.lift (writerErr "writer " writer " has no data")
  let wd ←
    match ← readBlocks fun s => S.get s wdCid with
    | some wd => pure wd
    | none => Exec.lift (protocolErr "writer data missing")
  let root ←
    match (wd.get field).bind CborObject.asLink with
    | some link => Exec.lift (liftMf (Cid.cast link))
    | none => Exec.lift (writerErr "writer " writer (" has no " ++ field ++ " champ"))
  let champ ← readBlocks fun s => ChampWrapper.create S s root identityKeyHasher
  pure (pointer, wd, champ)

/-- `commit_champ`. -/
def commitChamp (owner : PublicKeyHash) (writer : SigningPrivateKeyAndPublicHash) (field : String)
    (pointer : PointerUpdate) (wd : CborObject) (champ : ChampWrapper) :
    Exec (WriterWorld σ π) Fault Unit := do
  let newWd ← Exec.lift (setField wd field (.merkleLink champ.rootHash.toBytes))
  let newWdCid ← onBlocks fun s => S.put s newWd
  let update := ⟨pointer.updated, some newWdCid, PointerUpdate.increment pointer.sequence⟩
  if ← onPointers (P.setPointerUpdate owner writer update) then pure ()
  else Exec.lift (writerErr "pointer update for " writer.publicKeyHash " rejected")

/-- `add_owned_writer`. -/
def addOwnedWriter (owner : PublicKeyHash) (parent child : SigningPrivateKeyAndPublicHash) :
    Exec (WriterWorld σ π) Fault Unit := do
  let (pointer, wd, owned) ← openChamp S P owner parent.publicKeyHash "owned"
  let signed ← Exec.lift (signMessage child.secret parent.publicKeyHash.toCbor.toBytes)
  let proofCid ← onBlocks fun s => S.put s (ownerProof child.publicKeyHash signed)
  let key := ownedKey child.publicKeyHash
  let current ← readBlocks fun s => owned.get S fuel s key
  let owned ← onBlocks fun s => owned.put S fuel s key current (some (.merkleLink proofCid.toBytes))
  commitChamp S P owner parent "owned" pointer wd owned

/-- `remove_owned_writer`. -/
def removeOwnedWriter (owner : PublicKeyHash) (parent : SigningPrivateKeyAndPublicHash)
    (child : PublicKeyHash) : Exec (WriterWorld σ π) Fault Bool := do
  let (pointer, wd, owned) ← openChamp S P owner parent.publicKeyHash "owned"
  let key := ownedKey child
  let current ← readBlocks fun s => owned.get S fuel s key
  if current.isNone then pure false
  else do
    let owned ← onBlocks fun s => owned.remove S fuel s key current
    commitChamp S P owner parent "owned" pointer wd owned
    pure true

/-- One mapping in the loop of `orphaned_writers`. -/
def collectOrphan (owner : PublicKeyHash) (res : List PublicKeyHash) (key : Bytes) :
    Exec (WriterWorld σ π) Fault (List PublicKeyHash) := do
  let writer ← Exec.lift (readOwnedKey key)
  let pointer ← onPointers (P.getPointerTarget owner writer)
  pure (if pointer.updated.isNone then res ++ [writer] else res)

/-- `orphaned_writers`. -/
def orphanedWriters (owner : PublicKeyHash) (signer : PublicKeyHash) :
    Exec (WriterWorld σ π) Fault (List PublicKeyHash) := do
  match ← Exec.attempt (openChamp S P owner signer "owned") with
  | .error (.err _) => pure []
  | .error fault => Exec.fail fault
  | .ok (_, _, owned) => do
      let root ←
        match ← readBlocks fun s => S.get s owned.rootHash with
        | some root => pure root
        | none => Exec.lift (protocolErr "owned champ root missing")
      let champ ← Exec.lift (Champ.fromCbor root)
      let mappings ← readBlocks fun s => Champ.collectMappings S fuel s champ
      (mappings.map KeyElement.key).foldlM (collectOrphan P owner) []

/-- `remove_orphans`, within a transaction of the store. -/
def removeOrphans (owner : PublicKeyHash) (signer : SigningPrivateKeyAndPublicHash)
    (orphans : List PublicKeyHash) : Exec (WriterWorld σ π) Fault ℕ :=
  orphans.foldlM (fun removed w => do
    let gone ← removeOwnedWriter S P fuel owner signer w
    pure (if gone then removed + 1 else removed)) 0

/-- The loop of `remove_orphaned_writers` over the user's signers. -/
def removeOrphanedWriters (owner : PublicKeyHash)
    (signers : List SigningPrivateKeyAndPublicHash) : Exec (WriterWorld σ π) Fault ℕ :=
  signers.foldlM (fun removed s => do
    let orphans ← orphanedWriters S P fuel owner s.publicKeyHash
    let gone ← removeOrphans S P fuel owner s orphans
    pure (removed + gone)) 0

end Calls

/-! ## Keys -/

/-- A name that reads back from its key. -/
def PublicKeyHash.Keyable (k : PublicKeyHash) : Prop :=
  k.Encodable ∧ k.toCbor.toBytes.length < 2 ^ 63

instance (k : PublicKeyHash) : Decidable k.Keyable := inferInstanceAs (Decidable (_ ∧ _))

theorem readOwnedKey_ownedKey {k : PublicKeyHash} (h : k.Keyable) :
    readOwnedKey (ownedKey k) = .ok k := by
  have hread : CborObject.fromBytes k.toCbor.toBytes = .ok k.toCbor :=
    CborObject.fromBytes_encoded trivial h.2
  simp only [readOwnedKey, ownedKey, List.reverse_reverse, hread, liftCbor, ok_bind,
    PublicKeyHash.fromCbor_toCbor h.1]

theorem ownedKey_inj {k k' : PublicKeyHash} (h : k.Keyable) (h' : k'.Keyable)
    (heq : ownedKey k = ownedKey k') : k = k' := by
  have hread := readOwnedKey_ownedKey h
  rw [heq, readOwnedKey_ownedKey h'] at hread
  exact (Except.ok.inj hread).symm

/-! ## What an owner owns -/

section Owns

variable {σ : Type} (S : ContentAddressedStorage σ) (sha256 : Bytes → Bytes)

/-- The keys a writer owns, each with what it signed to acknowledge that. -/
abbrev Ownership := PublicKeyHash → Option Bytes

/-- The champ maps the keys that are owned, and no others, each to the block with its proof. -/
structure Proves (b : σ) (champ : ChampWrapper) (owned : Ownership) : Prop where
  holds : ∃ bat es, Champ.BatReadable bat ∧ Champ.Holds S sha256 identityKeyHasher bat b champ es ∧
    (∀ c signed, owned c = some signed → ∃ cid : Cid,
      Champ.valueOf es (ownedKey c) = some (.merkleLink cid.toBytes) ∧
        S.get b cid = .ok (some (ownerProof c signed))) ∧
    ∀ k, Champ.valueOf es k ≠ none → ∃ c, owned c ≠ none ∧ ownedKey c = k
  keyable : ∀ c, owned c ≠ none → c.Keyable

/-- A writer's data has a champ of what it owns, beside its other fields. -/
def Owns (b : σ) (target : Option Cid) (owned : Ownership)
    (fields : String → Option CborObject) : Prop :=
  ∃ wdCid m champ, target = some wdCid ∧ S.get b wdCid = .ok (some (.map m)) ∧
    (CborObject.map m).get "owned" = some (.merkleLink champ.rootHash.toBytes) ∧
    (∀ field, field ≠ "owned" → (CborObject.map m).get field = fields field) ∧
    Proves S sha256 b champ owned

variable {S sha256} {b b' : σ} {champ : ChampWrapper} {owned : Ownership} {target : Option Cid}
  {fields : String → Option CborObject} {fuel : ℕ}

theorem Proves.mono (h : Proves S sha256 b champ owned) (hext : S.Extends b b') :
    Proves S sha256 b' champ owned := by
  obtain ⟨⟨bat, es, hbat, hes, hproof, hkeys⟩, hkeyable⟩ := h
  refine ⟨⟨bat, es, hbat, ?_, fun c signed hc => ?_, hkeys⟩, hkeyable⟩
  · exact ⟨hes.hasher, hes.canonical.mono hext, hes.stored.mono hext, hes.sorted, hes.valued⟩
  · obtain ⟨cid, hcid, hget⟩ := hproof c signed hc
    exact ⟨cid, hcid, hext _ _ hget⟩

theorem Owns.mono (h : Owns S sha256 b target owned fields) (hext : S.Extends b b') :
    Owns S sha256 b' target owned fields := by
  obtain ⟨wdCid, m, champ, htarget, hget, hfield, hfields, hproves⟩ := h
  exact ⟨wdCid, m, champ, htarget, hext _ _ hget, hfield, hfields, hproves.mono hext⟩

/-- A writer whose data was just written with an empty champ owns nothing. -/
theorem owns_created (hL : S.Lawful sha256) {s₀ s₁ s₂ : σ} {root wd : Cid}
    {m : List (String × CborObject)}
    (hroot : S.put s₀ (Champ.empty.withBat none).toCbor = .ok (root, s₁))
    (hm : (CborObject.map m).get "owned" = some (.merkleLink root.toBytes))
    (hwd : S.put s₁ (.map m) = .ok (wd, s₂)) :
    Owns S sha256 s₂ (some wd) (fun _ => none) (CborObject.map m).get := by
  have hbat : Champ.BatReadable none := by rintro b ⟨⟩
  obtain ⟨champ, hcreate, hholds⟩ := Champ.holds_create (H := identityKeyHasher) hL hbat hroot
  have hnone : ∀ k, Champ.valueOf [] k = none := fun _ => rfl
  have hproves : Proves S sha256 s₁ champ fun _ => none :=
    ⟨⟨none, [], hbat, hholds, by simp, by simp [hnone]⟩, by simp⟩
  have hrootHash : champ.rootHash = root := by
    unfold ChampWrapper.create at hcreate
    rw [hL.put_get hroot, ok_bind] at hcreate
    obtain ⟨_, -, h⟩ := bind_eq_ok.1 hcreate
    cases h
    rfl
  exact ⟨wd, m, champ, rfl, hL.put_get hwd, by rw [hm, hrootHash], fun _ _ => rfl,
    hproves.mono (hL.put_extends hwd)⟩

/-- A lookup tells whether a key is owned. -/
theorem Proves.get_eq (h : Proves S sha256 b champ owned)
    (hfuel : Champ.hashCodeLength ≤ fuel) {c : PublicKeyHash} (hc : c.Keyable) :
    ∃ v, champ.get S fuel b (ownedKey c) = .ok v ∧ (v = none ↔ owned c = none) := by
  obtain ⟨⟨bat, es, hbat, hes, hproof, hkeys⟩, hkeyable⟩ := h
  refine ⟨_, hes.get_eq hbat hfuel _, fun hnone => ?_, fun hnone => ?_⟩
  · by_contra howned
    obtain ⟨signed, hsigned⟩ := Option.ne_none_iff_exists'.1 howned
    obtain ⟨cid, hcid, -⟩ := hproof c signed hsigned
    rw [hnone] at hcid
    cases hcid
  · by_contra hsome
    obtain ⟨c', howned, hkey⟩ := hkeys _ hsome
    obtain rfl := ownedKey_inj (hkeyable c' howned) hc hkey
    exact howned hnone

/-- A key is put under its proof. -/
theorem Proves.put (h : Proves S sha256 b champ owned) (hL : S.Lawful sha256)
    (hfuel : Champ.hashCodeLength ≤ fuel) {c : PublicKeyHash}
    (hc : c.Keyable) {signed : Bytes} {cid : Cid}
    (hproof : S.get b cid = .ok (some (ownerProof c signed))) {current : Option CborObject}
    {champ' : ChampWrapper}
    (hput : champ.put S fuel b (ownedKey c) current (some (.merkleLink cid.toBytes)) =
      .ok (champ', b')) :
    S.Extends b b' ∧
      Proves S sha256 b' champ' (Function.update owned c (some signed)) := by
  obtain ⟨⟨bat, es, hbat, hes, hproofs, hkeys⟩, hkeyable⟩ := h
  obtain ⟨hes', hext, -⟩ := (hes.put_ensures hL hbat hfuel (by simp)).of_eq_ok hput
  have hval := Champ.valueOf_upsert hes.sorted
    ⟨ownedKey c, some (CborObject.merkleLink cid.toBytes)⟩
  refine ⟨hext, ⟨⟨bat, _, hbat, hes', fun c' signed' hsigned => ?_, fun k hk => ?_⟩,
    fun c' howned => ?_⟩⟩
  · rw [hval]
    by_cases heq : c' = c
    · subst heq
      rw [Function.update_self] at hsigned
      cases hsigned
      exact ⟨cid, by simp, hext _ _ hproof⟩
    · rw [Function.update_of_ne heq] at hsigned
      obtain ⟨cid', hcid', hget⟩ := hproofs c' signed' hsigned
      have hne : ownedKey c' ≠ ownedKey c := fun hkey =>
        heq (ownedKey_inj (hkeyable c' (by simp [hsigned])) hc hkey)
      exact ⟨cid', by rw [Function.update_of_ne hne, hcid'], hext _ _ hget⟩
  · rw [hval] at hk
    by_cases hkey : k = ownedKey c
    · exact ⟨c, by simp, hkey.symm⟩
    · rw [Function.update_of_ne hkey] at hk
      obtain ⟨c', howned, rfl⟩ := hkeys k hk
      exact ⟨c', by rwa [Function.update_of_ne (fun heq => hkey (by rw [heq]))], rfl⟩
  · by_cases heq : c' = c
    · exact heq ▸ hc
    · rw [Function.update_of_ne heq] at howned
      exact hkeyable c' howned

/-- A key is taken out. -/
theorem Proves.remove (h : Proves S sha256 b champ owned) (hL : S.Lawful sha256)
    (hfuel : Champ.hashCodeLength ≤ fuel) {c : PublicKeyHash}
    (hc : c.Keyable) {current : Option CborObject} {champ' : ChampWrapper}
    (hremove : champ.remove S fuel b (ownedKey c) current = .ok (champ', b')) :
    S.Extends b b' ∧ Proves S sha256 b' champ' (Function.update owned c none) := by
  obtain ⟨⟨bat, es, hbat, hes, hproofs, hkeys⟩, hkeyable⟩ := h
  obtain ⟨hes', hext, -⟩ := (hes.remove_ensures hL hbat hfuel).of_eq_ok hremove
  have hval := Champ.valueOf_erase es (ownedKey c)
  refine ⟨hext, ⟨⟨bat, _, hbat, hes', fun c' signed' hsigned => ?_, fun k hk => ?_⟩,
    fun c' howned => ?_⟩⟩
  · have heq : c' ≠ c := by
      rintro rfl
      simp at hsigned
    rw [Function.update_of_ne heq] at hsigned
    obtain ⟨cid', hcid', hget⟩ := hproofs c' signed' hsigned
    have hne : ownedKey c' ≠ ownedKey c := fun hkey =>
      heq (ownedKey_inj (hkeyable c' (by simp [hsigned])) hc hkey)
    exact ⟨cid', by rw [hval, Function.update_of_ne hne, hcid'], hext _ _ hget⟩
  · rw [hval] at hk
    by_cases hkey : k = ownedKey c
    · simp [hkey] at hk
    · rw [Function.update_of_ne hkey] at hk
      obtain ⟨c', howned, rfl⟩ := hkeys k hk
      exact ⟨c', by rwa [Function.update_of_ne (fun heq => hkey (by rw [heq]))], rfl⟩
  · by_cases heq : c' = c
    · simp [heq] at howned
    · rw [Function.update_of_ne heq] at howned
      exact hkeyable c' howned

/-- The mappings of the champ are the keys that are owned. -/
theorem Proves.collect (h : Proves S sha256 b champ owned)
    (hfuel : Champ.hashCodeLength ≤ fuel) :
    S.get b champ.rootHash = .ok (some champ.root.toCbor) ∧
      Champ.fromCbor champ.root.toCbor = .ok champ.root ∧
      ∃ out, Champ.collectMappings S fuel b champ.root = .ok out ∧
        (out.map KeyElement.key).Nodup ∧
        ∀ k, k ∈ out.map KeyElement.key ↔ ∃ c, owned c ≠ none ∧ ownedKey c = k := by
  obtain ⟨⟨bat, es, hbat, hes, hproofs, hkeys⟩, hkeyable⟩ := h
  obtain ⟨out, hout, hperm⟩ :=
    Champ.collectMappings_perm hes.canonical hes.sorted hes.valued.noNull hbat hfuel
  refine ⟨hes.stored.1, hes.canonical.fromCbor_toCbor hes.valued.noNull hbat, out, hout,
    (hperm.map _).nodup_iff.2 hes.sorted.nodup_keys, fun k => ?_⟩
  have hmem : k ∈ out.map KeyElement.key ↔ Champ.valueOf es k ≠ none := by
    rw [(hperm.map _).mem_iff, Ne, Champ.valueOf_eq_none hes.valued]
    simp
  rw [hmem]
  refine ⟨hkeys k, ?_⟩
  rintro ⟨c, howned, rfl⟩
  obtain ⟨signed, hsigned⟩ := Option.ne_none_iff_exists'.1 howned
  obtain ⟨cid, hcid, -⟩ := hproofs c signed hsigned
  rw [hcid]
  simp

end Owns

/-! ## What the calls do -/

section Steps

variable {σ π α : Type} {S : ContentAddressedStorage σ} {P : MutablePointers π}
  {signMessage : Bytes → Bytes → Result Bytes} {sha256 : Bytes → Bytes} {fuel : ℕ}
  {pointer : π → PublicKeyHash → PointerUpdate} {b : σ} {p : PublicKeyHash → PointerUpdate}
  {owner : PublicKeyHash} {parent child : SigningPrivateKeyAndPublicHash} {owned : Ownership}
  {fields : String → Option CborObject} {fails : Fault → WriterWorld σ π → Prop}

open Exec (Triple)
open WriterWorld (onBlocks readBlocks onPointers)

/-- The blocks and the pointers of a world. -/
def At (pointer : π → PublicKeyHash → PointerUpdate) (b : σ) (p : PublicKeyHash → PointerUpdate)
    (w : WriterWorld σ π) : Prop :=
  w.blocks = b ∧ pointer w.pointers = p

/-- A world with more blocks than there were, and the pointers that there were. -/
def Grown (S : ContentAddressedStorage σ) (pointer : π → PublicKeyHash → PointerUpdate) (b : σ)
    (p : PublicKeyHash → PointerUpdate) (w : WriterWorld σ π) : Prop :=
  S.Extends b w.blocks ∧ pointer w.pointers = p

/-- A world in which a writer owns other keys than before. -/
def Became (S : ContentAddressedStorage σ) (sha256 : Bytes → Bytes)
    (pointer : π → PublicKeyHash → PointerUpdate) (b : σ) (p : PublicKeyHash → PointerUpdate)
    (parent : PublicKeyHash) (owned : Ownership) (fields : String → Option CborObject)
    (w : WriterWorld σ π) : Prop :=
  S.Extends b w.blocks ∧ (∀ q, q ≠ parent → pointer w.pointers q = p q) ∧
    Owns S sha256 w.blocks (pointer w.pointers parent).updated owned fields

theorem triple_readBlocks {f : σ → Result α} (hfail : ∀ e w, At pointer b p w → fails e w) :
    Triple (At pointer b p) (readBlocks f) (fun a w => f b = .ok a ∧ At pointer b p w) fails := by
  rintro w ⟨rfl, rfl⟩
  unfold readBlocks
  rw [Exec.query_run]
  cases h : f w.blocks with
  | ok a => exact ⟨rfl, rfl, rfl⟩
  | error e => exact hfail e w ⟨rfl, rfl⟩

theorem triple_onBlocks {f : σ → Result (α × σ)} (hfail : ∀ e w, At pointer b p w → fails e w) :
    Triple (At pointer b p) (onBlocks f)
      (fun a w => ∃ b', f b = .ok (a, b') ∧ At pointer b' p w) fails := by
  rintro w ⟨rfl, rfl⟩
  unfold onBlocks Exec.zoom Exec.ofExcept
  cases h : f w.blocks with
  | ok r => exact ⟨r.2, rfl, rfl, rfl⟩
  | error e => exact hfail e w ⟨rfl, rfl⟩

theorem triple_getPointer (hP : P.CompareAndSwap pointer) (c : PublicKeyHash) :
    Triple (At pointer b p) (onPointers (P.getPointerTarget owner c) : Exec (WriterWorld σ π) _ _)
      (fun u w => u = p c ∧ At pointer b p w) fails := by
  rintro w ⟨rfl, rfl⟩
  obtain ⟨s', hget, hsame⟩ := hP.get_pointer w.pointers owner c
  unfold onPointers Exec.zoom
  rw [hget]
  exact ⟨rfl, rfl, hsame⟩

theorem triple_setPointer (hP : P.CompareAndSwap pointer) (u : PointerUpdate)
    (hfail : ∀ e w, At pointer b p w → fails e w) :
    Triple (At pointer b p)
      (onPointers (P.setPointerUpdate owner parent u) : Exec (WriterWorld σ π) _ _)
      (fun accepted w => if accepted then At pointer b (Function.update p parent.publicKeyHash u) w
        else At pointer b p w) fails := by
  rintro w ⟨rfl, rfl⟩
  unfold onPointers Exec.zoom
  by_cases hfits : (pointer w.pointers parent.publicKeyHash).Continues u
  · obtain ⟨s', hset, hupdate⟩ := hP.set_fits (o := owner) hfits
    rw [hset]
    exact ⟨rfl, hupdate⟩
  · obtain ⟨r, s', hset, rfl | ⟨e, rfl⟩, hsame⟩ := hP.set_refused (o := owner) hfits
    · rw [hset]
      exact ⟨rfl, hsame⟩
    · rw [hset]
      exact hfail _ _ ⟨rfl, hsame⟩

/-- Opening the champ of what a writer owns. -/
theorem openChamp_run (hP : P.CompareAndSwap pointer) {writer : PublicKeyHash}
    (howns : Owns S sha256 b (p writer).updated owned fields) {w : WriterWorld σ π}
    (hat : At pointer b p w) :
    ∃ m champ w', openChamp S P owner writer "owned" w = (.ok (p writer, .map m, champ), w') ∧
      (∀ field, field ≠ "owned" → (CborObject.map m).get field = fields field) ∧
      Proves S sha256 b champ owned ∧ At pointer b p w' := by
  obtain ⟨rfl, rfl⟩ := hat
  obtain ⟨wdCid, m, champ, htarget, hwd, hfield, hfields, hproves⟩ := howns
  have hopen : ChampWrapper.create S w.blocks champ.rootHash identityKeyHasher = .ok champ ∧
      Cid.cast champ.rootHash.toBytes = .ok champ.rootHash := by
    obtain ⟨⟨bat, es, hbat, hes, -⟩, -⟩ := hproves
    exact ⟨ChampMerge.create_of_holds hbat hes, hes.stored.cast⟩
  obtain ⟨s', hget, hsame⟩ := hP.get_pointer w.pointers owner writer
  refine ⟨m, champ, { w with pointers := s' }, ?_, hfields, hproves, rfl, hsame⟩
  simp [openChamp, Exec.bind_run, onPointers, readBlocks, Exec.zoom, hget, htarget, hwd, hfield,
    CborObject.asLink, hopen, liftMf]

/-- Committing a champ that proves other ownership. -/
theorem triple_commitChamp (hL : S.Lawful sha256) (hP : P.CompareAndSwap pointer) {b₀ : σ}
    (hext : S.Extends b₀ b) {m : List (String × CborObject)}
    (hfields : ∀ field, field ≠ "owned" → (CborObject.map m).get field = fields field)
    {champ : ChampWrapper} (hproves : Proves S sha256 b champ owned) :
    Triple (At pointer b p)
      (commitChamp S P owner parent "owned" (p parent.publicKeyHash) (.map m) champ)
      (fun _ => Became S sha256 pointer b₀ p parent.publicKeyHash owned fields)
      fun _ => Grown S pointer b₀ p := by
  have hsame : ∀ b', S.Extends b b' → ∀ w, At pointer b' p w → Grown S pointer b₀ p w := by
    rintro b' hb' w ⟨rfl, hp⟩
    exact ⟨hext.trans hb', hp⟩
  unfold commitChamp
  rw [setField_map, Exec.lift_ok_bind]
  refine Triple.bind (triple_onBlocks fun e w => hsame b (.refl b) w) fun wdCid => ?_
  rintro w ⟨b', hput, hat⟩
  have hb' := hL.put_extends hput
  refine Triple.bind (triple_setPointer hP _ fun e w => hsame b' hb' w) (fun accepted => ?_) w hat
  cases accepted with
  | false =>
      exact fun w hw => Triple.lift (fun _ h _ _ => absurd h writerErr_ne_ok)
        (fun _ _ w hw => hsame b' hb' w hw) w hw
  | true =>
      refine Triple.pure ?_
      rintro w ⟨rfl, hp⟩
      refine ⟨hext.trans hb', fun q hq => by rw [hp, Function.update_of_ne hq], ?_⟩
      rw [hp, Function.update_self]
      refine ⟨wdCid, _, champ, rfl, hL.put_get hput, ?_, fun field hfield => ?_,
        hproves.mono hb'⟩
      · rw [CborObject.get_map_mapInsert, if_pos rfl]
      · rw [CborObject.get_map_mapInsert, if_neg hfield, hfields field hfield]

variable (hL : S.Lawful sha256) (hP : P.CompareAndSwap pointer)
  (hfuel : Champ.hashCodeLength ≤ fuel)

include hL hP hfuel

/-- Recording that a writer owns a key, with the proof the key signed. -/
theorem triple_addOwnedWriter (hc : child.publicKeyHash.Keyable)
    (howns : Owns S sha256 b (p parent.publicKeyHash).updated owned fields) :
    Triple (At pointer b p) (addOwnedWriter S P signMessage fuel owner parent child)
      (fun _ w => ∃ signed,
        signMessage child.secret parent.publicKeyHash.toCbor.toBytes = .ok signed ∧
        Became S sha256 pointer b p parent.publicKeyHash
          (Function.update owned child.publicKeyHash (some signed)) fields w)
      fun _ => Grown S pointer b p := by
  have hsame : ∀ b', S.Extends b b' → ∀ w, At pointer b' p w → Grown S pointer b p w := by
    rintro b' hb' w ⟨rfl, hp⟩
    exact ⟨hb', hp⟩
  intro w hat
  obtain ⟨m, champ, w', hopen, hfields, hproves, hat⟩ := openChamp_run hP howns hat
  unfold addOwnedWriter
  rw [Exec.bind_of_ok hopen]
  have hsign : Triple (At pointer b p)
      (Exec.lift (signMessage child.secret parent.publicKeyHash.toCbor.toBytes))
      (fun signed w => signMessage child.secret parent.publicKeyHash.toCbor.toBytes = .ok signed ∧
        At pointer b p w) fun _ => Grown S pointer b p :=
    Triple.lift (fun signed h w hw => ⟨h, hw⟩) fun _ _ w hw => hsame b (.refl b) w hw
  refine Triple.bind hsign ?_ w' hat
  rintro signed w ⟨hsigned, hat⟩
  refine Triple.bind (triple_onBlocks fun _ w => hsame b (.refl b) w) ?_ w hat
  rintro proofCid w ⟨b₁, hproof, hat⟩
  have hb₁ := hL.put_extends hproof
  refine Triple.bind (triple_readBlocks fun _ w => hsame b₁ hb₁ w) ?_ w hat
  rintro current w ⟨-, hat⟩
  refine Triple.bind (triple_onBlocks fun _ w => hsame b₁ hb₁ w) ?_ w hat
  rintro champ' w ⟨b₂, hput, hat⟩
  obtain ⟨hb₂, hproves'⟩ := (hproves.mono hb₁).put hL hfuel hc (hL.put_get hproof) hput
  exact Triple.mono (triple_commitChamp hL hP (hb₁.trans hb₂) hfields hproves') (fun _ h => h)
    (fun _ _ h => ⟨signed, hsigned, h⟩) (fun _ _ h => h) w hat

/-- Letting a key go, and telling whether it was owned. -/
theorem triple_removeOwnedWriter {c : PublicKeyHash} (hc : c.Keyable)
    (howns : Owns S sha256 b (p parent.publicKeyHash).updated owned fields) :
    Triple (At pointer b p) (removeOwnedWriter S P fuel owner parent c)
      (fun gone w => gone = (owned c).isSome ∧
        Became S sha256 pointer b p parent.publicKeyHash (Function.update owned c none) fields w)
      fun _ => Grown S pointer b p := by
  have hsame : ∀ b', S.Extends b b' → ∀ w, At pointer b' p w → Grown S pointer b p w := by
    rintro b' hb' w ⟨rfl, hp⟩
    exact ⟨hb', hp⟩
  intro w hat
  obtain ⟨m, champ, w', hopen, hfields, hproves, hat⟩ := openChamp_run hP howns hat
  unfold removeOwnedWriter
  rw [Exec.bind_of_ok hopen]
  refine Triple.bind (triple_readBlocks fun _ w => hsame b (.refl b) w) ?_ w' hat
  rintro current w ⟨hcurrent, hat⟩
  obtain ⟨v, hv, hnone⟩ := hproves.get_eq hfuel hc
  obtain rfl : v = current := Except.ok.inj (hv.symm.trans hcurrent)
  cases v with
  | none =>
      have habsent : owned c = none := hnone.1 rfl
      simp only [Option.isNone_none, if_true]
      obtain ⟨rfl, hp⟩ := hat
      refine ⟨by simp [habsent], .refl _, fun q _ => by rw [hp], ?_⟩
      rw [hp, show Function.update owned c none = owned by rw [← habsent, Function.update_eq_self]]
      exact howns
  | some v =>
      have hpresent : (owned c).isSome = true := by
        rw [Option.isSome_iff_ne_none]
        exact fun h => by simpa using hnone.2 h
      simp only [Option.isNone_some, Bool.false_eq_true, if_false]
      refine Triple.bind (triple_onBlocks fun _ w => hsame b (.refl b) w) ?_ w hat
      rintro champ' w ⟨b₂, hremove, hat⟩
      obtain ⟨hb₂, hproves'⟩ := hproves.remove hL hfuel hc hremove
      refine Triple.bind (triple_commitChamp hL hP hb₂ hfields hproves') (fun _ => ?_) w hat
      exact Triple.pure fun w hw => ⟨hpresent.symm, hw⟩

/-! ## Orphans -/

omit hL in
/-- The orphans are the keys that are owned and have no pointer. -/
theorem triple_orphanedWriters {writer : PublicKeyHash}
    (howns : Owns S sha256 b (p writer).updated owned fields) :
    Triple (At pointer b p) (orphanedWriters S P fuel owner writer)
      (fun res w => res.Nodup ∧ (∀ c, c ∈ res ↔ owned c ≠ none ∧ (p c).updated = none) ∧
        At pointer b p w) fails := by
  intro w hat
  obtain ⟨m, champ, w', hopen, -, hproves, hat⟩ := openChamp_run hP howns hat
  unfold orphanedWriters
  rw [Exec.bind_of_ok (Exec.attempt_of_run hopen)]
  obtain ⟨hroot, hparse, out, hout, hnodup, hkeys⟩ := hproves.collect hfuel
  have hread : ∀ {α : Type} {f : σ → Result α} {a : α}, f b = .ok a →
      readBlocks f w' = (.ok a, w') := by
    intro α f a hf
    simp [readBlocks, hat.1, hf]
  simp only
  rw [Exec.bind_of_ok (hread hroot)]
  simp only [Exec.pure_bind, hparse, Exec.lift_ok_bind]
  rw [Exec.bind_of_ok (hread hout)]
  obtain ⟨cs, hcs, howned⟩ : ∃ cs : List PublicKeyHash, out.map KeyElement.key = cs.map ownedKey ∧
      ∀ c ∈ cs, owned c ≠ none := by
    obtain ⟨cs, hcs⟩ : out.map KeyElement.key ∈
        Set.range (List.map fun c : {c // owned c ≠ none} => ownedKey c.1) := by
      rw [Set.range_list_map]
      intro k hk
      obtain ⟨c, hc, rfl⟩ := (hkeys k).1 hk
      exact ⟨⟨c, hc⟩, rfl⟩
    refine ⟨cs.map Subtype.val, by rw [← hcs, List.map_map]; rfl, fun c hc => ?_⟩
    obtain ⟨c, -, rfl⟩ := List.mem_map.1 hc
    exact c.2
  rw [hcs] at hnodup hkeys ⊢
  rw [List.foldlM_map]
  refine Triple.mono (Triple.foldlM (fun done res w =>
    At pointer b p w ∧ res = done.filter fun c => (p c).updated.isNone) ?_) (fun w hw => ⟨hw, rfl⟩)
    ?_ (fun _ _ h => h) w' hat
  · rintro done c rest rfl res
    unfold collectOrphan
    rw [readOwnedKey_ownedKey (hproves.keyable c (howned c (by simp))), Exec.lift_ok_bind]
    refine Triple.of_fact fun hres => ?_
    refine Triple.bind (triple_getPointer hP c) ?_
    rintro u w ⟨rfl, hat⟩
    refine ⟨hat, ?_⟩
    rw [hres]
    by_cases hc : (p c).updated.isNone <;> simp [List.filter_append, hc]
  · rintro res w ⟨hat, rfl⟩
    refine ⟨(List.Nodup.of_map _ hnodup).filter _, fun c => ?_, hat⟩
    rw [List.mem_filter, Option.isNone_iff_eq_none]
    refine and_congr_left fun _ => ⟨howned c, fun hc => ?_⟩
    obtain ⟨c', hc', hkey⟩ := List.mem_map.1 ((hkeys (ownedKey c)).2 ⟨c, hc, rfl⟩)
    exact ownedKey_inj (hproves.keyable c' (howned c' hc')) (hproves.keyable c hc) hkey ▸ hc'

/-- Letting go of some of the keys that are owned. -/
theorem triple_removeOrphans {orphans : List PublicKeyHash} (hnodup : orphans.Nodup)
    (howned : ∀ c ∈ orphans, owned c ≠ none) (hkeyable : ∀ c, owned c ≠ none → c.Keyable)
    (howns : Owns S sha256 b (p parent.publicKeyHash).updated owned fields) :
    Triple (At pointer b p) (removeOrphans S P fuel owner parent orphans)
      (fun n w => n = orphans.length ∧ Became S sha256 pointer b p parent.publicKeyHash
        (fun c => if c ∈ orphans then none else owned c) fields w)
      fun _ w => ∃ kept, (∀ c, kept c ≠ none → kept c = owned c) ∧
        Became S sha256 pointer b p parent.publicKeyHash kept fields w := by
  refine Triple.mono (Triple.foldlM (fun done n w => n = done.length ∧
    Became S sha256 pointer b p parent.publicKeyHash
      (fun c => if c ∈ done then none else owned c) fields w) ?_) ?_ (fun _ _ h => h)
    fun _ _ h => h
  · rintro done c rest rfl n w ⟨rfl, hext, hothers, howns'⟩
    have hc : c ∉ done := fun hmem =>
      (List.nodup_append.1 hnodup).2.2 c hmem c List.mem_cons_self rfl
    have hpresent : owned c ≠ none := howned c (by simp)
    have hstep : Triple (At pointer w.blocks (pointer w.pointers))
        (removeOwnedWriter S P fuel owner parent c) _ _ :=
      triple_removeOwnedWriter hL hP hfuel (hkeyable c hpresent) howns'
    refine Triple.bind (Triple.mono hstep (fun _ h => h) (fun _ _ h => h) ?_) ?_ w ⟨rfl, rfl⟩
    · rintro _ w' ⟨hext', hp⟩
      refine ⟨_, fun c' hc' => ?_, hext.trans hext', fun q hq => by rw [hp, hothers q hq],
        hp ▸ howns'.mono hext'⟩
      by_cases hmem : c' ∈ done
      · simp [hmem] at hc'
      · simp [hmem]
    · rintro gone w' ⟨rfl, hext', hothers', howns''⟩
      refine ⟨?_, hext.trans hext', fun q hq => ?_, ?_⟩
      · simp [hc, Option.isSome_iff_ne_none, hpresent]
      · rw [hothers' q hq, hothers q hq]
      · convert howns'' using 1
        funext c'
        by_cases heq : c' = c
        · simp [heq]
        · simp [heq]
  · rintro w ⟨rfl, rfl⟩
    exact ⟨rfl, .refl _, fun _ _ => rfl, by simpa using howns⟩

end Steps

/-! ## Runs -/

/-- What the writers that are kept account of own, and what else their data has. -/
abbrev Owners := PublicKeyHash → Option (Ownership × (String → Option CborObject))

/-- The owners, some of them without their orphans. -/
def Owners.without (A : Owners) (orphans : PublicKeyHash → List PublicKeyHash)
    (signers : List PublicKeyHash) : Owners := fun q =>
  if q ∈ signers then
    (A q).map fun o => (fun c => if c ∈ orphans q then none else o.1 c, o.2)
  else A q

section Without

variable {A : Owners} {orphans : PublicKeyHash → List PublicKeyHash} {signers : List PublicKeyHash}
  {owned : Ownership} {fields : String → Option CborObject} {q : PublicKeyHash}

@[simp] theorem Owners.without_nil (A : Owners) : A.without orphans [] = A := by
  funext q
  simp [without]

theorem Owners.without_of_mem (A : Owners) (hq : q ∈ signers) (hA : A q = some (owned, fields)) :
    A.without orphans signers q =
      some (fun c => if c ∈ orphans q then none else owned c, fields) := by
  simp [without, hq, hA]

theorem Owners.without_eq_none (A : Owners) :
    A.without orphans signers q = none ↔ A q = none := by
  unfold without
  split <;> simp

theorem Owners.of_without (A : Owners) (hA : A q = some (owned, fields)) {owned' : Ownership}
    {fields' : String → Option CborObject}
    (h : A.without orphans signers q = some (owned', fields')) :
    owned' = (fun c => if q ∈ signers ∧ c ∈ orphans q then none else owned c) ∧
      fields' = fields := by
  by_cases hq : q ∈ signers
  · rw [A.without_of_mem hq hA] at h
    cases h
    simp [hq]
  · rw [without, if_neg hq, hA] at h
    cases h
    simp [hq]

/-- One signer more without its orphans. -/
theorem Owners.without_append (A : Owners) (hA : A q = some (owned, fields)) :
    A.without orphans (signers ++ [q]) = Function.update (A.without orphans signers) q
      (some (fun c => if c ∈ orphans q then none else owned c, fields)) := by
  funext q'
  by_cases heq : q' = q
  · subst heq
    rw [Function.update_self, A.without_of_mem (by simp) hA]
  · rw [Function.update_of_ne heq]
    simp [without, heq]

end Without

section Runs

open Exec (Triple)

variable {σ π : Type} (S : ContentAddressedStorage σ) (P : MutablePointers π)
  (signMessage : Bytes → Bytes → Result Bytes) (sha256 : Bytes → Bytes) (fuel : ℕ)
  (pointer : π → PublicKeyHash → PointerUpdate) (owner : PublicKeyHash)

/-- The data of every such writer says what it owns. -/
def OwnersInv (w : WriterWorld σ π) (A : Owners) : Prop :=
  ∀ parent owned fields, A parent = some (owned, fields) →
    Owns S sha256 w.blocks (pointer w.pointers parent).updated owned fields

/-- Keys are taken on and let go, with or without success, while blocks are written and other
pointers move. -/
inductive OwnedRun (w₀ : WriterWorld σ π) (A₀ : Owners) : WriterWorld σ π → Owners → Prop
  | refl : OwnedRun w₀ A₀ w₀ A₀
  | added {w w' : WriterWorld σ π} {A : Owners} {parent child : SigningPrivateKeyAndPublicHash}
      {owned : Ownership} {fields : String → Option CborObject} {signed : Bytes}
      (h : OwnedRun w₀ A₀ w A) (hA : A parent.publicKeyHash = some (owned, fields))
      (hc : child.publicKeyHash.Keyable)
      (hsign : signMessage child.secret parent.publicKeyHash.toCbor.toBytes = .ok signed)
      (hcall : addOwnedWriter S P signMessage fuel owner parent child w = (.ok (), w')) :
      OwnedRun w₀ A₀ w' (Function.update A parent.publicKeyHash
        (some (Function.update owned child.publicKeyHash (some signed), fields)))
  | notAdded {w w' : WriterWorld σ π} {A : Owners} {parent child : SigningPrivateKeyAndPublicHash}
      {e : Fault} (h : OwnedRun w₀ A₀ w A) (hA : A parent.publicKeyHash ≠ none)
      (hc : child.publicKeyHash.Keyable)
      (hcall : addOwnedWriter S P signMessage fuel owner parent child w = (.error e, w')) :
      OwnedRun w₀ A₀ w' A
  | removed {w w' : WriterWorld σ π} {A : Owners} {parent : SigningPrivateKeyAndPublicHash}
      {child : PublicKeyHash} {owned : Ownership} {fields : String → Option CborObject}
      {gone : Bool} (h : OwnedRun w₀ A₀ w A) (hA : A parent.publicKeyHash = some (owned, fields))
      (hc : child.Keyable)
      (hcall : removeOwnedWriter S P fuel owner parent child w = (.ok gone, w')) :
      OwnedRun w₀ A₀ w' (Function.update A parent.publicKeyHash
        (some (Function.update owned child none, fields)))
  | notRemoved {w w' : WriterWorld σ π} {A : Owners} {parent : SigningPrivateKeyAndPublicHash}
      {child : PublicKeyHash} {e : Fault} (h : OwnedRun w₀ A₀ w A)
      (hA : A parent.publicKeyHash ≠ none) (hc : child.Keyable)
      (hcall : removeOwnedWriter S P fuel owner parent child w = (.error e, w')) :
      OwnedRun w₀ A₀ w' A
  | elsewhere {w w' : WriterWorld σ π} {A : Owners} (h : OwnedRun w₀ A₀ w A)
      (hext : S.Extends w.blocks w'.blocks)
      (hsame : ∀ parent, A parent ≠ none → pointer w'.pointers parent = pointer w.pointers parent) :
      OwnedRun w₀ A₀ w' A

variable {S P signMessage sha256 fuel pointer owner} {w₀ w w' : WriterWorld σ π} {A₀ A : Owners}
  {owned : Ownership} {fields : String → Option CborObject}

/-- One writer owns other keys, and nothing else changes. -/
theorem OwnersInv.became (h : OwnersInv S sha256 pointer w A) {parent : PublicKeyHash}
    (hw' : Became S sha256 pointer w.blocks (pointer w.pointers) parent owned fields w') :
    OwnersInv S sha256 pointer w' (Function.update A parent (some (owned, fields))) := by
  obtain ⟨hext, hothers, howns⟩ := hw'
  intro q owned' fields' hA
  by_cases hq : q = parent
  · subst hq
    rw [Function.update_self] at hA
    cases hA
    exact howns
  · rw [Function.update_of_ne hq] at hA
    rw [hothers q hq]
    exact (h q owned' fields' hA).mono hext

theorem OwnersInv.grown (h : OwnersInv S sha256 pointer w A)
    (hw' : Grown S pointer w.blocks (pointer w.pointers) w') : OwnersInv S sha256 pointer w' A := by
  obtain ⟨hext, hp⟩ := hw'
  intro q owned' fields' hA
  rw [hp]
  exact (h q owned' fields' hA).mono hext

variable (hL : S.Lawful sha256) (hP : P.CompareAndSwap pointer)
  (hfuel : Champ.hashCodeLength ≤ fuel)

include hL hP hfuel

/-- Whatever the calls did, every writer owns what was recorded and not let go. -/
theorem OwnedRun.inv (hrun : OwnedRun S P signMessage fuel pointer owner w₀ A₀ w A)
    (hinit : OwnersInv S sha256 pointer w₀ A₀) : OwnersInv S sha256 pointer w A := by
  induction hrun with
  | refl => exact hinit
  | @added w w' _ parent child _ _ _ _ hA hc hsign hcall ih =>
      have hstep : Triple (At pointer w.blocks (pointer w.pointers))
          (addOwnedWriter S P signMessage fuel owner parent child) _ _ :=
        triple_addOwnedWriter hL hP hfuel hc (ih _ _ _ hA)
      obtain ⟨signed, hsigned, hbecame⟩ := hstep.of_ok ⟨rfl, rfl⟩ hcall
      cases hsign.symm.trans hsigned
      exact ih.became hbecame
  | @notAdded w w' _ parent child _ _ hA hc hcall ih =>
      obtain ⟨⟨owned, fields⟩, hA⟩ := Option.ne_none_iff_exists'.1 hA
      have hstep : Triple (At pointer w.blocks (pointer w.pointers))
          (addOwnedWriter S P signMessage fuel owner parent child) _ _ :=
        triple_addOwnedWriter hL hP hfuel hc (ih _ _ _ hA)
      exact ih.grown (hstep.of_error ⟨rfl, rfl⟩ hcall)
  | @removed w w' _ parent child _ _ _ _ hA hc hcall ih =>
      have hstep : Triple (At pointer w.blocks (pointer w.pointers))
          (removeOwnedWriter S P fuel owner parent child) _ _ :=
        triple_removeOwnedWriter hL hP hfuel hc (ih _ _ _ hA)
      exact ih.became (hstep.of_ok ⟨rfl, rfl⟩ hcall).2
  | @notRemoved w w' _ parent child _ _ hA hc hcall ih =>
      obtain ⟨⟨owned, fields⟩, hA⟩ := Option.ne_none_iff_exists'.1 hA
      have hstep : Triple (At pointer w.blocks (pointer w.pointers))
          (removeOwnedWriter S P fuel owner parent child) _ _ :=
        triple_removeOwnedWriter hL hP hfuel hc (ih _ _ _ hA)
      exact ih.grown (hstep.of_error ⟨rfl, rfl⟩ hcall)
  | elsewhere _ hext hsame ih =>
      intro parent owned fields hA
      rw [hsame parent (by simp [hA])]
      exact (ih parent owned fields hA).mono hext

omit hL in
variable (owner) in
/-- The orphans of an owner can be listed in any state. -/
theorem OwnersInv.orphanedWriters_run (h : OwnersInv S sha256 pointer w A) {parent : PublicKeyHash}
    (hA : A parent = some (owned, fields)) :
    ∃ res w', orphanedWriters S P fuel owner parent w = (.ok res, w') ∧ res.Nodup ∧
      (∀ c, c ∈ res ↔ owned c ≠ none ∧ (pointer w.pointers c).updated = none) ∧
      At pointer w.blocks (pointer w.pointers) w' := by
  have hstep : Triple (At pointer w.blocks (pointer w.pointers))
      (orphanedWriters S P fuel owner parent) _ fun _ _ => False :=
    triple_orphanedWriters hP hfuel (h _ _ _ hA)
  have hpost := hstep w ⟨rfl, rfl⟩
  rcases horphans : orphanedWriters S P fuel owner parent w with ⟨_ | res, w'⟩
  · rw [horphans] at hpost
    exact absurd hpost not_false
  · rw [horphans] at hpost
    exact ⟨res, w', rfl, hpost⟩

omit hL hP hfuel in
/-- A writer that is kept account of has data. -/
theorem OwnersInv.updated_ne_none (h : OwnersInv S sha256 pointer w A) {parent : PublicKeyHash}
    (hA : A parent ≠ none) : (pointer w.pointers parent).updated ≠ none := by
  obtain ⟨⟨owned, fields⟩, hA⟩ := Option.ne_none_iff_exists'.1 hA
  obtain ⟨_, _, _, htarget, -⟩ := h _ _ _ hA
  simp [htarget]

omit hL hP hfuel in
theorem OwnersInv.keyable (h : OwnersInv S sha256 pointer w A) {parent : PublicKeyHash}
    (hA : A parent = some (owned, fields)) {c : PublicKeyHash} (hc : owned c ≠ none) :
    c.Keyable := by
  obtain ⟨_, _, _, _, _, _, _, hproves⟩ := h _ _ _ hA
  exact hproves.keyable c hc

/-- Removing the orphans of one signer takes them, each counted, and nothing else from anyone. -/
theorem OwnersInv.removeOrphans_ok (h : OwnersInv S sha256 pointer w A)
    {signer : SigningPrivateKeyAndPublicHash} (hA : A signer.publicKeyHash = some (owned, fields))
    {orphans : List PublicKeyHash} (hnodup : orphans.Nodup)
    (howned : ∀ c ∈ orphans, owned c ≠ none) {n : ℕ} {w₁ w' : WriterWorld σ π}
    (hat : At pointer w.blocks (pointer w.pointers) w₁)
    (hremove : removeOrphans S P fuel owner signer orphans w₁ = (.ok n, w')) :
    n = orphans.length ∧
      OwnersInv S sha256 pointer w' (Function.update A signer.publicKeyHash
        (some (fun c => if c ∈ orphans then none else owned c, fields))) ∧
      ∀ q, q ≠ signer.publicKeyHash → pointer w'.pointers q = pointer w.pointers q := by
  obtain ⟨rfl, hbecame⟩ := (triple_removeOrphans hL hP hfuel hnodup howned
    (fun _ hc => h.keyable hA hc) (h _ _ _ hA)).of_ok hat hremove
  exact ⟨rfl, h.became hbecame, hbecame.2.1⟩

omit hL hP hfuel in
/-- Removing orphans leaves every writer with a pointer or without one, as it was. -/
theorem OwnersInv.updated_none_iff (h : OwnersInv S sha256 pointer w A)
    {orphans : PublicKeyHash → List PublicKeyHash}
    {signers : List SigningPrivateKeyAndPublicHash}
    (h' : OwnersInv S sha256 pointer w' (A.without orphans (signers.map (·.publicKeyHash))))
    (hsigners : ∀ s ∈ signers, A s.publicKeyHash ≠ none)
    (hothers : ∀ q, q ∉ signers.map (·.publicKeyHash) →
      pointer w'.pointers q = pointer w.pointers q) (c : PublicKeyHash) :
    (pointer w'.pointers c).updated = none ↔ (pointer w.pointers c).updated = none := by
  by_cases hc : c ∈ signers.map (·.publicKeyHash)
  · obtain ⟨s, hs, rfl⟩ := List.mem_map.1 hc
    have hA := hsigners s hs
    exact iff_of_false (h'.updated_ne_none (mt A.without_eq_none.1 hA)) (h.updated_ne_none hA)
  · rw [hothers c hc]

/-- The signers of the loop so far are without their orphans. -/
theorem triple_removeOrphanedWriters (h : OwnersInv S sha256 pointer w A)
    {orphans : PublicKeyHash → List PublicKeyHash}
    (horphans : ∀ parent owned fields, A parent = some (owned, fields) →
      (orphanedWriters S P fuel owner parent w).1 = .ok (orphans parent) ∧
        (orphans parent).Nodup ∧
        ∀ c, c ∈ orphans parent ↔ owned c ≠ none ∧ (pointer w.pointers c).updated = none)
    {signers : List SigningPrivateKeyAndPublicHash}
    (hsigners : ∀ s ∈ signers, A s.publicKeyHash ≠ none) :
    Triple (· = w) (removeOrphanedWriters S P fuel owner signers)
      (fun n w' => n = ∑ q ∈ (signers.map (·.publicKeyHash)).toFinset, (orphans q).length ∧
        OwnersInv S sha256 pointer w' (A.without orphans (signers.map (·.publicKeyHash))) ∧
        ∀ q, q ∉ signers.map (·.publicKeyHash) → pointer w'.pointers q = pointer w.pointers q)
      fun _ _ => True := by
  refine Triple.mono (Triple.foldlM (fun done n w' =>
    n = ∑ q ∈ (done.map (·.publicKeyHash)).toFinset, (orphans q).length ∧
      OwnersInv S sha256 pointer w' (A.without orphans (done.map (·.publicKeyHash))) ∧
      ∀ q, q ∉ done.map (·.publicKeyHash) → pointer w'.pointers q = pointer w.pointers q) ?_) ?_
    (fun _ _ h => h) fun _ _ h => h
  · rintro done s rest rfl n w₁ ⟨rfl, hinv, hothers⟩
    have hsame := h.updated_none_iff hinv (fun t ht => hsigners t (by simp [ht])) hothers
    obtain ⟨⟨owned, fields⟩, hA⟩ := Option.ne_none_iff_exists'.1 (hsigners s (by simp))
    obtain ⟨-, hnodup, hmem⟩ := horphans _ _ _ hA
    obtain ⟨⟨owned₁, fields₁⟩, hA₁⟩ :=
      Option.ne_none_iff_exists'.1 (mt A.without_eq_none.1 (hsigners s (by simp)))
    obtain ⟨res, w₂, hres, hnodup₁, hmem₁, hat⟩ :=
      hinv.orphanedWriters_run owner hP hfuel hA₁
    dsimp only
    rw [Exec.bind_of_ok hres]
    rcases hremove : removeOrphans S P fuel owner s res w₂ with ⟨_ | gone, w₃⟩
    · rw [Exec.bind_of_error hremove]
      trivial
    rw [Exec.bind_of_ok hremove]
    obtain ⟨rfl, hinv', hothers'⟩ := hinv.removeOrphans_ok hL hP hfuel hA₁ hnodup₁
      (fun c hc => ((hmem₁ c).1 hc).1) hat hremove
    obtain ⟨rfl, rfl⟩ := A.of_without hA hA₁
    have hleft : ∀ c, c ∈ res ↔ s.publicKeyHash ∉ done.map (·.publicKeyHash) ∧
        c ∈ orphans s.publicKeyHash := by
      intro c
      have horphan := hmem c
      rw [hmem₁, hsame]
      by_cases hq : s.publicKeyHash ∈ done.map (·.publicKeyHash)
      · by_cases hc : c ∈ orphans s.publicKeyHash
        · simp [hq, hc]
        · simpa [hq, hc] using horphan
      · simp only [hq, false_and, if_false, not_false_eq_true, true_and]
        exact horphan.symm
    refine ⟨?_, ?_, fun q hq => ?_⟩
    · rw [List.map_append, List.toFinset_append]
      by_cases hq : s.publicKeyHash ∈ done.map (·.publicKeyHash)
      · have hnil : res = [] := List.eq_nil_iff_forall_not_mem.2 fun c hc => ((hleft c).1 hc).1 hq
        rw [hnil, Finset.union_eq_left.2 (by simpa using hq)]
        rfl
      · have hperm : res.Perm (orphans s.publicKeyHash) :=
          (List.perm_ext_iff_of_nodup hnodup₁ hnodup).2 fun c => by simp [hleft c, hq]
        have hnew : s.publicKeyHash ∉ (done.map (·.publicKeyHash)).toFinset := by simpa using hq
        rw [hperm.length_eq, List.map_singleton, List.toFinset_cons, List.toFinset_nil,
          Finset.union_comm, insert_empty_eq, Finset.singleton_union, Finset.sum_insert hnew,
          add_comm]
    · rw [List.map_append, List.map_singleton, A.without_append hA]
      convert hinv' using 4
      funext c
      by_cases hc : c ∈ orphans s.publicKeyHash
      · by_cases hq : s.publicKeyHash ∈ done.map (·.publicKeyHash) <;> simp [hleft c, hq, hc]
      · simp [hleft c, hc]
    · simp only [List.map_append, List.mem_append, List.map_cons, List.map_nil, List.mem_singleton,
        not_or] at hq
      rw [hothers' q hq.2, hothers q hq.1]
  · rintro w rfl
    exact ⟨rfl, by simpa using h, fun _ _ => rfl⟩

/-- **Removing the orphans.**  In whatever state a run of calls left the owners, `orphaned_writers`
lists, once each, the keys that an owner owns and that have no pointer.  To remove the orphans of
the user's signers counts each of them, takes exactly these from the signers, and changes no other
owner and no other pointer, and no signer has an orphan afterwards. -/
theorem orphans_removed_exactly (hinit : OwnersInv S sha256 pointer w₀ A₀)
    (hrun : OwnedRun S P signMessage fuel pointer owner w₀ A₀ w A) :
    ∃ orphans : PublicKeyHash → List PublicKeyHash,
      (∀ parent owned fields, A parent = some (owned, fields) →
        (orphanedWriters S P fuel owner parent w).1 = .ok (orphans parent) ∧
          (orphans parent).Nodup ∧
          ∀ c, c ∈ orphans parent ↔ owned c ≠ none ∧ (pointer w.pointers c).updated = none) ∧
      ∀ signers : List SigningPrivateKeyAndPublicHash,
        (∀ s ∈ signers, A s.publicKeyHash ≠ none) → ∀ n w',
        removeOrphanedWriters S P fuel owner signers w = (.ok n, w') →
        n = ∑ q ∈ (signers.map (·.publicKeyHash)).toFinset, (orphans q).length ∧
        OwnersInv S sha256 pointer w' (A.without orphans (signers.map (·.publicKeyHash))) ∧
        (∀ q, q ∉ signers.map (·.publicKeyHash) →
          pointer w'.pointers q = pointer w.pointers q) ∧
        ∀ s ∈ signers, (orphanedWriters S P fuel owner s.publicKeyHash w').1 = .ok [] := by
  have hinv := hrun.inv hL hP hfuel hinit
  have hlist : ∀ parent, ∃ res, ∀ owned fields, A parent = some (owned, fields) →
      (orphanedWriters S P fuel owner parent w).1 = .ok res ∧ res.Nodup ∧
        ∀ c, c ∈ res ↔ owned c ≠ none ∧ (pointer w.pointers c).updated = none := by
    intro parent
    rcases hA : A parent with _ | ⟨owned, fields⟩
    · exact ⟨[], fun _ _ h => absurd h (by simp)⟩
    · obtain ⟨res, w', horphans, hnodup, hmem, -⟩ :=
        hinv.orphanedWriters_run owner hP hfuel hA
      refine ⟨res, fun owned' fields' h => ?_⟩
      cases h
      exact ⟨by rw [horphans], hnodup, hmem⟩
  choose orphans horphans using hlist
  refine ⟨orphans, horphans, fun signers hsigners n w' hremove => ?_⟩
  have hloop := triple_removeOrphanedWriters hL hP hfuel hinv horphans hsigners
  obtain ⟨hcount, hinv', hothers⟩ := hloop.of_ok rfl hremove
  refine ⟨hcount, hinv', hothers, fun s hs => ?_⟩
  obtain ⟨⟨owned, fields⟩, hA⟩ := Option.ne_none_iff_exists'.1 (hsigners s hs)
  obtain ⟨res, w₂, hres, -, hmem', -⟩ := hinv'.orphanedWriters_run owner hP hfuel
    (A.without_of_mem (List.mem_map_of_mem hs) hA)
  rw [hres]
  refine congrArg Except.ok (List.eq_nil_iff_forall_not_mem.2 fun c hc => ?_)
  obtain ⟨hkept, hnone⟩ := (hmem' c).1 hc
  rw [hinv.updated_none_iff hinv' hsigners hothers] at hnone
  by_cases horphan : c ∈ orphans s.publicKeyHash
  · simp [horphan] at hkept
  · exact horphan (((horphans _ _ _ hA).2.2 c).2 ⟨by simpa [horphan] using hkept, hnone⟩)

end Runs

namespace OwnedWriters

/-- The worlds of a store in memory and a server in memory. -/
abbrev SampleWorld := WriterWorld (List (Cid × CborObject)) RamServer

/-- A server that has two writers, with the same data. -/
def ownersWith (blocks : List (Cid × CborObject)) (wd : Cid) : SampleWorld :=
  ⟨blocks, ⟨[(byteKey 0, ⟨none, some wd, some 1⟩), (byteKey 3, ⟨none, some wd, some 1⟩)], []⟩⟩

/-- Neither of the writers owns anything. -/
def nothingOwned (root : Cid) : Owners := fun parent =>
  if parent = byteKey 0 ∨ parent = byteKey 3 then
    some (fun _ => none, (CborObject.map [("owned", .merkleLink root.toBytes)]).get)
  else none

/-- Two writers that own nothing yet. -/
def freshOwners : Result SampleWorld := do
  let S := ContentAddressedStorage.memory Sha256.sha256
  let (root, s) ← S.put [] (Champ.empty.withBat none).toCbor
  let (wd, s) ← S.put s (.map [("owned", .merkleLink root.toBytes)])
  .ok (ownersWith s wd)

/-- A writer takes on another, which signs by repeating what it is given. -/
def takesOn (parent child : UInt8) : Exec SampleWorld Fault Unit :=
  addOwnedWriter (.memory Sha256.sha256) (RamServer.target Sha256.sha256 false).toMutablePointers
    (fun _ message => .ok message) 32 (byteKey 0) (byteSigner parent) (byteSigner child)

/-- The orphans of a writer. -/
def orphansOf (parent : UInt8) : Exec SampleWorld Fault (List PublicKeyHash) :=
  orphanedWriters (.memory Sha256.sha256) (RamServer.target Sha256.sha256 false).toMutablePointers
    32 (byteKey 0) (byteKey parent)

/-- The orphans of both writers are removed. -/
def removeAll : Exec SampleWorld Fault ℕ :=
  removeOrphanedWriters (.memory Sha256.sha256)
    (RamServer.target Sha256.sha256 false).toMutablePointers 32 (byteKey 0)
    [byteSigner 0, byteSigner 3]

/-- A run from a store in memory and a server in memory. -/
abbrev SampleRun := OwnedRun (.memory Sha256.sha256)
  (RamServer.target Sha256.sha256 false).toMutablePointers (fun _ message => .ok message) 32
  RamServer.pointer (byteKey 0)

/-- One of the writers that were taken on is given its data. -/
def given (w : SampleWorld) : SampleWorld :=
  ⟨w.blocks, { w.pointers with
    applied := (byteKey 2, ⟨none, some (byteCid 9), some 1⟩) :: w.pointers.applied }⟩

theorem keyable_byteKey (n : UInt8) : (byteKey n).Keyable := by
  revert n
  decide +kernel

/-- What a call that succeeded has left. -/
def after {α : Type} (x : Exec SampleWorld Fault α) (w : SampleWorld) : Result SampleWorld :=
  (x w).1.map fun _ => (x w).2

theorem of_after {x : Exec SampleWorld Fault Unit} {w w' : SampleWorld}
    (h : after x w = .ok w') : x w = (.ok (), w') := by
  unfold after at h
  rcases hx : x w with ⟨_ | _, w''⟩ <;> rw [hx] at h <;> cases h
  rfl

theorem ownersInv_freshOwners {root wd : Cid} {s₁ s₂ : List (Cid × CborObject)}
    (hroot : (ContentAddressedStorage.memory Sha256.sha256).put []
      (Champ.empty.withBat none).toCbor = .ok (root, s₁))
    (hwd : (ContentAddressedStorage.memory Sha256.sha256).put s₁
      (.map [("owned", .merkleLink root.toBytes)]) = .ok (wd, s₂)) :
    OwnersInv (.memory Sha256.sha256) Sha256.sha256 RamServer.pointer (ownersWith s₂ wd)
      (nothingOwned root) := by
  have howns := owns_created (ContentAddressedStorage.memory_lawful Sha256.sha256) hroot
    (m := [("owned", .merkleLink root.toBytes)]) rfl hwd
  intro parent owned fields hA
  unfold nothingOwned at hA
  split at hA
  · next hparent =>
      cases hA
      rcases hparent with rfl | rfl
      · exact howns
      · exact howns
  · cases hA

/-- The first of two writers has taken on two others and the second one, and one of the three has
been given its data. -/
theorem exists_adopted : ∃ (w₀ w : SampleWorld) (A₀ A : Owners),
    OwnersInv (.memory Sha256.sha256) Sha256.sha256 RamServer.pointer w₀ A₀ ∧
    SampleRun w₀ A₀ w A ∧ (removeAll w).1 = .ok 2 ∧
    (∃ owned fields, A (byteKey 0) = some (owned, fields) ∧
      ∀ c, owned c ≠ none ∧ (w.pointers.pointer c).updated = none ↔ c = byteKey 1) ∧
    ∃ owned fields, A (byteKey 3) = some (owned, fields) ∧
      ∀ c, owned c ≠ none ∧ (w.pointers.pointer c).updated = none ↔ c = byteKey 4 := by
  have heval : (freshOwners >>= after (takesOn 0 1) >>= after (takesOn 0 2) >>=
      after (takesOn 3 4)).toOption.map (fun w => ((w.pointers.pointer (byteKey 1)).updated,
        (w.pointers.pointer (byteKey 4)).updated, (removeAll (given w)).1)) =
      some (none, none, .ok 2) := by decide +kernel
  obtain ⟨w₃, hw₃, hnone⟩ := Option.map_eq_some_iff.1 heval
  obtain ⟨w₂, hw₂, h₃⟩ := bind_eq_ok.1 (eq_ok_of_toOption hw₃)
  obtain ⟨w₁, hw₁, h₂⟩ := bind_eq_ok.1 hw₂
  obtain ⟨w₀, h₀, h₁⟩ := bind_eq_ok.1 hw₁
  obtain ⟨⟨root, s₁⟩, hroot, h₀⟩ := bind_eq_ok.1 h₀
  obtain ⟨⟨wd, s₂⟩, hwd, h₀⟩ := bind_eq_ok.1 h₀
  cases h₀
  rw [Prod.mk.injEq, Prod.mk.injEq] at hnone
  obtain ⟨hone, hfour, hremoved⟩ := hnone
  have hstart : SampleRun (ownersWith s₂ wd) (nothingOwned root) _ _ := .refl
  have h30 : (byteSigner 3).publicKeyHash ≠ (byteSigner 0).publicKeyHash := by decide
  have hzero : nothingOwned root (byteSigner 0).publicKeyHash = some (fun _ => none,
      (CborObject.map [("owned", .merkleLink root.toBytes)]).get) := if_pos (.inl rfl)
  have hsecond := (hstart.added hzero (keyable_byteKey 1) rfl (of_after h₁)).added
    (Function.update_self ..) (keyable_byteKey 2) rfl (of_after h₂)
  have hthree : ∀ v v', Function.update (Function.update (nothingOwned root)
      (byteSigner 0).publicKeyHash v) (byteSigner 0).publicKeyHash v' (byteSigner 3).publicKeyHash =
        some (fun _ => none, (CborObject.map [("owned", .merkleLink root.toBytes)]).get) := by
    intro v v'
    rw [Function.update_of_ne h30, Function.update_of_ne h30]
    exact if_pos (.inr rfl)
  have hthird := hsecond.added (hthree _ _) (keyable_byteKey 4) rfl (of_after h₃)
  have hgiven : SampleRun _ _ (given w₃) _ := hthird.elsewhere (.refl _) fun parent hA => by
    rw [given, RamServer.pointer_cons, Function.update_of_ne]
    rintro rfl
    simp [nothingOwned, byteSigner, show byteKey 2 ≠ byteKey 0 by decide,
      show byteKey 2 ≠ byteKey 3 by decide] at hA
  refine ⟨_, _, _, _, ownersInv_freshOwners hroot hwd, hgiven, hremoved, ?_, _, _,
    Function.update_self .., fun c => ?_⟩
  · refine ⟨_, _, (Function.update_of_ne h30.symm ..).trans (Function.update_self ..), fun c => ?_⟩
    rw [given, RamServer.pointer_cons]
    have hne : byteKey 1 ≠ byteKey 2 := by decide
    by_cases hc : c = byteKey 2
    · simp [hc, hne.symm]
    · by_cases hc' : c = byteKey 1
      · simp [hc', hne, byteSigner, hone]
      · simp [hc, hc', byteSigner]
  · rw [given, RamServer.pointer_cons]
    have hne : byteKey 4 ≠ byteKey 2 := by decide
    by_cases hc : c = byteKey 4
    · simp [hc, hne, byteSigner, hfour]
    · simp [hc, byteSigner]

end OwnedWriters

open OwnedWriters in
/-- Two writers have taken on three others, of which one has been given its data; removing the
orphans of both lets the other two go. -/
theorem orphans_removed_exactly_sample :
    ∃ w w' : SampleWorld, (orphansOf 0 w).1 = .ok [byteKey 1] ∧
      (orphansOf 3 w).1 = .ok [byteKey 4] ∧ removeAll w = (.ok 2, w') ∧
      (orphansOf 0 w').1 = .ok [] ∧ (orphansOf 3 w').1 = .ok [] := by
  obtain ⟨w₀, w, A₀, A, hinit, hrun, hremoved, ⟨owned, fields, hA, hnone⟩, owned', fields', hA',
    hnone'⟩ := exists_adopted
  obtain ⟨orphans, horphans, hremove⟩ := orphans_removed_exactly
    (ContentAddressedStorage.memory_lawful Sha256.sha256)
    (RamServer.compareAndSwap Sha256.sha256 false) (by decide) hinit hrun
  have hsingle : ∀ (parent : PublicKeyHash) (owned : Ownership) fields c,
      A parent = some (owned, fields) →
      (∀ c', owned c' ≠ none ∧ (w.pointers.pointer c').updated = none ↔ c' = c) →
      (orphanedWriters (.memory Sha256.sha256)
        (RamServer.target Sha256.sha256 false).toMutablePointers 32 (byteKey 0) parent w).1 =
          .ok [c] := by
    intro parent owned fields c hA hc
    obtain ⟨hlist, hnodup, hmem⟩ := horphans parent owned fields hA
    rw [hlist]
    refine congrArg Except.ok (List.perm_singleton.1
      ((List.perm_ext_iff_of_nodup hnodup (List.nodup_singleton _)).2 fun c' => ?_))
    rw [hmem, hc, List.mem_singleton]
  obtain ⟨-, -, -, hafter⟩ := hremove [byteSigner 0, byteSigner 3]
    (by simp [byteSigner, hA, hA']) 2 (removeAll w).2 (Prod.ext hremoved rfl)
  exact ⟨w, _, hsingle _ _ _ _ hA hnone, hsingle _ _ _ _ hA' hnone', Prod.ext hremoved rfl,
    hafter (byteSigner 0) (by simp), hafter (byteSigner 3) (by simp)⟩

end Peergos
