import PeergosClient.Champ.DiffRuns
import PeergosClient.Core.Ram

/-!
# The blocks of a champ lookup

`champLookupLocal` collects the blocks on the paths of some map keys and the value blocks they lead
to, as a server does for its client, which then files them under hashes of its own and looks the
keys up in them.  The two traversals meet the same nodes as long as the champ hashes its keys by
the identity: then a lookup in the collected blocks answers as one in the whole store.
-/

namespace Peergos

/-- `ChunkMirrorCap`: a map key to look up.  Its BAT only authorises the reads. -/
structure ChunkMirrorCap where
  mapKey : Bytes
  deriving DecidableEq

namespace Champ

/-- What a lookup has gathered: the blocks it recorded, and the CIDs it has seen. -/
structure Gathered where
  recorded : List Bytes
  seen : List Bytes

namespace Gathered

/-- `if seen.insert(cid) { recorded.push(block) }`. -/
def record (g : Gathered) (cid : Cid) (block : Bytes) : Gathered :=
  if g.seen.contains cid.toBytes then g else ⟨g.recorded ++ [block], cid.toBytes :: g.seen⟩

end Gathered

section Lookup

variable {σ : Type} (raw : RawReads σ) (s : σ)

/-- The end of `champ_walk_one` at a mapping of the key: the block its value links to. -/
def walkValue (value : Option CborObject) (g : Gathered) : Result Gathered :=
  match value.bind CborObject.asLink with
  | none => .ok g
  | some link => do
      let vcid ← liftMf (Cid.cast link)
      match ← raw s vcid with
      | some vb => .ok (g.record vcid vb)
      | none => .ok g

/-- The loop of `champ_walk_one`.  Its `bit_set` and `popcount_below` are `bit_get` and `get_index`
of a champ node. -/
def champWalkOne : ℕ → Cid → Bytes → ℕ → Gathered → Result Gathered
  | 0, _, _, _, _ => .error .fuel
  | fuel + 1, current, mapKey, depth, g => do
      match ← raw s current with
      | none => .ok g
      | some bytes =>
          let g := g.record current bytes
          let cbor ← liftCbor (CborObject.fromBytes bytes)
          let champ ← fromCbor cbor
          let bit := mask mapKey depth bitWidth
          if bitGet champ.dataMap bit then
            match champ.contents[getIndex champ.dataMap bit]? with
            | some (.mappings mappings) =>
                match mappings.find? fun m => m.key = mapKey with
                | some m => walkValue raw s m.value g
                | none => .ok g
            | _ => .ok g
          else if bitGet champ.nodeMap bit then
            let linkIdx ← champ.linkIndex bit
            match champ.contents[linkIdx]? with
            | some (.link c) => champWalkOne fuel c mapKey (depth + 1) g
            | _ => .ok g
          else .ok g

/-- `champ_lookup_local`. -/
def champLookupLocal (fuel : ℕ) (root : Cid) (caps : List ChunkMirrorCap) : Result (List Bytes) := do
  let g ← caps.foldlM (fun g cap => champWalkOne raw s fuel root cap.mapKey 0 g) ⟨[], []⟩
  .ok g.recorded

end Lookup

/-! ## What is gathered -/

section Gathering

variable {σ : Type} {raw : RawReads σ} {s : σ}

/-- Every recorded block is one of the store, and every CID seen has its block recorded. -/
structure Gathered.Sound (raw : RawReads σ) (s : σ) (g : Gathered) : Prop where
  ofStore : ∀ b ∈ g.recorded, ∃ c, raw s c = .ok (some b)
  seen : ∀ x ∈ g.seen, ∃ c b, x = c.toBytes ∧ raw s c = .ok (some b) ∧ b ∈ g.recorded

/-- `g'` has what `g` has. -/
def Gathered.Below (g g' : Gathered) : Prop := ∀ b ∈ g.recorded, b ∈ g'.recorded

theorem Gathered.Below.trans {g g' g'' : Gathered} (h : g.Below g') (h' : g'.Below g'') :
    g.Below g'' := fun b hb => h' b (h b hb)

theorem Gathered.sound_nil : Gathered.Sound raw s ⟨[], []⟩ where
  ofStore := by rintro b ⟨⟩
  seen := by rintro x ⟨⟩

theorem Gathered.Sound.record {g : Gathered} (h : g.Sound raw s) {c : Cid} {b : Bytes}
    (hb : raw s c = .ok (some b)) : (g.record c b).Sound raw s ∧ g.Below (g.record c b) := by
  unfold Gathered.record
  split
  · exact ⟨h, fun x hx => hx⟩
  · refine ⟨⟨?_, ?_⟩, fun x hx => List.mem_append_left _ hx⟩
    · intro x hx
      rcases List.mem_append.1 hx with hx | hx
      · exact h.ofStore x hx
      · rw [List.mem_singleton.1 hx]
        exact ⟨c, hb⟩
    · intro x hx
      rcases List.mem_cons.1 hx with rfl | hx
      · exact ⟨c, b, rfl, hb, List.mem_append_right _ (List.mem_singleton_self b)⟩
      · obtain ⟨c', b', hc', hb', hmem⟩ := h.seen x hx
        exact ⟨c', b', hc', hb', List.mem_append_left _ hmem⟩

/-- A block met under its own hash is recorded, now or when its CID was seen first. -/
theorem Gathered.Sound.mem_record {g : Gathered} (h : g.Sound raw s) {c : Cid} {b : Bytes}
    (hb : raw s c = .ok (some b))
    (hv : ∀ c', c'.toBytes = c.toBytes → c' = c) : b ∈ (g.record c b).recorded := by
  unfold Gathered.record
  split
  · rename_i hseen
    obtain ⟨c', b', hc', hb', hmem⟩ := h.seen _ (List.contains_iff_mem.1 hseen)
    rw [hv c' hc'.symm, hb] at hb'
    cases hb'
    exact hmem
  · exact List.mem_append_right _ (List.mem_singleton_self b)

theorem walkValue_sound {value : Option CborObject} {g g' : Gathered} (h : g.Sound raw s)
    (hwalk : walkValue raw s value g = .ok g') : g'.Sound raw s ∧ g.Below g' := by
  unfold walkValue at hwalk
  split at hwalk
  · cases hwalk
    exact ⟨h, fun b hb => hb⟩
  · obtain ⟨vcid, -, hwalk⟩ := bind_eq_ok.1 hwalk
    obtain ⟨vb, hvb, hwalk⟩ := bind_eq_ok.1 hwalk
    cases vb with
    | none =>
        cases hwalk
        exact ⟨h, fun b hb => hb⟩
    | some vb =>
        cases hwalk
        exact h.record hvb

end Gathering

/-! ## The walk and the lookup -/

theorem getElem?_of_vecGet {α : Type} {v : List α} {i : ℕ} {x : α} (h : vecGet v i = .ok x) :
    v[i]? = some x := by
  unfold vecGet at h
  cases hx : v[i]? with
  | none => rw [hx] at h; cases h
  | some y => rw [hx] at h; cases h; rfl

/-- No other CID has the bytes of a hashed one. -/
theorem cid_eq_of_toBytes {c c' : Cid} (hv : c.version = .v1) (h : c'.toBytes = c.toBytes) :
    c' = c := by
  have hv' : c'.version = .v1 := by
    cases hv' : c'.version with
    | v1 => rfl
    | v0 =>
        have hhead := congrArg List.head? h
        unfold Cid.toBytes at hhead
        rw [hv, hv'] at hhead
        simp only [Multihash.toBytes, List.append_assoc] at hhead
        cases ht : c'.multihash.hashType <;> rw [ht] at hhead <;>
          exact absurd hhead (by simp [MultihashType.index, putUvarint, putUvarintLoop])
  have hcast := Cid.cast_toBytes hv'
  rw [h, Cid.cast_toBytes hv] at hcast
  exact (Except.ok.inj hcast).symm

section Walk

variable {σ ρ : Type} {S : ContentAddressedStorage σ} {sha256 : Bytes → Bytes}
  {bat : Option BatId} {s : σ} {raw : RawReads σ} {R : ContentAddressedStorage ρ} {r : ρ}

/-- The raw reads of a store are its blocks encoded, and the blocks decode. -/
def ReadsBlocks (S : ContentAddressedStorage σ) (raw : RawReads σ) (s : σ) : Prop :=
  ∀ c b, S.get s c = .ok (some b) →
    raw s c = .ok (some b.toBytes) ∧ CborObject.fromBytes b.toBytes = .ok b

/-- The store `R` answers for the recorded blocks of `S`. -/
def Serves (S : ContentAddressedStorage σ) (sha256 : Bytes → Bytes) (s : σ)
    (R : ContentAddressedStorage ρ) (r : ρ) (recorded : List Bytes) : Prop :=
  ∀ c b, S.Stored sha256 s c b → b.toBytes ∈ recorded → R.get r c = .ok (some b)

theorem Serves.mono {l l' : List Bytes} (h : Serves S sha256 s R r l') (hsub : ∀ b ∈ l, b ∈ l') :
    Serves S sha256 s R r l := fun c b hst hb => h c b hst (hsub _ hb)

/-- A walk over a canonical tree gathers what a lookup of its key reads. -/
theorem champWalkOne_spec (hraw : ReadsBlocks S raw s) (hbat : BatReadable bat) {k : Bytes}
    {fuel d : ℕ} {cid : Cid} {c : Champ} {es : List KeyElement} {g g' : Gathered}
    (h : Canonical S sha256 identityKeyHasher bat s d c es) (hn : NoNull es)
    (hst : S.Stored sha256 s cid c.toCbor) (hg : g.Sound raw s)
    (hwalk : champWalkOne raw s fuel cid k d g = .ok g') :
    g'.Sound raw s ∧ g.Below g' ∧ c.toCbor.toBytes ∈ g'.recorded ∧
      (Serves S sha256 s R r g'.recorded → ∀ fuel', hashCodeLength ≤ fuel' + d →
        get R fuel' r c k k d bitWidth = .ok (valueOf es k)) := by
  induction fuel generalizing d cid c es g with
  | zero => cases hwalk
  | succ fuel ih =>
      have hd := h.level_lt
      obtain ⟨hblock, hread⟩ := hraw _ _ hst.1
      have hparse := h.fromCbor_toCbor hn hbat
      obtain ⟨hg₁, hbelow₁⟩ := hg.record hblock
      have hmem₁ := hg.mem_record hblock fun c' => cid_eq_of_toBytes (buildCid_version hst.2)
      unfold champWalkOne at hwalk
      simp only [hblock, hread, hparse, liftCbor, ok_bind] at hwalk
      generalize g.record cid c.toCbor.toBytes = g₁ at hwalk hg₁ hbelow₁ hmem₁
      obtain ⟨-, f, rfl, hf⟩ := canonical_iff.1 h
      have hi : slotOf identityKeyHasher d k < slots := slotOf_lt _ _ _
      rw [show mask k d bitWidth = slotOf identityKeyHasher d k from rfl, bitGet_dataMap hi,
        bitGet_nodeMap hi] at hwalk
      have hvalue := valueOf_inSlot identityKeyHasher d es k
      have hn' := hn.inSlot identityKeyHasher d (slotOf identityKeyHasher d k)
      rcases hf _ hi with ⟨-, hsl⟩ | ⟨-, cid', child, hsl, hcid', hchild⟩
      · cases hms : inSlot identityKeyHasher d (slotOf identityKeyHasher d k) es with
        | nil =>
            rw [hms] at hsl hvalue
            rw [hsl] at hwalk
            cases hwalk
            refine ⟨hg₁, hbelow₁, hmem₁, ?_⟩
            intro _ fuel' hfuel'
            obtain ⟨n, rfl⟩ : ∃ n, fuel' = n + 1 := ⟨fuel' - 1, by omega⟩
            rw [← hvalue]
            simp only [get]
            rw [show mask k d bitWidth = slotOf identityKeyHasher d k from rfl, bitGet_dataMap hi,
              bitGet_nodeMap hi, hsl]
            rfl
        | cons m ms =>
            rw [hms] at hsl hvalue
            have hget : ∀ fuel', hashCodeLength ≤ fuel' + d →
                get R fuel' r (ofSlots f bat) k k d bitWidth = .ok (valueOf es k) := by
              intro fuel' hfuel'
              obtain ⟨n, rfl⟩ : ∃ n, fuel' = n + 1 := ⟨fuel' - 1, by omega⟩
              rw [← hvalue]
              simp only [get]
              rw [show mask k d bitWidth = slotOf identityKeyHasher d k from rfl, bitGet_dataMap hi,
                vecGet_bucket hi hsl, hsl]
              rfl
            rw [hsl, getElem?_of_vecGet (vecGet_bucket hi hsl)] at hwalk
            simp only [Slot.front, Slot.ofEntries, Option.isSome_some, if_true] at hwalk
            split at hwalk
            · obtain ⟨hg', hbelow'⟩ := walkValue_sound hg₁ hwalk
              exact ⟨hg', hbelow₁.trans hbelow', hbelow' _ hmem₁, fun _ => hget⟩
            · cases hwalk
              exact ⟨hg₁, hbelow₁, hmem₁, fun _ => hget⟩
      · rw [hsl, if_neg (show ¬ (Slot.shard cid').front.isSome = true from Bool.false_ne_true),
          if_pos (show (Slot.shard cid').back.isSome = true from rfl), linkIndex_shard hi hsl,
          ok_bind, getElem?_of_vecGet (vecGet_shard hi hsl)] at hwalk
        obtain ⟨hg', hbelow', hmem', hget⟩ := ih hchild hn' hcid' hg₁ hwalk
        refine ⟨hg', hbelow₁.trans hbelow', hbelow' _ hmem₁, ?_⟩
        intro hserves fuel' hfuel'
        obtain ⟨n, rfl⟩ : ∃ n, fuel' = n + 1 := ⟨fuel' - 1, by omega⟩
        rw [← hvalue]
        unfold get
        simp only
        rw [show mask k d bitWidth = slotOf identityKeyHasher d k from rfl, bitGet_dataMap hi,
          bitGet_nodeMap hi, hsl]
        simp only [Slot.front, Slot.back, Option.isSome_none, Option.isSome_some, if_true,
          Bool.false_eq_true, if_false, getChild]
        rw [show (ofSlots f bat).childLink k d bitWidth = .ok cid' from childLink_shard hsl, ok_bind,
          hserves _ _ hcid' hmem', ok_bind]
        simp only
        rw [hchild.fromCbor_toCbor hn' hbat]
        exact hget hserves n (by omega)

/-- The store answers for the block a value links to, if it links to one. -/
def LinkAnswered (raw : RawReads σ) (s : σ) (value : Option CborObject) : Prop :=
  ∀ link, value.bind CborObject.asLink = some link →
    ∃ vcid found, Cid.cast link = .ok vcid ∧ raw s vcid = .ok found

theorem exists_walkValue {value : Option CborObject} (h : LinkAnswered raw s value)
    (g : Gathered) : ∃ g', walkValue raw s value g = .ok g' := by
  unfold walkValue
  cases hl : value.bind CborObject.asLink with
  | none => exact ⟨g, rfl⟩
  | some link =>
      obtain ⟨vcid, found, hcast, hfound⟩ := h link hl
      simp only [hcast, liftMf, hfound, ok_bind]
      cases found with
      | none => exact ⟨g, rfl⟩
      | some vb => exact ⟨_, rfl⟩

/-- A walk over a canonical tree returns. -/
theorem exists_champWalkOne (hraw : ReadsBlocks S raw s) (hbat : BatReadable bat) {k : Bytes}
    {fuel d : ℕ} (hfuel : hashCodeLength ≤ fuel + d) {cid : Cid} {c : Champ}
    {es : List KeyElement} (g : Gathered)
    (h : Canonical S sha256 identityKeyHasher bat s d c es) (hn : NoNull es)
    (hst : S.Stored sha256 s cid c.toCbor) (hvalue : LinkAnswered raw s (valueOf es k)) :
    ∃ g', champWalkOne raw s fuel cid k d g = .ok g' := by
  induction fuel generalizing d cid c es g with
  | zero =>
      have := h.level_lt
      omega
  | succ fuel ih =>
      obtain ⟨hblock, hread⟩ := hraw _ _ hst.1
      have hparse := h.fromCbor_toCbor hn hbat
      unfold champWalkOne
      simp only [hblock, hread, hparse, liftCbor, ok_bind]
      generalize g.record cid c.toCbor.toBytes = g₁
      obtain ⟨-, f, rfl, hf⟩ := canonical_iff.1 h
      have hi : slotOf identityKeyHasher d k < slots := slotOf_lt _ _ _
      rw [show mask k d bitWidth = slotOf identityKeyHasher d k from rfl, bitGet_dataMap hi,
        bitGet_nodeMap hi]
      rw [← valueOf_inSlot identityKeyHasher d es k] at hvalue
      rcases hf _ hi with ⟨-, hsl⟩ | ⟨-, cid', child, hsl, hcid', hchild⟩
      · cases hms : inSlot identityKeyHasher d (slotOf identityKeyHasher d k) es with
        | nil =>
            rw [hms] at hsl
            rw [hsl]
            exact ⟨g₁, rfl⟩
        | cons m ms =>
            rw [hms] at hsl hvalue
            rw [hsl, getElem?_of_vecGet (vecGet_bucket hi hsl)]
            simp only [Slot.front, Slot.ofEntries, Option.isSome_some, if_true]
            cases hfind : (m :: ms).find? fun m => decide (m.key = k) with
            | none => exact ⟨g₁, rfl⟩
            | some x =>
                unfold valueOf Keyed.lookup at hvalue
                rw [hfind] at hvalue
                exact exists_walkValue hvalue g₁
      · rw [hsl, if_neg (show ¬ (Slot.shard cid').front.isSome = true from Bool.false_ne_true),
          if_pos (show (Slot.shard cid').back.isSome = true from rfl), linkIndex_shard hi hsl,
          ok_bind, getElem?_of_vecGet (vecGet_shard hi hsl)]
        exact ih (by omega) g₁ hchild (hn.inSlot identityKeyHasher d _) hcid' hvalue

/-- The walks of several map keys, one after the other. -/
theorem foldlM_champWalkOne_spec (hraw : ReadsBlocks S raw s) (hbat : BatReadable bat) {fuel : ℕ}
    {cid : Cid} {c : Champ} {es : List KeyElement}
    (h : Canonical S sha256 identityKeyHasher bat s 0 c es) (hn : NoNull es)
    (hst : S.Stored sha256 s cid c.toCbor) {caps : List ChunkMirrorCap} {g g' : Gathered}
    (hg : g.Sound raw s)
    (hwalk : caps.foldlM (fun g cap => champWalkOne raw s fuel cid cap.mapKey 0 g) g = .ok g') :
    g'.Sound raw s ∧ g.Below g' ∧ ∀ cap ∈ caps, c.toCbor.toBytes ∈ g'.recorded ∧
      (Serves S sha256 s R r g'.recorded → ∀ fuel', hashCodeLength ≤ fuel' →
        get R fuel' r c cap.mapKey cap.mapKey 0 bitWidth = .ok (valueOf es cap.mapKey)) := by
  induction caps generalizing g with
  | nil =>
      cases hwalk
      exact ⟨hg, fun b hb => hb, fun cap hcap => absurd hcap List.not_mem_nil⟩
  | cons cap caps ih =>
      rw [List.foldlM_cons] at hwalk
      obtain ⟨g₁, hone, hrest⟩ := bind_eq_ok.1 hwalk
      obtain ⟨hg₁, hbelow₁, hmem₁, hget₁⟩ :=
        champWalkOne_spec (R := R) (r := r) hraw hbat h hn hst hg hone
      obtain ⟨hg', hbelow', hall⟩ := ih hg₁ hrest
      refine ⟨hg', hbelow₁.trans hbelow', ?_⟩
      intro cap' hcap'
      rcases List.mem_cons.1 hcap' with rfl | hcap'
      · exact ⟨hbelow' _ hmem₁, fun hserves fuel' hfuel' =>
          hget₁ (hserves.mono hbelow') fuel' hfuel'⟩
      · exact hall cap' hcap'

theorem exists_foldlM_champWalkOne (hraw : ReadsBlocks S raw s) (hbat : BatReadable bat)
    {fuel : ℕ} (hfuel : hashCodeLength ≤ fuel) {cid : Cid} {c : Champ} {es : List KeyElement}
    (h : Canonical S sha256 identityKeyHasher bat s 0 c es) (hn : NoNull es)
    (hst : S.Stored sha256 s cid c.toCbor) {caps : List ChunkMirrorCap}
    (hvalues : ∀ cap ∈ caps, LinkAnswered raw s (valueOf es cap.mapKey)) (g : Gathered) :
    ∃ g', caps.foldlM (fun g cap => champWalkOne raw s fuel cid cap.mapKey 0 g) g = .ok g' := by
  induction caps generalizing g with
  | nil => exact ⟨g, rfl⟩
  | cons cap caps ih =>
      obtain ⟨g₁, hone⟩ := exists_champWalkOne hraw hbat (by omega) g h hn hst
        (hvalues cap (List.mem_cons_self ..))
      obtain ⟨g', hrest⟩ := ih (fun c hc => hvalues c (List.mem_cons_of_mem _ hc)) g₁
      exact ⟨g', by rw [List.foldlM_cons, hone, ok_bind, hrest]⟩

end Walk

end Champ

namespace ChampWrapper

open Champ

/-- Look a key up in a champ opened from its root. -/
def openAndGet {σ : Type} (S : ContentAddressedStorage σ) (fuel : ℕ) (s : σ) (rootHash : Cid)
    (keyHasher : KeyHasher) (rawKey : Bytes) : Result (Option CborObject) := do
  let w ← create S s rootHash keyHasher
  w.get S fuel s rawKey

/-- The blocks of a lookup suffice: loaded into an empty store in memory, they answer for each of
the map keys as the whole store does. -/
def LookupSuffices {σ : Type} (S : ContentAddressedStorage σ) (sha256 : Bytes → Bytes) (fuel : ℕ)
    (s : σ) (w : ChampWrapper) (caps : List ChunkMirrorCap) (blocks : List Bytes) : Prop :=
  ∃ ram, RamStorage.loadVerified sha256 blocks .new = .ok ram ∧
    ∀ cap ∈ caps,
      openAndGet (RamStorage.storage sha256) fuel ram w.rootHash w.keyHasher cap.mapKey =
        w.get S fuel s cap.mapKey

/-- The blocks `champ_lookup_local` returns suffice for a champ built with the identity hasher, in
a store no two of whose blocks have the same hash; and it returns if the store answers for the
values' links. -/
theorem champLookupLocal_suffices {σ : Type} (S : ContentAddressedStorage σ)
    (sha256 : Bytes → Bytes) (hL : S.Lawful sha256) (hlen : ∀ b, (sha256 b).length = 32)
    (raw : RawReads σ) (bat : Option BatId) (hbat : BatReadable bat) (fuel : ℕ)
    (hfuel : hashCodeLength ≤ fuel) (w : ChampWrapper) (s : σ) (hraw : ReadsBlocks S raw s)
    (hdistinct : ∀ c c' b b', raw s c = .ok (some b) → raw s c' = .ok (some b') →
      sha256 b = sha256 b' → b = b')
    (hw : Reachable S fuel identityKeyHasher bat NotNull w s) (caps : List ChunkMirrorCap) :
    (∀ walkFuel blocks, champLookupLocal raw s walkFuel w.rootHash caps = .ok blocks →
        LookupSuffices S sha256 fuel s w caps blocks) ∧
      ((∀ cap ∈ caps, ∀ value, w.get S fuel s cap.mapKey = .ok value → LinkAnswered raw s value) →
        ∀ walkFuel, hashCodeLength ≤ walkFuel →
          ∃ blocks, champLookupLocal raw s walkFuel w.rootHash caps = .ok blocks) := by
  obtain ⟨es, h⟩ := contains_of_reachable hL hbat hfuel (fun _ hv => hv) hw
  have hn := h.noNull fun _ hv => hv
  refine ⟨?_, ?_⟩
  swap
  · intro hvalues walkFuel hwalkFuel
    obtain ⟨g, hg⟩ := exists_foldlM_champWalkOne hraw hbat hwalkFuel h.canonical hn h.stored
      (fun cap hcap => hvalues cap hcap _ (h.get_eq hbat (fun _ hv => hv) hfuel cap.mapKey))
      ⟨[], []⟩
    exact ⟨g.recorded, by rw [champLookupLocal, hg, ok_bind]⟩
  intro walkFuel blocks hlookup
  obtain ⟨g, hwalk, hblocks⟩ := bind_eq_ok.1 hlookup
  cases hblocks
  obtain ⟨ram, hram⟩ := RamStorage.exists_loadVerified hlen g.recorded .new
  obtain ⟨hsound, -, hall⟩ := foldlM_champWalkOne_spec (R := RamStorage.storage sha256) (r := ram)
    hraw hbat h.canonical hn h.stored Gathered.sound_nil hwalk
  have hserves : Serves S sha256 s (RamStorage.storage sha256) ram g.recorded := by
    intro c b hst hb
    obtain ⟨hbytes, hread⟩ := hraw c b hst.1
    refine RamStorage.storage_get hram hst.2 ?_ hb hread
    intro b' hb' heq
    obtain ⟨c', hc'⟩ := hsound.ofStore b' hb'
    exact hdistinct _ _ _ _ hc' hbytes heq
  refine ⟨ram, hram, ?_⟩
  intro cap hcap
  obtain ⟨hroot, hget⟩ := hall cap hcap
  have hopen : create (RamStorage.storage sha256) ram w.rootHash w.keyHasher = .ok w := by
    unfold create
    rw [hserves _ _ h.stored hroot, ok_bind]
    simp only
    rw [h.canonical.fromCbor_toCbor hn hbat, ok_bind]
  rw [openAndGet, hopen, ok_bind, h.get_eq hbat (fun _ hv => hv) hfuel]
  unfold ChampWrapper.get
  rw [h.hasher]
  exact hget hserves fuel hfuel

/-! ## Sample lookups -/

/-- The raw reads of a store in memory. -/
def memoryRaw : RawReads (List (Cid × CborObject)) :=
  fun s c => .ok ((ContentAddressedStorage.find s c).map CborObject.toBytes)

theorem readsBlocks_memory {s : List (Cid × CborObject)}
    (h : ∀ p ∈ s, CborObject.fromBytes p.2.toBytes = .ok p.2) :
    ReadsBlocks (.memory Sha256.sha256) memoryRaw s := by
  intro c b hb
  have hfind : ContentAddressedStorage.find s c = some b := Except.ok.inj hb
  refine ⟨by rw [memoryRaw, hfind]; rfl, ?_⟩
  unfold ContentAddressedStorage.find at hfind
  obtain ⟨p, hp, rfl⟩ := Option.map_eq_some_iff.1 hfind
  exact h p (List.mem_of_find?_eq_some hp)

theorem distinct_memory {s : List (Cid × CborObject)}
    (h : ∀ p ∈ s, ∀ p' ∈ s, Sha256.sha256 p.2.toBytes = Sha256.sha256 p'.2.toBytes → p.2 = p'.2)
    (c c' : Cid) (b b' : Bytes) (hb : memoryRaw s c = .ok (some b))
    (hb' : memoryRaw s c' = .ok (some b')) (heq : Sha256.sha256 b = Sha256.sha256 b') :
    b = b' := by
  have hmem : ∀ {c b}, memoryRaw s c = .ok (some b) → ∃ p ∈ s, p.2.toBytes = b := by
    intro c b hb
    obtain ⟨x, hx, rfl⟩ := Option.map_eq_some_iff.1 (Except.ok.inj hb)
    obtain ⟨p, hp, rfl⟩ := Option.map_eq_some_iff.1 hx
    exact ⟨p, List.mem_of_find?_eq_some hp, rfl⟩
  obtain ⟨p, hp, rfl⟩ := hmem hb
  obtain ⟨p', hp', rfl⟩ := hmem hb'
  rw [h p hp p' hp' heq]

open ChampMerge (shardOps present_of_mem_shardOps)

/-- A mapped key and one that is not, in a champ with a node below its root. -/
theorem champLookupLocal_suffices_shard : ∃ w s blocks,
    session (.memory Sha256.sha256) 32 [] none identityKeyHasher shardOps = .ok (w, s) ∧
      champLookupLocal memoryRaw s 32 w.rootHash [⟨[8]⟩, ⟨[16]⟩] = .ok blocks ∧
      LookupSuffices (.memory Sha256.sha256) Sha256.sha256 32 s w [⟨[8]⟩, ⟨[16]⟩] blocks := by
  have heval : (do
      let r ← session (.memory Sha256.sha256) 32 [] none identityKeyHasher shardOps
      let _ ← champLookupLocal memoryRaw r.2 32 r.1.rootHash [⟨[8]⟩, ⟨[16]⟩]
      (.ok (decide (∀ p ∈ r.2, (CborObject.fromBytes p.2.toBytes).toOption = some p.2),
        decide (∀ p ∈ r.2, ∀ p' ∈ r.2,
          Sha256.sha256 p.2.toBytes = Sha256.sha256 p'.2.toBytes → p.2 = p'.2)) : Result _)) =
        .ok (true, true) := eq_ok_of_toOption (by decide +kernel)
  obtain ⟨⟨w, s⟩, hrun, heval⟩ := bind_eq_ok.1 heval
  dsimp only at heval
  obtain ⟨blocks, hlookup, heval⟩ := bind_eq_ok.1 heval
  obtain ⟨hread, hdistinct⟩ := Prod.mk.inj (Except.ok.inj heval)
  have hraw : ReadsBlocks (.memory Sha256.sha256) memoryRaw s := by
    refine readsBlocks_memory ?_
    intro p hp
    have hp' := of_decide_eq_true hread p hp
    cases hx : CborObject.fromBytes p.2.toBytes with
    | error e => rw [hx] at hp'; cases hp'
    | ok x => rw [hx] at hp'; cases hp'; rfl
  have hw : Reachable (.memory Sha256.sha256) 32 identityKeyHasher none NotNull w s :=
    reachable_session (fun op hop key expected value h =>
      (present_of_mem_shardOps hop key expected value h).notNull) hrun
  exact ⟨w, s, blocks, hrun, hlookup, (champLookupLocal_suffices _ _
    (ContentAddressedStorage.memory_lawful _) Sha256.length_sha256 memoryRaw none
    (by rintro b ⟨⟩) 32 (le_refl _) w s hraw (distinct_memory (of_decide_eq_true hdistinct)) hw
    [⟨[8]⟩, ⟨[16]⟩]).1 32 blocks hlookup⟩

/-- Hashed by SHA-256 the same champ is walked by the keys themselves: the path to `[0]` is not
collected, and the lookup in the blocks finds nothing where the champ has a value. -/
theorem champLookupLocal_not_suffices : ∃ w s blocks,
    session (.memory Sha256.sha256) 32 [] none Sha256.sha256 shardOps = .ok (w, s) ∧
      champLookupLocal memoryRaw s 32 w.rootHash [⟨[0]⟩] = .ok blocks ∧
      ¬ LookupSuffices (.memory Sha256.sha256) Sha256.sha256 32 s w [⟨[0]⟩] blocks := by
  have heval : (do
      let r ← session (.memory Sha256.sha256) 32 [] none Sha256.sha256 shardOps
      let blocks ← champLookupLocal memoryRaw r.2 32 r.1.rootHash [⟨[0]⟩]
      let ram ← RamStorage.loadVerified Sha256.sha256 blocks .new
      let value ← r.1.get (.memory Sha256.sha256) 32 r.2 [0]
      let found ← openAndGet (RamStorage.storage Sha256.sha256) 32 ram r.1.rootHash Sha256.sha256 [0]
      (.ok (value, found) : Result _)) = .ok (some (.str "a"), none) :=
    eq_ok_of_toOption (by decide +kernel)
  obtain ⟨⟨w, s⟩, hrun, heval⟩ := bind_eq_ok.1 heval
  dsimp only at heval
  obtain ⟨blocks, hlookup, heval⟩ := bind_eq_ok.1 heval
  obtain ⟨ram, hram, heval⟩ := bind_eq_ok.1 heval
  obtain ⟨value, hvalue, heval⟩ := bind_eq_ok.1 heval
  obtain ⟨found, hfound, heval⟩ := bind_eq_ok.1 heval
  have hhasher : w.keyHasher = Sha256.sha256 := by
    obtain ⟨es, h⟩ := contains_of_reachable (ContentAddressedStorage.memory_lawful _)
      (by rintro b ⟨⟩) (le_refl _) (fun _ hv => hv.notNull)
      (reachable_session (fun op hop => present_of_mem_shardOps hop) hrun)
    exact h.hasher
  refine ⟨w, s, blocks, hrun, hlookup, ?_⟩
  rintro ⟨ram', hram', hall⟩
  rw [hram] at hram'
  cases hram'
  have heq := hall ⟨[0]⟩ (List.mem_singleton_self _)
  rw [hhasher, hfound, hvalue] at heq
  obtain ⟨h1, h2⟩ := Prod.mk.inj (Except.ok.inj heval)
  have := Except.ok.inj heq
  rw [h1, h2] at this
  cases this

end ChampWrapper

end Peergos
