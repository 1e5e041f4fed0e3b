import PeergosClient.Champ.Lookup
import PeergosClient.Core.Mutable
import PeergosClient.Fs.CryptreeCache
import PeergosClient.Lib.Exec

/-!
# Lookups in blocks from a server

A chunk is looked up in the blocks a server sends for it, filed under CIDs of the client's own
computing, so that what a lookup finds is what the champ under the root holds, whether it is found
there or in the cache.  What it does not find need not be missing there: a block that was withheld
reads as an absent mapping, and is remembered as one.
-/

namespace Peergos

/-! ## Looking a chunk up -/

section Lookup

variable {σ κ ν : Type} (S : ContentAddressedStorage σ) (parse : κ → CborObject → Result ν)
  (fuel : ℕ)

/-- The end of `fetch_chunk_node`: the node that a value of the champ links to. -/
def fetchValue (s : σ) (rBaseKey : κ) (value : CborObject) : Result (Option ν) :=
  match value.asLink with
  | none => protocolErr "champ value is not a link"
  | some link => do
      let cryptreeCid ← liftMf (Cid.cast link)
      match ← S.get s cryptreeCid with
      | some cbor => (parse rBaseKey cbor).map some
      | none => .ok none

/-- `fetch_chunk_node`: the node at a map key, parsed with the key to read it with. -/
def ContentAddressedStorage.fetchChunkNode (s : σ) (champ : ChampWrapper) (rBaseKey : κ)
    (mapKey : Bytes) : Result (Option ν) := do
  match ← champ.get S fuel s mapKey with
  | none => .ok none
  | some value => fetchValue S parse s rBaseKey value

/-- A champ is opened and a chunk looked up in it. -/
def openAndFetch (s : σ) (root : Cid) (rBaseKey : κ) (mapKey : Bytes) : Result (Option ν) := do
  let champ ← ChampWrapper.create S s root identityKeyHasher
  ContentAddressedStorage.fetchChunkNode S parse fuel s champ rBaseKey mapKey

end Lookup

/-- `fetch_chunk_node_verified`, given what the server answers to `champ/get`. -/
def fetchChunkNodeVerified {κ ν : Type} [DecidableEq κ] (sha256 : Bytes → Bytes)
    (parse : κ → CborObject → Result ν) (fuel : ℕ) (root : Cid) (rBaseKey : κ) (mapKey : Bytes)
    (answer : Result (List Bytes)) : Exec (CryptreeCache κ ν) Fault (Option ν) := do
  match ← Exec.ofExcept fun cache => .ok (cache.get root mapKey rBaseKey) with
  | some hit => pure hit
  | none => do
      let blocks ← Exec.lift answer
      if blocks = [] then do
        Exec.ofExcept fun cache => (cache.putAbsent root mapKey).map ((), ·)
        pure none
      else do
        let ram ← Exec.lift (RamStorage.loadVerified sha256 blocks .new)
        let node ← Exec.lift
          (openAndFetch (RamStorage.storage sha256) parse fuel ram root rBaseKey mapKey)
        Exec.ofExcept fun cache => (cache.putLookup root mapKey rBaseKey node).map ((), ·)
        pure node

/-! ## What was filed -/

namespace RamStorage

variable {sha256 : Bytes → Bytes}

/-- Every block is filed under a CID of its hash. -/
def Genuine (sha256 : Bytes → Bytes) (m : RamStorage) : Prop :=
  ∀ k b, m k = some b → ∃ isRaw c, buildCid (sha256 b) isRaw = .ok c ∧ c.toBytes = k

theorem genuine_new : Genuine sha256 .new := by
  rintro k b ⟨⟩

theorem Genuine.update {m : RamStorage} (h : m.Genuine sha256) {b : Bytes} {isRaw : Bool} {c : Cid}
    (hc : buildCid (sha256 b) isRaw = .ok c) :
    Genuine sha256 (Function.update m c.toBytes (some b)) := by
  intro k b' hb
  by_cases hk : k = c.toBytes
  · subst hk
    rw [Function.update_self] at hb
    cases hb
    exact ⟨isRaw, c, hc, rfl⟩
  · rw [Function.update_of_ne hk] at hb
    exact h k b' hb

/-- What is under a CID after loading was there before or was among the blocks. -/
theorem loadVerified_spec {blocks : List Bytes} {m m' : RamStorage}
    (h : loadVerified sha256 blocks m = .ok m') :
    (m.Genuine sha256 → m'.Genuine sha256) ∧
      ∀ k b, m' k = some b → m k = some b ∨ b ∈ blocks := by
  induction blocks generalizing m with
  | nil =>
      cases h
      exact ⟨id, fun _ _ hb => .inl hb⟩
  | cons x blocks ih =>
      obtain ⟨r₁, h₁, h⟩ := bind_eq_ok.1 h
      obtain ⟨r₂, h₂, h⟩ := bind_eq_ok.1 h
      obtain ⟨c₁, hc₁, rfl⟩ := store_singleton h₁
      obtain ⟨c₂, hc₂, rfl⟩ := store_singleton h₂
      obtain ⟨hgenuine, hfrom⟩ := ih h
      refine ⟨fun hm => hgenuine ((hm.update hc₁).update hc₂), fun k b hb => ?_⟩
      rcases hfrom k b hb with hb | hb
      · simp only [Function.update_apply] at hb
        split_ifs at hb
        · exact .inr (by simp [Option.some.inj hb])
        · exact .inr (by simp [Option.some.inj hb])
        · exact .inl hb
      · exact .inr (List.mem_cons_of_mem _ hb)

/-- What two stores have under one CID has one hash. -/
theorem Genuine.hash_eq {m m' : RamStorage} (h : m.Genuine sha256) (h' : m'.Genuine sha256)
    {k b b' : Bytes} (hb : m k = some b) (hb' : m' k = some b') : sha256 b = sha256 b' := by
  obtain ⟨_, c, hc, rfl⟩ := h k b hb
  obtain ⟨_, c', hc', heq⟩ := h' _ b' hb'
  exact (buildCid_inj hc hc' heq.symm).1

/-- The block under a CID is among those that were sent; an identity CID holds its own. -/
def Served (whole : RamStorage) (blocks : List Bytes) (c : Cid) : Prop :=
  c.multihash.isIdentity = true ∨ ∃ b ∈ blocks, whole c.toBytes = some b

section Loaded

variable {whole ram : RamStorage} {blocks : List Bytes} (hwhole : whole.Genuine sha256)
  (hcollide : ∀ b ∈ blocks, ∀ k b', whole k = some b' → sha256 b = sha256 b' → b = b')
  (hload : loadVerified sha256 blocks .new = .ok ram)

include hwhole hcollide hload

/-- What was sent of the whole store is found, and nothing else. -/
theorem storage_get_loaded {c : Cid} (hc : whole.fetch c ≠ none) :
    (Served whole blocks c → (storage sha256).get ram c = (storage sha256).get whole c) ∧
      (¬Served whole blocks c → (storage sha256).get ram c = .ok none) := by
  obtain ⟨hgenuine, hfrom⟩ := loadVerified_spec hload
  by_cases hid : c.multihash.isIdentity = true
  · refine ⟨fun _ => by simp [storage, fetch, hid], fun h => absurd (Or.inl hid) h⟩
  have hfetch : ∀ m : RamStorage, m.fetch c = m c.toBytes := fun m => by simp [fetch, hid]
  obtain ⟨b, hb⟩ := Option.ne_none_iff_exists'.1 hc
  rw [hfetch] at hb
  constructor
  · rintro (hc | ⟨b', hmem, hb'⟩)
    · exact absurd hc hid
    rw [hb] at hb'
    cases hb'
    obtain ⟨isRaw, c', hc', heq⟩ := hwhole _ _ hb
    have hram : ram c.toBytes = some b := by
      rw [← heq]
      refine loadVerified_apply hload hc' (fun b' hb' hhash => ?_) (.inl hmem)
      exact hcollide b' hb' _ _ hb hhash
    simp only [storage, hfetch, hram, hb]
  · intro hnot
    have hram : ram c.toBytes = none := by
      by_contra hne
      obtain ⟨b', hb'⟩ := Option.ne_none_iff_exists'.1 hne
      rcases hfrom _ _ hb' with hnew | hmem
      · cases hnew
      · have hhash := (hgenuine genuine_new).hash_eq hwhole hb' hb
        have := hcollide b' hmem _ _ hb hhash
        subst this
        exact hnot (.inr ⟨b', hmem, hb⟩)
    simp only [storage, hfetch, hram]

end Loaded

end RamStorage

/-! ## The path of a key -/

namespace Champ

variable {σ ρ : Type} (S : ContentAddressedStorage σ)

/-- The links that a lookup follows below a node. -/
def nodesBelow : ℕ → σ → Champ → Bytes → ℕ → List Cid
  | 0, _, _, _, _ => []
  | fuel + 1, s, c, hash, depth =>
      let bitpos := mask hash depth bitWidth
      if bitGet c.dataMap bitpos then []
      else if bitGet c.nodeMap bitpos then
        match c.childLink hash depth bitWidth with
        | .error _ => []
        | .ok link =>
            link :: match getChild S s c hash depth bitWidth with
              | .ok (some child) => nodesBelow fuel s child hash (depth + 1)
              | _ => []
      else []

variable {S} {R : ContentAddressedStorage ρ} {s : σ} {r : ρ} {P : Cid → Prop}

/-- A lookup in a part of a store finds what the whole store does if it has every node on the path,
and finds nothing otherwise. -/
theorem get_of_part {fuel depth : ℕ} {c : Champ} (key : Bytes) {hash : Bytes}
    (hpart : ∀ link ∈ nodesBelow S fuel s c hash depth,
      (P link → R.get r link = S.get s link) ∧ (¬P link → R.get r link = .ok none))
    (hpresent : ∀ link ∈ nodesBelow S fuel s c hash depth, S.get s link ≠ .ok none) :
    ((∀ link ∈ nodesBelow S fuel s c hash depth, P link) →
        get R fuel r c key hash depth bitWidth = get S fuel s c key hash depth bitWidth) ∧
      ((∃ link ∈ nodesBelow S fuel s c hash depth, ¬P link) →
        get R fuel r c key hash depth bitWidth = .ok none) := by
  induction fuel generalizing c depth with
  | zero => exact ⟨fun _ => rfl, by rintro ⟨link, hlink, -⟩; cases hlink⟩
  | succ fuel ih =>
      simp only [nodesBelow] at hpart hpresent ⊢
      by_cases hdata : bitGet c.dataMap (mask hash depth bitWidth) = true
      · simp only [get, hdata, if_true, List.not_mem_nil, false_and, exists_false, false_imp_iff,
          and_true]
        exact fun _ => trivial
      by_cases hnode : bitGet c.nodeMap (mask hash depth bitWidth) = true
      swap
      · simp [get, hdata, hnode]
      simp only [get, hdata, hnode, if_true, if_false, Bool.false_eq_true] at hpart hpresent ⊢
      cases hlink : c.childLink hash depth bitWidth with
      | error e => simp [getChild, hlink, bind, Except.bind]
      | ok link =>
          simp only [hlink] at hpart hpresent ⊢
          obtain ⟨hyes, hno⟩ := hpart link List.mem_cons_self
          by_cases hserved : P link
          swap
          · have hR : getChild R r c hash depth bitWidth = .ok none := by
              simp only [getChild, hlink, ok_bind, hno hserved]
            refine ⟨fun hall => absurd (hall link List.mem_cons_self) hserved, fun _ => ?_⟩
            rw [hR, ok_bind]
          have hchild :
              getChild R r c hash depth bitWidth = getChild S s c hash depth bitWidth := by
            simp only [getChild, hlink, ok_bind, hyes hserved]
          rw [hchild]
          cases hc : getChild S s c hash depth bitWidth with
          | error e =>
              refine ⟨fun _ => rfl, ?_⟩
              rintro ⟨l, hl, hnot⟩
              simp only [List.mem_singleton] at hl
              exact absurd (hl ▸ hserved) hnot
          | ok child =>
              cases child with
              | none =>
                  refine ⟨fun _ => rfl, ?_⟩
                  rintro ⟨l, hl, hnot⟩
                  simp only [List.mem_singleton] at hl
                  exact absurd (hl ▸ hserved) hnot
              | some child =>
                  simp only [hc] at hpart hpresent
                  obtain ⟨hall, hsome⟩ :=
                    ih (fun l hl => hpart l (List.mem_cons_of_mem _ hl))
                      fun l hl => hpresent l (List.mem_cons_of_mem _ hl)
                  simp only [ok_bind]
                  refine ⟨fun h => hall fun l hl => h l (List.mem_cons_of_mem _ hl), ?_⟩
                  rintro ⟨l, hl, hnot⟩
                  rcases List.mem_cons.1 hl with rfl | hl
                  · exact absurd hserved hnot
                  · exact hsome ⟨l, hl, hnot⟩

end Champ

section Path

variable {σ ρ κ ν : Type} (S : ContentAddressedStorage σ)

/-- The block that a mapping links to. -/
def valueLink (found : Result (Option CborObject)) : List Cid :=
  match found with
  | .ok (some value) =>
      match value.asLink.map Cid.cast with
      | some (.ok cid) => [cid]
      | _ => []
  | _ => []

/-- The blocks that the lookup of a chunk reads below the root. -/
def pathBelow (fuel : ℕ) (s : σ) (root : Cid) (mapKey : Bytes) : List Cid :=
  match ChampWrapper.create S s root identityKeyHasher with
  | .error _ => []
  | .ok champ =>
      Champ.nodesBelow S fuel s champ.root mapKey 0 ++ valueLink (champ.get S fuel s mapKey)

variable {S} {R : ContentAddressedStorage ρ} {s : σ} {r : ρ} {P : Cid → Prop} {fuel : ℕ}
  {root : Cid} {mapKey : Bytes} {parse : κ → CborObject → Result ν} {rBaseKey : κ}

theorem mem_valueLink {found : Result (Option CborObject)} {cid : Cid} :
    cid ∈ valueLink found ↔ ∃ value link, found = .ok (some value) ∧ value.asLink = some link ∧
      Cid.cast link = .ok cid := by
  unfold valueLink
  constructor
  · intro h
    split at h
    · rename_i value
      cases hlink : value.asLink with
      | none => simp [hlink] at h
      | some link =>
          cases hcast : Cid.cast link with
          | error e => simp [hlink, hcast] at h
          | ok c =>
              simp only [hlink, hcast, Option.map_some, List.mem_singleton] at h
              exact ⟨value, link, rfl, hlink, by rw [h, hcast]⟩
    · cases h
  · rintro ⟨value, link, rfl, hlink, hcast⟩
    simp [hlink, hcast]

/-- The value of a mapping is fetched from a part of a store as from the whole, if the part has the
block it links to. -/
theorem fetchValue_of_served {value : CborObject}
    (hpart : ∀ cid ∈ valueLink (.ok (some value)), R.get r cid = S.get s cid) :
    fetchValue R parse r rBaseKey value = fetchValue S parse s rBaseKey value := by
  unfold fetchValue
  cases hlink : value.asLink with
  | none => rfl
  | some link =>
      cases hcast : Cid.cast link with
      | error e => simp only [hcast, liftMf, error_bind]
      | ok cid =>
          have hget := hpart cid (mem_valueLink.2 ⟨value, link, rfl, hlink, hcast⟩)
          simp only [hcast, liftMf, ok_bind, hget]

theorem fetchValue_of_withheld {value : CborObject} {cid : Cid}
    (hcid : cid ∈ valueLink (.ok (some value))) (hget : R.get r cid = .ok none) :
    fetchValue R parse r rBaseKey value = .ok none := by
  obtain ⟨value', link, hvalue, hlink, hcast⟩ := mem_valueLink.1 hcid
  cases hvalue
  simp only [fetchValue, hlink, hcast, liftMf, ok_bind, hget]

/-- The block that a mapping links to is there, so there is a chunk, or it is not read. -/
theorem fetchValue_ne_none {value : CborObject}
    (hpresent : ∀ cid ∈ valueLink (.ok (some value)), S.get s cid ≠ .ok none) :
    fetchValue S parse s rBaseKey value ≠ .ok none := by
  intro h
  unfold fetchValue at h
  cases hlink : value.asLink with
  | none =>
      simp only [hlink] at h
      cases h
  | some link =>
      simp only [hlink] at h
      cases hcast : Cid.cast link with
      | error e =>
          rw [hcast] at h
          cases h
      | ok cid =>
          simp only [hcast, liftMf, ok_bind] at h
          obtain ⟨found, hfound, h⟩ := bind_eq_ok.1 h
          cases found with
          | none =>
              exact hpresent cid (mem_valueLink.2 ⟨value, link, rfl, hlink, hcast⟩) hfound
          | some cbor =>
              cases hp : parse rBaseKey cbor with
              | error e => simp [hp, Except.map] at h
              | ok node => simp [hp, Except.map] at h

theorem keyHasher_of_create {S : ContentAddressedStorage σ} {s : σ} {H : KeyHasher}
    {champ : ChampWrapper} (h : ChampWrapper.create S s root H = .ok champ) :
    champ.keyHasher = H := by
  unfold ChampWrapper.create at h
  obtain ⟨o, -, h⟩ := bind_eq_ok.1 h
  cases o with
  | none => cases h
  | some raw =>
      obtain ⟨c, -, h⟩ := bind_eq_ok.1 h
      cases h
      rfl

variable (parse rBaseKey) in
/-- A part of a store that has the root. -/
theorem openAndFetch_of_part
    (hpart : ∀ c ∈ root :: pathBelow S fuel s root mapKey,
      (P c → R.get r c = S.get s c) ∧ (¬P c → R.get r c = .ok none))
    (hpresent : ∀ c ∈ root :: pathBelow S fuel s root mapKey, S.get s c ≠ .ok none)
    (hroot : P root) :
    ((∀ c ∈ pathBelow S fuel s root mapKey, P c) →
        openAndFetch R parse fuel r root rBaseKey mapKey =
          openAndFetch S parse fuel s root rBaseKey mapKey) ∧
      ((∃ c ∈ pathBelow S fuel s root mapKey, ¬P c) →
        openAndFetch R parse fuel r root rBaseKey mapKey = .ok none) := by
  have hcreate : ChampWrapper.create R r root identityKeyHasher =
      ChampWrapper.create S s root identityKeyHasher := by
    simp only [ChampWrapper.create, (hpart root List.mem_cons_self).1 hroot]
  unfold openAndFetch
  unfold pathBelow at hpart hpresent ⊢
  rw [hcreate]
  cases hchamp : ChampWrapper.create S s root identityKeyHasher with
  | error e => exact ⟨fun _ => rfl, by rintro ⟨c, hc, -⟩; cases hc⟩
  | ok champ =>
      simp only [hchamp] at hpart hpresent
      simp only [ok_bind]
      have hget : ∀ {τ : Type} (T : ContentAddressedStorage τ) (t : τ),
          champ.get T fuel t mapKey =
            Champ.get T fuel t champ.root mapKey mapKey 0 Champ.bitWidth := by
        intro τ T t
        rw [ChampWrapper.get, keyHasher_of_create hchamp]
        rfl
      obtain ⟨hsame, hnone⟩ := Champ.get_of_part (R := R) (r := r) (P := P) mapKey
        (fun l hl => hpart l (List.mem_cons_of_mem _ (List.mem_append_left _ hl)))
        fun l hl => hpresent l (List.mem_cons_of_mem _ (List.mem_append_left _ hl))
      rw [← hget, ← hget] at hsame
      rw [← hget] at hnone
      have hvalue : ∀ {value cid}, champ.get S fuel s mapKey = .ok (some value) →
          cid ∈ valueLink (.ok (some value)) →
          cid ∈ Champ.nodesBelow S fuel s champ.root mapKey 0 ++
            valueLink (champ.get S fuel s mapKey) := by
        intro value cid hfound hcid
        rw [hfound]
        exact List.mem_append_right _ hcid
      unfold ContentAddressedStorage.fetchChunkNode
      constructor
      · intro hall
        rw [hsame fun l hl => hall l (List.mem_append_left _ hl)]
        cases hfound : champ.get S fuel s mapKey with
        | error e => rfl
        | ok found =>
            cases found with
            | none => rfl
            | some value =>
                refine fetchValue_of_served fun cid hcid => ?_
                have hmem := hvalue hfound hcid
                exact (hpart cid (List.mem_cons_of_mem _ hmem)).1 (hall cid hmem)
      · rintro ⟨c, hc, hnot⟩
        by_cases hnodes : ∃ l ∈ Champ.nodesBelow S fuel s champ.root mapKey 0, ¬P l
        · rw [hnone hnodes, ok_bind]
        have hserved : ∀ l ∈ Champ.nodesBelow S fuel s champ.root mapKey 0, P l :=
          fun l hl => by_contra fun h => hnodes ⟨l, hl, h⟩
        rw [hsame hserved]
        rcases List.mem_append.1 hc with hc' | hc'
        · exact absurd (hserved c hc') hnot
        obtain ⟨value, link, hfound, hlink, hcast⟩ := mem_valueLink.1 hc'
        rw [hfound, ok_bind]
        exact fetchValue_of_withheld (mem_valueLink.2 ⟨value, link, rfl, hlink, hcast⟩)
          ((hpart c (List.mem_cons_of_mem _ hc)).2 hnot)

/-- In a store that has the blocks on the path, a chunk is absent only if the champ has no mapping
of its key. -/
theorem openAndFetch_eq_none
    (hpresent : ∀ c ∈ pathBelow S fuel s root mapKey, S.get s c ≠ .ok none) :
    openAndFetch S parse fuel s root rBaseKey mapKey = .ok none ↔
      ChampWrapper.openAndGet S fuel s root identityKeyHasher mapKey = .ok none := by
  unfold openAndFetch ChampWrapper.openAndGet
  unfold pathBelow at hpresent
  cases hchamp : ChampWrapper.create S s root identityKeyHasher with
  | error e => simp
  | ok champ =>
      simp only [hchamp] at hpresent
      simp only [ok_bind, ContentAddressedStorage.fetchChunkNode]
      cases hfound : champ.get S fuel s mapKey with
      | error e => simp
      | ok found =>
          cases found with
          | none => exact ⟨fun _ => rfl, fun _ => rfl⟩
          | some value =>
              simp only [ok_bind]
              refine iff_of_false (fetchValue_ne_none fun cid hcid => ?_) (by simp)
              exact hpresent cid (List.mem_append_right _ (by rw [hfound]; exact hcid))

end Path

/-! ## What a lookup returns -/

section Sound

variable {κ ν : Type} (sha256 : Bytes → Bytes)
  (parse : κ → CborObject → Result ν) (fuel : ℕ)

/-- The chunk as the champ in the whole store has it. -/
def heldChunk (whole : RamStorage) (root : Cid) (rBaseKey : κ) (mapKey : Bytes) :
    Result (Option ν) :=
  openAndFetch (RamStorage.storage sha256) parse fuel whole root rBaseKey mapKey

/-- What a lookup returns is what the champ holds, unless it is an error. -/
inductive SoundLookup (held : Result (Option ν)) : Result (Option ν) → Prop
  | same : SoundLookup held held
  | failed (e : Error) : SoundLookup held (.error (.err e))

theorem soundLookup_ok {held : Result (Option ν)} {node : Option ν} :
    SoundLookup held (.ok node) ↔ held = .ok node := by
  constructor
  · rintro ⟨⟩
    rfl
  · rintro rfl
    exact .same

/-- What is found in the blocks that were sent. -/
def lookupIn (root : Cid) (rBaseKey : κ) (mapKey : Bytes) (blocks : List Bytes) :
    Result (Option ν) :=
  if blocks = [] then .ok none
  else do
    let ram ← RamStorage.loadVerified sha256 blocks .new
    openAndFetch (RamStorage.storage sha256) parse fuel ram root rBaseKey mapKey

/-- The blocks that a lookup of a map key reads, the root's first. -/
def lookupPath (whole : RamStorage) (root : Cid) (mapKey : Bytes) : List Cid :=
  root :: pathBelow (RamStorage.storage sha256) fuel whole root mapKey

/-- What the server sends for a map key does not hide a mapping: there is none, or something is
sent, and if that has the root, it has the rest of the path as well. -/
def NothingWithheld (whole : RamStorage) (root : Cid) (mapKey : Bytes) (blocks : List Bytes) :
    Prop :=
  ChampWrapper.openAndGet (RamStorage.storage sha256) fuel whole root identityKeyHasher mapKey =
      .ok none ∨
    (blocks ≠ [] ∧ (RamStorage.Served whole blocks root →
      ∀ c ∈ lookupPath sha256 fuel whole root mapKey, RamStorage.Served whole blocks c))

variable {sha256 parse fuel} {whole : RamStorage} {root : Cid} {mapKey : Bytes}
  {blocks : List Bytes}

theorem storage_get_ne_none {m : RamStorage} {c : Cid} (h : m.fetch c ≠ none) :
    (RamStorage.storage sha256).get m c ≠ .ok none := by
  obtain ⟨b, hb⟩ := Option.ne_none_iff_exists'.1 h
  simp only [RamStorage.storage, hb]
  intro heq
  cases hread : liftCbor (CborObject.fromBytes b) with
  | error e => rw [hread] at heq; cases heq
  | ok x => rw [hread] at heq; cases heq

variable (parse) in
/-- The outcome of a lookup in what was sent, by what was sent. -/
theorem openAndFetch_loaded (hwhole : whole.Genuine sha256)
    (hcollide : ∀ b ∈ blocks, ∀ k b', whole k = some b' → sha256 b = sha256 b' → b = b')
    (hpresent : ∀ c ∈ lookupPath sha256 fuel whole root mapKey, whole.fetch c ≠ none)
    {ram : RamStorage} (hload : RamStorage.loadVerified sha256 blocks .new = .ok ram) (key : κ) :
    (¬RamStorage.Served whole blocks root →
        ∃ e, openAndFetch (RamStorage.storage sha256) parse fuel ram root key mapKey =
          .error (.err e)) ∧
      (RamStorage.Served whole blocks root →
        ((∀ c ∈ lookupPath sha256 fuel whole root mapKey, RamStorage.Served whole blocks c) →
          openAndFetch (RamStorage.storage sha256) parse fuel ram root key mapKey =
            heldChunk sha256 parse fuel whole root key mapKey) ∧
        (¬(∀ c ∈ lookupPath sha256 fuel whole root mapKey, RamStorage.Served whole blocks c) →
          openAndFetch (RamStorage.storage sha256) parse fuel ram root key mapKey =
            .ok none)) := by
  have hpart : ∀ c ∈ lookupPath sha256 fuel whole root mapKey,
      (RamStorage.Served whole blocks c →
        (RamStorage.storage sha256).get ram c = (RamStorage.storage sha256).get whole c) ∧
      (¬RamStorage.Served whole blocks c → (RamStorage.storage sha256).get ram c = .ok none) :=
    fun c hc => RamStorage.storage_get_loaded hwhole hcollide hload (hpresent c hc)
  constructor
  · intro hroot
    refine ⟨.protocolCid "Champ root not present: " root, ?_⟩
    rw [openAndFetch, ChampWrapper.create, (hpart root List.mem_cons_self).2 hroot]
    rfl
  · intro hroot
    obtain ⟨hall, hsome⟩ := openAndFetch_of_part parse key hpart
      (fun c hc => storage_get_ne_none (hpresent c hc)) hroot
    refine ⟨fun h => hall fun c hc => h c (List.mem_cons_of_mem _ hc), fun h => hsome ?_⟩
    push Not at h
    obtain ⟨c, hc, hnot⟩ := h
    rcases List.mem_cons.1 hc with rfl | hc
    · exact absurd hroot hnot
    · exact ⟨c, hc, hnot⟩

variable (parse) in
theorem heldChunk_eq_none
    (hpresent : ∀ c ∈ lookupPath sha256 fuel whole root mapKey, whole.fetch c ≠ none) (key : κ) :
    heldChunk sha256 parse fuel whole root key mapKey = .ok none ↔
      ChampWrapper.openAndGet (RamStorage.storage sha256) fuel whole root identityKeyHasher
        mapKey = .ok none :=
  openAndFetch_eq_none fun c hc => storage_get_ne_none (hpresent c (List.mem_cons_of_mem _ hc))

variable (parse) in
/-- What is found in the blocks that were sent is sound exactly if nothing was withheld: whatever
bytes they are, as long as none of them collides with a block of the champ. -/
theorem lookupIn_sound_iff (hlen : ∀ b, (sha256 b).length = 32) (hwhole : whole.Genuine sha256)
    (hcollide : ∀ b ∈ blocks, ∀ k b', whole k = some b' → sha256 b = sha256 b' → b = b')
    (hpresent : ∀ c ∈ lookupPath sha256 fuel whole root mapKey, whole.fetch c ≠ none)
    (rBaseKey : κ) :
    SoundLookup (heldChunk sha256 parse fuel whole root rBaseKey mapKey)
        (lookupIn sha256 parse fuel root rBaseKey mapKey blocks) ↔
      NothingWithheld sha256 fuel whole root mapKey blocks := by
  unfold lookupIn NothingWithheld
  by_cases hempty : blocks = []
  · simp only [hempty, if_true, ne_eq, not_true_eq_false, false_and, or_false]
    exact soundLookup_ok.trans (heldChunk_eq_none parse hpresent rBaseKey)
  obtain ⟨ram, hload⟩ := RamStorage.exists_loadVerified hlen blocks .new
  obtain ⟨hunserved, hserved⟩ := openAndFetch_loaded parse hwhole hcollide hpresent hload rBaseKey
  simp only [hempty, if_false, hload, ok_bind]
  by_cases hroot : RamStorage.Served whole blocks root
  swap
  · obtain ⟨e, he⟩ := hunserved hroot
    rw [he]
    exact iff_of_true (.failed e) (.inr ⟨hempty, fun h => absurd h hroot⟩)
  obtain ⟨hall, hsome⟩ := hserved hroot
  by_cases hpath : ∀ c ∈ lookupPath sha256 fuel whole root mapKey,
      RamStorage.Served whole blocks c
  · rw [hall hpath]
    exact iff_of_true .same (.inr ⟨hempty, fun _ => hpath⟩)
  · rw [hsome hpath]
    refine (soundLookup_ok.trans (heldChunk_eq_none parse hpresent rBaseKey)).trans ?_
    exact ⟨.inl, fun h => h.resolve_right fun h => hpath (h.2 hroot)⟩

end Sound

/-! ## Lookups with a cache -/

/-- A lookup, with the blocks or the error that the server answers. -/
structure Lookup (κ : Type) where
  root : Cid
  rBaseKey : κ
  mapKey : Bytes
  answer : Except Error (List Bytes)

namespace Lookup

section Runs

variable {κ ν : Type} [DecidableEq κ] (sha256 : Bytes → Bytes)
  (parse : κ → CborObject → Result ν) (fuel : ℕ)

/-- The lookup as it is made. -/
def run (l : Lookup κ) : Exec (CryptreeCache κ ν) Fault (Option ν) :=
  fetchChunkNodeVerified sha256 parse fuel l.root l.rBaseKey l.mapKey (l.answer.mapError .err)

/-- What the champ holds for a reader. -/
def Held (whole : RamStorage) (root : Cid) (mapKey : Bytes) (key : κ) (node : Option ν) : Prop :=
  heldChunk sha256 parse fuel whole root key mapKey = .ok node

/-- The champ is there, and nothing that was sent collides with a block of it. -/
structure Proper (whole : RamStorage) (l : Lookup κ) : Prop where
  present : ∀ c ∈ lookupPath sha256 fuel whole l.root l.mapKey, whole.fetch c ≠ none
  distinct : ∀ blocks, l.answer = .ok blocks →
    ∀ b ∈ blocks, ∀ k b', whole k = some b' → sha256 b = sha256 b' → b = b'

/-- The server hides nothing. -/
def Honest (whole : RamStorage) (l : Lookup κ) : Prop :=
  ∀ blocks, l.answer = .ok blocks → NothingWithheld sha256 fuel whole l.root l.mapKey blocks

variable {sha256 parse fuel} {whole : RamStorage} {l : Lookup κ} {cache : CryptreeCache κ ν}

theorem cacheGet_run {root : Cid} {mapKey : Bytes} {key : κ} {hit : Option (Option ν)}
    {cache' : CryptreeCache κ ν} (h : cache.get root mapKey key = (hit, cache')) :
    (Exec.ofExcept fun c : CryptreeCache κ ν => .ok (c.get root mapKey key) : Exec _ Fault _)
      cache = (.ok hit, cache') := by
  simp [Exec.ofExcept, h]

/-- A lookup that misses the cache finds what was sent, and keeps it. -/
theorem run_of_miss (hmiss : (cache.get l.root l.mapKey l.rBaseKey).1 = none) {blocks : List Bytes}
    (hanswer : l.answer = .ok blocks) :
    l.run sha256 parse fuel cache =
      match lookupIn sha256 parse fuel l.root l.rBaseKey l.mapKey blocks with
      | .error e => (.error e, (cache.get l.root l.mapKey l.rBaseKey).2)
      | .ok node =>
          match (cache.get l.root l.mapKey l.rBaseKey).2.putLookup l.root l.mapKey l.rBaseKey
            node with
          | .error e => (.error e, (cache.get l.root l.mapKey l.rBaseKey).2)
          | .ok cache' => (.ok node, cache') := by
  rcases hget : cache.get l.root l.mapKey l.rBaseKey with ⟨hit, cache'⟩
  rw [hget] at hmiss
  obtain rfl : hit = none := hmiss
  unfold run fetchChunkNodeVerified lookupIn
  rw [Exec.bind_of_ok (cacheGet_run hget), hanswer]
  simp only [Except.mapError, Exec.lift_ok_bind]
  by_cases hempty : blocks = []
  · simp only [hempty, if_true, CryptreeCache.putLookup]
    rw [Exec.bind_run, Exec.ofExcept]
    cases cache'.putAbsent l.root l.mapKey <;> rfl
  · simp only [hempty, if_false]
    cases RamStorage.loadVerified sha256 blocks .new with
    | error e => rfl
    | ok ram =>
        simp only [Exec.lift_ok_bind, ok_bind]
        cases openAndFetch (RamStorage.storage sha256) parse fuel ram l.root l.rBaseKey
          l.mapKey with
        | error e => rfl
        | ok node =>
            simp only [Exec.lift_ok_bind]
            rw [Exec.bind_run, Exec.ofExcept]
            cases cache'.putLookup l.root l.mapKey l.rBaseKey node <;> rfl

theorem run_of_hit {node : Option ν} (hhit : (cache.get l.root l.mapKey l.rBaseKey).1 = some node) :
    l.run sha256 parse fuel cache =
      (.ok node, (cache.get l.root l.mapKey l.rBaseKey).2) := by
  rcases hget : cache.get l.root l.mapKey l.rBaseKey with ⟨hit, cache'⟩
  rw [hget] at hhit
  obtain rfl : hit = some node := hhit
  unfold run fetchChunkNodeVerified
  rw [Exec.bind_of_ok (cacheGet_run hget)]
  rfl

theorem run_of_refused (hmiss : (cache.get l.root l.mapKey l.rBaseKey).1 = none) {e : Error}
    (hanswer : l.answer = .error e) :
    l.run sha256 parse fuel cache =
      (.error (.err e), (cache.get l.root l.mapKey l.rBaseKey).2) := by
  rcases hget : cache.get l.root l.mapKey l.rBaseKey with ⟨hit, cache'⟩
  rw [hget] at hmiss
  obtain rfl : hit = none := hmiss
  unfold run fetchChunkNodeVerified
  rw [Exec.bind_of_ok (cacheGet_run hget), hanswer]
  rfl

omit [DecidableEq κ] in
/-- What a lookup found, if it is sound, may be kept for all readers it is handed to. -/
theorem truthful_of_sound (hproper : l.Proper sha256 fuel whole) {node : Option ν}
    (hheld : heldChunk sha256 parse fuel whole l.root l.rBaseKey l.mapKey = .ok node) :
    (CryptreeCache.CacheOp.putLookup l.root l.mapKey l.rBaseKey node).Truthful
      (Held sha256 parse fuel whole) := by
  cases node with
  | some node => exact hheld
  | none =>
      exact fun key => (heldChunk_eq_none parse hproper.present key).2
        ((heldChunk_eq_none parse hproper.present l.rBaseKey).1 hheld)

/-- A lookup where nothing is withheld is sound, and what it leaves in the cache is true. -/
theorem run_honest (hlen : ∀ b, (sha256 b).length = 32) (hwhole : whole.Genuine sha256)
    (hcache : cache.Faithful (Held sha256 parse fuel whole)) (hproper : l.Proper sha256 fuel whole)
    (hhonest : l.Honest sha256 fuel whole) :
    SoundLookup (heldChunk sha256 parse fuel whole l.root l.rBaseKey l.mapKey)
        (l.run sha256 parse fuel cache).1 ∧
      (l.run sha256 parse fuel cache).2.Faithful (Held sha256 parse fuel whole) := by
  have htouched : (cache.get l.root l.mapKey l.rBaseKey).2.Faithful _ := hcache.get_snd
  cases hhit : (cache.get l.root l.mapKey l.rBaseKey).1 with
  | some node =>
      rw [run_of_hit hhit]
      exact ⟨soundLookup_ok.2 (hcache.get_fst hhit), htouched⟩
  | none =>
      cases hanswer : l.answer with
      | error e =>
          rw [run_of_refused hhit hanswer]
          exact ⟨.failed e, htouched⟩
      | ok blocks =>
          have hsound := (lookupIn_sound_iff parse hlen hwhole
            (hproper.distinct blocks hanswer) hproper.present l.rBaseKey).2 (hhonest blocks hanswer)
          rw [run_of_miss hhit hanswer]
          cases hfound : lookupIn sha256 parse fuel l.root l.rBaseKey l.mapKey blocks with
          | error e =>
              rw [hfound] at hsound
              exact ⟨hsound, htouched⟩
          | ok node =>
              rw [hfound] at hsound
              obtain ⟨cache', hput, hfaithful⟩ :=
                htouched.apply (truthful_of_sound hproper (soundLookup_ok.1 hsound))
              simp only [CryptreeCache.apply] at hput
              simp only [hput]
              exact ⟨hsound, hfaithful⟩

/-- Lookups one after another. -/
def runAll (sha256 : Bytes → Bytes) (parse : κ → CborObject → Result ν) (fuel : ℕ)
    (lookups : List (Lookup κ)) (cache : CryptreeCache κ ν) : CryptreeCache κ ν :=
  lookups.foldl (fun cache l => (l.run sha256 parse fuel cache).2) cache

variable (parse) in
theorem runAll_faithful (hlen : ∀ b, (sha256 b).length = 32) (hwhole : whole.Genuine sha256)
    {lookups : List (Lookup κ)} (hproper : ∀ l ∈ lookups, l.Proper sha256 fuel whole)
    (hhonest : ∀ l ∈ lookups, l.Honest sha256 fuel whole)
    (hcache : cache.Faithful (Held sha256 parse fuel whole)) :
    (runAll sha256 parse fuel lookups cache).Faithful (Held sha256 parse fuel whole) := by
  induction lookups generalizing cache with
  | nil => exact hcache
  | cons l lookups ih =>
      rw [List.forall_mem_cons] at hproper hhonest
      exact ih hproper.2 hhonest.2 (run_honest hlen hwhole hcache hproper.1 hhonest.1).2

end Runs

end Lookup

/-- After any number of lookups from which nothing was withheld, another one that a server answers
with any blocks is sound exactly if it is cached or nothing is withheld from it, as long as no block
collides with one of the champ. -/
theorem verifiedLookup_sound_iff {κ ν : Type} [DecidableEq κ] (sha256 : Bytes → Bytes)
    (hlen : ∀ b, (sha256 b).length = 32) (parse : κ → CborObject → Result ν) (fuel cap : ℕ)
    (whole : RamStorage) (hwhole : whole.Genuine sha256) (earlier : List (Lookup κ))
    (hearlier : ∀ l ∈ earlier, l.Proper sha256 fuel whole)
    (hhonest : ∀ l ∈ earlier, l.Honest sha256 fuel whole) (l : Lookup κ)
    (hl : l.Proper sha256 fuel whole) (blocks : List Bytes) (hanswer : l.answer = .ok blocks) :
    SoundLookup (heldChunk sha256 parse fuel whole l.root l.rBaseKey l.mapKey)
        (l.run sha256 parse fuel
          (Lookup.runAll sha256 parse fuel earlier (.withCapacity cap))).1 ↔
      ((Lookup.runAll sha256 parse fuel earlier (.withCapacity cap)).get l.root l.mapKey
          l.rBaseKey).1 ≠ none ∨
        NothingWithheld sha256 fuel whole l.root l.mapKey blocks := by
  have hcache := Lookup.runAll_faithful parse hlen hwhole hearlier hhonest
    (CryptreeCache.faithful_withCapacity cap)
  set cache := Lookup.runAll sha256 parse fuel earlier (.withCapacity cap)
  cases hhit : (cache.get l.root l.mapKey l.rBaseKey).1 with
  | some node =>
      rw [Lookup.run_of_hit hhit]
      exact iff_of_true (soundLookup_ok.2 (hcache.get_fst hhit)) (.inl (Option.some_ne_none node))
  | none =>
      have hiff := lookupIn_sound_iff parse hlen hwhole (hl.distinct blocks hanswer)
        hl.present l.rBaseKey
      simp only [ne_eq, not_true_eq_false, false_or]
      rw [← hiff, Lookup.run_of_miss hhit hanswer]
      cases hfound : lookupIn sha256 parse fuel l.root l.rBaseKey l.mapKey blocks with
      | error e => rfl
      | ok node =>
          have htouched : (cache.get l.root l.mapKey l.rBaseKey).2.Faithful _ := hcache.get_snd
          obtain ⟨cache', hput⟩ := htouched.putLookup_ok l.root l.mapKey l.rBaseKey node
          simp only [hput]

/-! ## A champ of two nodes -/

namespace VerifiedLookup

/-- The CID that a block is stored under. -/
def cidOf (b : CborObject) : Cid :=
  match buildCid (Sha256.sha256 b.toBytes) false with
  | .ok c => c
  | .error _ => byteCid 0

/-- A block that a mapping links to. -/
def chunk : CborObject := .list []

/-- The node that maps `[0]`. -/
def leaf : Champ := ⟨[1], [], [.mappings [⟨[0], some (.merkleLink (cidOf chunk).toBytes)⟩]], none⟩

/-- The node above it. -/
def top : Champ := ⟨[], [1], [.link (cidOf leaf.toCbor)], none⟩

/-- All blocks of the champ. -/
def blocks : List Bytes := [top.toCbor.toBytes, leaf.toCbor.toBytes, chunk.toBytes]

/-- The store that holds them. -/
def whole : RamStorage := (RamStorage.loadVerified Sha256.sha256 blocks .new).toOption.getD .new

/-- The block is handed out as it is. -/
def asIs : Unit → CborObject → Result CborObject := fun _ cbor => .ok cbor

/-- The lookup of its one mapping. -/
def answered (sent : List Bytes) : Lookup Unit := ⟨cidOf top.toCbor, (), [0], .ok sent⟩

theorem loadVerified_blocks : RamStorage.loadVerified Sha256.sha256 blocks .new = .ok whole := by
  obtain ⟨ram, hram⟩ := RamStorage.exists_loadVerified Sha256.length_sha256 blocks .new
  rw [whole, hram]
  rfl

theorem genuine_whole : whole.Genuine Sha256.sha256 :=
  (RamStorage.loadVerified_spec loadVerified_blocks).1 RamStorage.genuine_new

theorem distinct_blocks {k b b' : Bytes} (hb : b ∈ blocks) (hb' : whole k = some b')
    (h : Sha256.sha256 b = Sha256.sha256 b') : b = b' := by
  have hmem := ((RamStorage.loadVerified_spec loadVerified_blocks).2 k b' hb').resolve_left
    (by rintro ⟨⟩)
  have hall : ∀ b ∈ blocks, ∀ b' ∈ blocks, Sha256.sha256 b = Sha256.sha256 b' → b = b' := by
    decide +kernel
  exact hall b hb b' hmem h

end VerifiedLookup

open VerifiedLookup in
/-- All blocks of the path are sent, and then nothing is: the chunk is in the cache. -/
theorem verifiedLookup_sound_iff_sample :
    SoundLookup (heldChunk Sha256.sha256 asIs 32 whole (answered []).root (answered []).rBaseKey
        (answered []).mapKey)
      ((answered []).run Sha256.sha256 asIs 32
        (Lookup.runAll Sha256.sha256 asIs 32 [answered blocks] (.withCapacity 10))).1 := by
  have hpath : ∀ c ∈ lookupPath Sha256.sha256 32 whole (cidOf top.toCbor) [0],
      whole.fetch c ≠ none ∧ ∃ b ∈ blocks, whole c.toBytes = some b := by decide +kernel
  have hproper : ∀ sent, (∀ b ∈ sent, b ∈ blocks) →
      (answered sent).Proper Sha256.sha256 32 whole := by
    refine fun sent hsent => ⟨fun c hc => (hpath c (by simpa only [answered] using hc)).1, ?_⟩
    intro sent' heq b hb k b' hb'
    obtain rfl : sent = sent' := Except.ok.inj heq
    exact distinct_blocks (hsent b hb) hb'
  refine (verifiedLookup_sound_iff Sha256.sha256 Sha256.length_sha256 asIs 32 10 whole genuine_whole
    [answered blocks] ?_ ?_ (answered []) (hproper [] (by simp)) [] rfl).2 (.inl ?_)
  · exact List.forall_mem_singleton.2 (hproper blocks fun b hb => hb)
  · refine List.forall_mem_singleton.2 fun sent heq => ?_
    obtain rfl : blocks = sent := Except.ok.inj heq
    refine .inr ⟨List.cons_ne_nil _ _, fun _ c hc => .inr (hpath c ?_).2⟩
    simpa only [answered] using hc
  · decide +kernel

open VerifiedLookup in
/-- If the server sends nothing, or keeps the node that has the mapping to itself, the lookup finds
the chunk absent, though the champ has it. -/
theorem withheld_reads_absent :
    (∀ sent ∈ [[], [top.toCbor.toBytes]],
      ((answered sent).run Sha256.sha256 asIs 32 (.withCapacity 10)).1 = .ok none) ∧
      heldChunk Sha256.sha256 asIs 32 whole (cidOf top.toCbor) () [0] = .ok (some chunk) := by
  refine ⟨fun sent hsent => eq_ok_of_toOption ?_, eq_ok_of_toOption (by decide +kernel)⟩
  revert sent
  decide +kernel

end Peergos
