import PeergosClient.Champ.Delete
import PeergosClient.Lib.Sha256

/-!
# Runs of a champ

A session writes an empty root, opens it, and makes a sequence of `put` and `remove` calls.  The
abstract champ is the function from keys to values that the calls describe.  After every session
whose calls all returned, the champ answers as this function, and its root is determined by it.
-/

namespace Peergos

open Outcome (Ensures)

/-- What a champ is for: a partial function from keys to values. -/
abbrev AbstractMap := Bytes → Option CborObject

/-- A call on a `ChampWrapper` that changes it. -/
inductive ChampOp where
  | put (key : Bytes) (expected : Option CborObject) (value : CborObject)
  | remove (key : Bytes) (expected : Option CborObject)
  deriving DecidableEq

namespace ChampOp

/-- The call itself. -/
def call {σ : Type} (S : ContentAddressedStorage σ) (fuel : ℕ) (st : ChampWrapper × σ) :
    ChampOp → Result (ChampWrapper × σ)
  | put key expected value => st.1.put S fuel st.2 key expected (some value)
  | remove key expected => st.1.remove S fuel st.2 key expected

/-- What the call does to the abstract map. -/
def effect (m : AbstractMap) : ChampOp → AbstractMap
  | put key _ value => Function.update m key (some value)
  | remove key _ => Function.update m key none

/-- The caller knows the current mapping of the key, and stores no null. -/
def Admissible (m : AbstractMap) : ChampOp → Prop
  | put key expected value => expected = m key ∧ value ≠ .null
  | remove key expected => expected = m key

instance (m : AbstractMap) (op : ChampOp) : Decidable (op.Admissible m) :=
  match op with
  | put key expected value => inferInstanceAs (Decidable (expected = m key ∧ value ≠ .null))
  | remove key expected => inferInstanceAs (Decidable (expected = m key))

/-- Every call of a sequence is admissible when it is made. -/
def AllAdmissible : AbstractMap → List ChampOp → Prop
  | _, [] => True
  | m, op :: ops => op.Admissible m ∧ AllAdmissible (op.effect m) ops

/-- Admissibility of a sequence, call by call. -/
def decideAllAdmissible : (m : AbstractMap) → (ops : List ChampOp) → Decidable (AllAdmissible m ops)
  | _, [] => isTrue trivial
  | m, op :: ops =>
      have := decideAllAdmissible (op.effect m) ops
      inferInstanceAs (Decidable (op.Admissible m ∧ AllAdmissible (op.effect m) ops))

instance (m : AbstractMap) (ops : List ChampOp) : Decidable (AllAdmissible m ops) :=
  decideAllAdmissible m ops

end ChampOp

/-- The abstract map after a sequence of calls. -/
def mapAfter (ops : List ChampOp) : AbstractMap := ops.foldl ChampOp.effect fun _ => none

namespace ChampWrapper

variable {σ : Type} (S : ContentAddressedStorage σ) (fuel : ℕ)

/-- A sequence of calls, up to the first that fails. -/
def run (st : ChampWrapper × σ) (ops : List ChampOp) : Result (ChampWrapper × σ) :=
  ops.foldlM (ChampOp.call S fuel) st

/-- Write an empty root, open it, and make the calls. -/
def session (s : σ) (bat : Option BatId) (keyHasher : KeyHasher) (ops : List ChampOp) :
    Result (ChampWrapper × σ) := do
  let (root, s) ← S.put s (Champ.empty.withBat bat).toCbor
  let w ← create S s root keyHasher
  run S fuel (w, s) ops

end ChampWrapper

namespace Champ

/-! ## Entries and the function they stand for -/

/-- Every entry holds a value, none of them null. -/
def Valued (es : List KeyElement) : Prop := ∀ m ∈ es, ∃ v, m.value = some v ∧ v ≠ .null

theorem Valued.noNull {es : List KeyElement} (h : Valued es) : NoNull es := by
  intro m hm hnull
  obtain ⟨v, hv, hne⟩ := h m hm
  rw [hv] at hnull
  exact hne (Option.some.inj hnull)

theorem valueOf_eq_some {es : List KeyElement} (hs : SortedEntries es) {k : Bytes}
    {v : CborObject} : valueOf es k = some v ↔ ⟨k, some v⟩ ∈ es := by
  unfold valueOf
  rw [Option.bind_eq_some_iff]
  constructor
  · rintro ⟨⟨k', v'⟩, hl, rfl⟩
    obtain ⟨hm, rfl⟩ := Keyed.mem_of_lookup hl
    exact hm
  · intro hm
    exact ⟨_, (Keyed.lookup_eq_some hs).2 ⟨hm, rfl⟩, rfl⟩

theorem valueOf_eq_none {es : List KeyElement} (hv : Valued es) {k : Bytes} :
    valueOf es k = none ↔ ∀ m ∈ es, m.key ≠ k := by
  rw [← Keyed.lookup_eq_none]
  unfold valueOf
  cases hl : Keyed.lookup KeyElement.key k es with
  | none => simp
  | some m =>
      obtain ⟨v, hval, -⟩ := hv m (Keyed.mem_of_lookup hl).1
      simp [hval]

theorem valueOf_upsert {es : List KeyElement} (hs : SortedEntries es) (a : KeyElement) :
    valueOf (upsert a es) = Function.update (valueOf es) a.key a.value := by
  funext k
  unfold valueOf
  rw [Keyed.lookup_upsert hs]
  by_cases hk : k = a.key
  · subst hk
    simp
  · simp [hk]

theorem valueOf_erase (es : List KeyElement) (key : Bytes) :
    valueOf (erase key es) = Function.update (valueOf es) key none := by
  funext k
  unfold valueOf
  rw [Keyed.lookup_erase]
  by_cases hk : k = key
  · subst hk
    simp
  · simp [hk]

theorem Valued.upsert {es : List KeyElement} (h : Valued es) {k : Bytes} {v : CborObject}
    (hv : v ≠ .null) : Valued (upsert ⟨k, some v⟩ es) := by
  intro m hm
  rcases Keyed.mem_upsert.1 hm with rfl | ⟨hm, -⟩
  · exact ⟨v, rfl, hv⟩
  · exact h m hm

theorem Valued.erase {es : List KeyElement} (h : Valued es) (k : Bytes) : Valued (erase k es) :=
  fun m hm => h m (Keyed.mem_erase.1 hm).1

/-- Sorted entries are determined by the function they stand for. -/
theorem entries_ext {es es' : List KeyElement} (hs : SortedEntries es) (hs' : SortedEntries es')
    (hv : Valued es) (hv' : Valued es') (h : valueOf es = valueOf es') : es = es' := by
  refine hs.ext hs' ?_
  intro m
  constructor
  · intro hm
    obtain ⟨v, hval, -⟩ := hv m hm
    have : valueOf es m.key = some v := (valueOf_eq_some hs).2 (hval ▸ hm)
    rw [h, valueOf_eq_some hs', ← hval] at this
    exact this
  · intro hm
    obtain ⟨v, hval, -⟩ := hv' m hm
    have : valueOf es' m.key = some v := (valueOf_eq_some hs').2 (hval ▸ hm)
    rw [← h, valueOf_eq_some hs, ← hval] at this
    exact this

/-! ## The invariant of a session -/

/-- The wrapper holds the map `es`: its root is the tree of `es` and is stored under its hash. -/
structure Holds {σ : Type} (S : ContentAddressedStorage σ) (sha256 : Bytes → Bytes)
    (H : KeyHasher) (bat : Option BatId) (s : σ) (w : ChampWrapper) (es : List KeyElement) :
    Prop where
  hasher : w.keyHasher = H
  canonical : Canonical S sha256 H bat s 0 w.root es
  stored : S.Stored sha256 s w.rootHash w.root.toCbor
  sorted : SortedEntries es
  valued : Valued es

section Session

variable {σ : Type} {S : ContentAddressedStorage σ} {sha256 : Bytes → Bytes} {H : KeyHasher}
  {bat : Option BatId} {fuel : ℕ} {s : σ} {w : ChampWrapper} {es : List KeyElement}

/-- The outcome of a `put` on a wrapper that holds `es`. -/
theorem Holds.put_ensures (h : Holds S sha256 H bat s w es) (hL : S.Lawful sha256)
    (hbat : BatReadable bat) (hfuel : hashCodeLength ≤ fuel) {key : Bytes}
    {expected : Option CborObject} {value : CborObject} (hv : value ≠ .null) :
    Ensures (w.put S fuel s key expected (some value))
      (fun r => Holds S sha256 H bat r.2 r.1 (upsert ⟨key, some value⟩ es) ∧ S.Extends s r.2 ∧
        ∀ m ∈ es, m.key = key → m.value = expected)
      (PutFault S H es ⟨key, some value⟩ expected) := by
  obtain ⟨hh, hc, hst, hs, hval⟩ := h
  unfold ChampWrapper.put
  rw [hh]
  refine Ensures.bind (Champ.put_ensures hL hbat (d := 0) hfuel s w.root es key (some value)
    w.rootHash hc hs hval.noNull (fun h => hv (Option.some.inj h)) (fun _ _ j hj => by omega)
    hst) ?_
  rintro r ⟨hr, hexp⟩
  exact ⟨⟨rfl, hr.canonical, hr.stored, Keyed.sorted_upsert hs _, hval.upsert hv⟩, hr.keeps, hexp⟩

/-- The outcome of a `remove` on a wrapper that holds `es`. -/
theorem Holds.remove_ensures (h : Holds S sha256 H bat s w es) (hL : S.Lawful sha256)
    (hbat : BatReadable bat) (hfuel : hashCodeLength ≤ fuel) {key : Bytes}
    {expected : Option CborObject} :
    Ensures (w.remove S fuel s key expected)
      (fun r => Holds S sha256 H bat r.2 r.1 (erase key es) ∧ S.Extends s r.2 ∧
        ∀ m ∈ es, m.key = key → m.value = expected)
      (RemoveFault S es key expected) := by
  obtain ⟨hh, hc, hst, hs, hval⟩ := h
  unfold ChampWrapper.remove
  rw [hh]
  refine Ensures.bind (Champ.remove_ensures hL hbat (d := 0) hfuel hc hs hval.noNull hst
    (Or.inl rfl)) ?_
  rintro r (⟨habs, rfl⟩ | ⟨⟨m, hm, hk, hv⟩, ⟨-, hr⟩ | ⟨hd, -⟩⟩)
  · have : erase key es = es := Keyed.erase_of_forall_ne habs
    rw [this]
    exact ⟨⟨rfl, hc, hst, hs, hval⟩, .refl s, fun m hm hk => absurd hk (habs m hm)⟩
  · refine ⟨⟨rfl, hr.canonical, hr.stored, Keyed.sorted_erase hs key, hval.erase key⟩, hr.keeps, ?_⟩
    intro m' hm' hk'
    rw [hs.eq_of_key_eq hm' hm (hk'.trans hk.symm), hv]
  · exact absurd hd (Nat.lt_irrefl 0)

/-- One admissible call that returned. -/
theorem Holds.call (h : Holds S sha256 H bat s w es) (hL : S.Lawful sha256)
    (hbat : BatReadable bat) (hfuel : hashCodeLength ≤ fuel) {op : ChampOp}
    (hop : op.Admissible (valueOf es)) {w' : ChampWrapper} {s' : σ}
    (hcall : op.call S fuel (w, s) = .ok (w', s')) :
    ∃ es', Holds S sha256 H bat s' w' es' ∧ valueOf es' = op.effect (valueOf es) ∧
      S.Extends s s' := by
  cases op with
  | put key expected value =>
      have hr := (h.put_ensures hL hbat hfuel hop.2).of_eq_ok hcall
      exact ⟨_, hr.1, valueOf_upsert h.sorted _, hr.2.1⟩
  | remove key expected =>
      have hr := (h.remove_ensures hL hbat hfuel).of_eq_ok hcall
      exact ⟨_, hr.1, valueOf_erase es key, hr.2.1⟩

/-- A run of admissible calls that all returned. -/
theorem Holds.run (h : Holds S sha256 H bat s w es) (hL : S.Lawful sha256)
    (hbat : BatReadable bat) (hfuel : hashCodeLength ≤ fuel) {ops : List ChampOp}
    (hops : ChampOp.AllAdmissible (valueOf es) ops) {w' : ChampWrapper} {s' : σ}
    (hrun : ChampWrapper.run S fuel (w, s) ops = .ok (w', s')) :
    ∃ es', Holds S sha256 H bat s' w' es' ∧
      valueOf es' = ops.foldl ChampOp.effect (valueOf es) ∧ S.Extends s s' := by
  induction ops generalizing s w es with
  | nil =>
      cases hrun
      exact ⟨es, h, rfl, .refl _⟩
  | cons op ops ih =>
      obtain ⟨⟨w₁, s₁⟩, hcall, hrest⟩ := bind_eq_ok.1 hrun
      obtain ⟨es₁, h₁, heff, hext⟩ := h.call hL hbat hfuel hops.1 hcall
      obtain ⟨es', h', heff', hext'⟩ := ih h₁ (heff ▸ hops.2) hrest
      refine ⟨es', h', ?_, hext.trans hext'⟩
      rw [heff', heff]
      rfl

/-- Opening a freshly written empty root. -/
theorem holds_create (hL : S.Lawful sha256) (hbat : BatReadable bat) {root : Cid} {s₀ s₁ : σ}
    (hput : S.put s₀ (empty.withBat bat).toCbor = .ok (root, s₁)) :
    ∃ w, ChampWrapper.create S s₁ root H = .ok w ∧ Holds S sha256 H bat s₁ w [] := by
  have hst := hL.put_stored hput
  have hc : Canonical S sha256 H bat s₁ 0 (empty.withBat bat) [] :=
    canonical_empty s₁ (by decide)
  refine ⟨⟨empty.withBat bat, root, H⟩, ?_, rfl, hc, hst, List.Pairwise.nil, by rintro m ⟨⟩⟩
  unfold ChampWrapper.create
  rw [hst.1, ok_bind]
  simp only
  rw [hc.fromCbor_toCbor (by rintro m ⟨⟩) hbat, ok_bind]

/-- A session that returned holds the map its calls describe. -/
theorem holds_session (hL : S.Lawful sha256) (hbat : BatReadable bat)
    (hfuel : hashCodeLength ≤ fuel) {ops : List ChampOp}
    (hops : ChampOp.AllAdmissible (fun _ => none) ops) {s₀ : σ}
    (hrun : ChampWrapper.session S fuel s₀ bat H ops = .ok (w, s)) :
    ∃ es, Holds S sha256 H bat s w es ∧ valueOf es = mapAfter ops ∧ S.Extends s₀ s := by
  obtain ⟨⟨root, s₁⟩, hput, hrest⟩ := bind_eq_ok.1 hrun
  obtain ⟨w₁, hcreate, hrest⟩ := bind_eq_ok.1 hrest
  obtain ⟨w₀, hcreate', h₀⟩ := holds_create (H := H) hL hbat hput
  cases hcreate.symm.trans hcreate'
  obtain ⟨es, hes, hval, hext⟩ := h₀.run hL hbat hfuel hops hrest
  exact ⟨es, hes, hval, (hL.put_extends hput).trans hext⟩

/-- Two wrappers that hold the same function have the same root, across stores with the same block
hash. -/
theorem Holds.root_eq {σ' : Type} {S' : ContentAddressedStorage σ'} {s' : σ'} {w' : ChampWrapper}
    {es' : List KeyElement} (h : Holds S sha256 H bat s w es)
    (h' : Holds S' sha256 H bat s' w' es') (hval : valueOf es = valueOf es') :
    w.root = w'.root := by
  have hes : es = es' := entries_ext h.sorted h'.sorted h.valued h'.valued hval
  subst hes
  exact h.canonical.unique h'.canonical

theorem Holds.rootHash_eq {σ' : Type} {S' : ContentAddressedStorage σ'} {s' : σ'}
    {w' : ChampWrapper} {es' : List KeyElement} (h : Holds S sha256 H bat s w es)
    (h' : Holds S' sha256 H bat s' w' es') (hval : valueOf es = valueOf es') :
    w.rootHash = w'.rootHash := by
  have hcid := h.stored.2
  rw [h.root_eq h' hval, h'.stored.2] at hcid
  exact (Except.ok.inj hcid).symm

/-! ## Reading what a wrapper holds -/

theorem Holds.get_eq (h : Holds S sha256 H bat s w es) (hbat : BatReadable bat)
    (hfuel : hashCodeLength ≤ fuel) (k : Bytes) : w.get S fuel s k = .ok (valueOf es k) := by
  unfold ChampWrapper.get
  rw [h.hasher]
  exact Champ.get_eq h.canonical h.valued.noNull hbat hfuel k

theorem Holds.size_eq (h : Holds S sha256 H bat s w es) (hbat : BatReadable bat)
    (hfuel : hashCodeLength ≤ fuel) : w.size S fuel s = .ok es.length :=
  Champ.size_eq h.canonical h.sorted h.valued.noNull hbat hfuel

/-- As many keys are mapped as there are entries. -/
theorem encard_keys (hs : SortedEntries es) (hv : Valued es) :
    {k | valueOf es k ≠ none}.encard = es.length := by
  have hset : {k | valueOf es k ≠ none} = ((es.map KeyElement.key).toFinset : Set Bytes) := by
    ext k
    rw [Set.mem_ofPred_eq, Ne, valueOf_eq_none hv]
    simp
  rw [hset, Set.encard_coe_eq_coe_finsetCard, List.toFinset_card_of_nodup hs.nodup_keys,
    List.length_map]

end Session

end Champ

namespace ChampWrapper

/-- A champ refines a finite map: after any session whose calls returned, `get` gives every key the
value the calls left it with, `size` is the number of keys, and `collect_mappings` lists each pair
once. -/
theorem champ_refines_map {σ : Type} (S : ContentAddressedStorage σ) (sha256 : Bytes → Bytes)
    (hL : S.Lawful sha256) (H : KeyHasher) (fuel : ℕ) (hfuel : Champ.hashCodeLength ≤ fuel)
    (ops : List ChampOp) (hops : ChampOp.AllAdmissible (fun _ => none) ops) (s₀ s : σ)
    (w : ChampWrapper) (hrun : session S fuel s₀ none H ops = .ok (w, s)) :
    (∀ k, w.get S fuel s k = .ok (mapAfter ops k)) ∧
      (∃ n : ℕ, w.size S fuel s = .ok n ∧ {k | mapAfter ops k ≠ none}.encard = n) ∧
      ∃ out, Champ.collectMappings S fuel s w.root = .ok out ∧
        (out.map KeyElement.key).Nodup ∧
        ∀ m, m ∈ out ↔ ∃ v, m.value = some v ∧ mapAfter ops m.key = some v := by
  have hbat : Champ.BatReadable none := by rintro b ⟨⟩
  obtain ⟨es, h, hval, -⟩ := Champ.holds_session hL hbat hfuel hops hrun
  rw [← hval]
  refine ⟨h.get_eq hbat hfuel, ⟨es.length, h.size_eq hbat hfuel,
    Champ.encard_keys h.sorted h.valued⟩, ?_⟩
  obtain ⟨out, hout, hperm⟩ :=
    Champ.collectMappings_perm h.canonical h.sorted h.valued.noNull hbat hfuel
  refine ⟨out, hout, (hperm.map _).nodup_iff.2 h.sorted.nodup_keys, ?_⟩
  intro m
  rw [hperm.mem_iff]
  constructor
  · intro hm
    obtain ⟨v, hv, -⟩ := h.valued m hm
    exact ⟨v, hv, (Champ.valueOf_eq_some h.sorted).2 (hv ▸ hm)⟩
  · rintro ⟨v, hv, hm⟩
    have := (Champ.valueOf_eq_some h.sorted).1 hm
    rw [← hv] at this
    exact this

/-- Five keys of one slot, so that a bucket overflows, and the removal that undoes it. -/
def overflowOps : List ChampOp :=
  [.put [0] none (.str "a"), .put [8] none (.str "b"), .put [16] none (.str "c"),
    .put [24] none (.str "d"), .put [32] none (.str "e"), .put [8] (some (.str "b")) (.str "f"),
    .remove [16] (some (.str "c"))]

theorem champ_refines_map_overflow :
    ∃ w s, session (.memory Sha256.sha256) 32 [] none identityKeyHasher overflowOps = .ok (w, s) ∧
      w.get (.memory Sha256.sha256) 32 s [8] = .ok (some (.str "f")) ∧
      w.get (.memory Sha256.sha256) 32 s [16] = .ok none := by
  obtain ⟨⟨w, s⟩, hrun⟩ := exists_eq_ok (x := session (.memory Sha256.sha256) 32 [] none
    identityKeyHasher overflowOps) (by decide +kernel)
  have h := (champ_refines_map _ _ (ContentAddressedStorage.memory_lawful _) identityKeyHasher
    32 (le_refl _) overflowOps (by decide +kernel) [] s w hrun).1
  exact ⟨w, s, hrun, h [8], h [16]⟩

/-- A champ is history independent: two sessions that end with the same map end with the same
root node and root hash, whatever their calls and whatever stores they ran against. -/
theorem champ_history_independent {σ σ' : Type} (S : ContentAddressedStorage σ)
    (S' : ContentAddressedStorage σ') (sha256 : Bytes → Bytes) (hL : S.Lawful sha256)
    (hL' : S'.Lawful sha256) (H : KeyHasher) (bat : Option BatId) (hbat : Champ.BatReadable bat)
    (fuel fuel' : ℕ) (hfuel : Champ.hashCodeLength ≤ fuel) (hfuel' : Champ.hashCodeLength ≤ fuel')
    (ops ops' : List ChampOp) (hops : ChampOp.AllAdmissible (fun _ => none) ops)
    (hops' : ChampOp.AllAdmissible (fun _ => none) ops') (s₀ s : σ) (s₀' s' : σ')
    (w w' : ChampWrapper) (hrun : session S fuel s₀ bat H ops = .ok (w, s))
    (hrun' : session S' fuel' s₀' bat H ops' = .ok (w', s'))
    (hmap : mapAfter ops = mapAfter ops') : w.root = w'.root ∧ w.rootHash = w'.rootHash := by
  obtain ⟨es, h, hval, -⟩ := Champ.holds_session hL hbat hfuel hops hrun
  obtain ⟨es', h', hval', -⟩ := Champ.holds_session hL' hbat hfuel' hops' hrun'
  have heq := hval.trans (hmap.trans hval'.symm)
  exact ⟨h.root_eq h' heq, h.rootHash_eq h' heq⟩

/-- The same four mappings, written in another order and without a detour. -/
def directOps : List ChampOp :=
  [.put [32] none (.str "e"), .put [8] none (.str "f"), .put [24] none (.str "d"),
    .put [0] none (.str "a")]

theorem champ_history_independent_overflow :
    ∃ w s w' s', session (.memory Sha256.sha256) 32 [] none identityKeyHasher overflowOps =
        .ok (w, s) ∧
      session (.memory Sha256.sha256) 32 [] none identityKeyHasher directOps = .ok (w', s') ∧
      w.root = w'.root ∧ w.rootHash = w'.rootHash := by
  obtain ⟨⟨w, s⟩, hrun⟩ := exists_eq_ok (x := session (.memory Sha256.sha256) 32 [] none
    identityKeyHasher overflowOps) (by decide +kernel)
  obtain ⟨⟨w', s'⟩, hrun'⟩ := exists_eq_ok (x := session (.memory Sha256.sha256) 32 [] none
    identityKeyHasher directOps) (by decide +kernel)
  have hmap : mapAfter overflowOps = mapAfter directOps := by
    funext k
    simp only [mapAfter, overflowOps, directOps, List.foldl, ChampOp.effect,
      Function.update_apply]
    split_ifs <;> simp_all
  exact ⟨w, s, w', s', hrun, hrun', champ_history_independent _ _ _
    (ContentAddressedStorage.memory_lawful _) (ContentAddressedStorage.memory_lawful _)
    identityKeyHasher none (by rintro b ⟨⟩) 32 32 (le_refl _) (le_refl _) overflowOps directOps
    (by decide +kernel) (by decide +kernel) [] s [] s' w w' hrun hrun' hmap⟩

end ChampWrapper

end Peergos
