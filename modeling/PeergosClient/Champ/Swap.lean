import PeergosClient.Champ.Reachable

/-!
# Compare-and-swap on a champ

`put` and `remove` take the value the caller expects to replace.  On a mapped key both compare it
with what is there.  On a key that is not mapped `put` never looks at it, and `remove` answers from
the slot where the key would be: it fails if other keys are there, and succeeds if none are.
-/

namespace Peergos

open Outcome (Ensures)

/-- The fault of a call that failed. -/
def faultOf {α : Type} : Result α → Option Fault
  | .ok _ => none
  | .error e => some e

theorem eq_error_of_faultOf {α : Type} {x : Result α} {e : Fault} (h : faultOf x = some e) :
    x = .error e := by
  cases x with
  | ok a => cases h
  | error e' => cases h; rfl

namespace ChampWrapper

variable {σ : Type} (S : ContentAddressedStorage σ) (fuel : ℕ)

/-! ## The calls as the caller sees them -/

/-- What a call that returned assigns to the handle; a call that failed left by `?` before that. -/
def assign (w : ChampWrapper) (r : Result (ChampWrapper × σ)) : Result Cid × ChampWrapper :=
  match r with
  | .ok (w', _) => (.ok w'.rootHash, w')
  | .error e => (.error e, w)

/-- `ChampWrapper::put` with its answer and what is in `self` after it. -/
def putSelf (s : σ) (w : ChampWrapper) (rawKey : Bytes) (expected value : Option CborObject) :
    Result Cid × ChampWrapper :=
  w.assign (w.put S fuel s rawKey expected value)

/-- `ChampWrapper::remove` with its answer and what is in `self` after it. -/
def removeSelf (s : σ) (w : ChampWrapper) (rawKey : Bytes) (expected : Option CborObject) :
    Result Cid × ChampWrapper :=
  w.assign (w.remove S fuel s rawKey expected)

/-- The call failed with a fault of the store's own. -/
def Refused (S : ContentAddressedStorage σ) (r : Result (ChampWrapper × σ)) : Prop :=
  ∃ e, r = .error e ∧ StoreFault S e

/-- The call returned a CID. -/
def Succeeds (r : Result Cid × ChampWrapper) : Prop := ∃ c, r.1 = .ok c

/-- A compare-and-swap: the call succeeds if and only if the current value is the expected one,
unless it ran out of levels, and a failed call leaves the handle as it was. -/
def Swaps (w : ChampWrapper) (current expected : Option CborObject)
    (r : Result Cid × ChampWrapper) : Prop :=
  (r.1 ≠ .error (.err (.protocol "Hash collision!")) → (Succeeds r ↔ current = expected)) ∧
    (¬ Succeeds r → r.2.root = w.root ∧ r.2.rootHash = w.rootHash)

variable {S fuel} {w : ChampWrapper} {current expected : Option CborObject}
  {r : Result (ChampWrapper × σ)}

theorem swaps_assign_ok {x : ChampWrapper × σ} (h : r = .ok x) :
    Swaps w current expected (w.assign r) ↔ current = expected := by
  subst h
  have hs : Succeeds (w.assign (.ok x)) := ⟨_, rfl⟩
  constructor
  · intro h
    exact (h.1 (by simp [assign])).1 hs
  · intro h
    exact ⟨fun _ => ⟨fun _ => h, fun _ => hs⟩, fun hf => absurd hs hf⟩

theorem swaps_assign_error {e : Fault} (h : r = .error e)
    (he : e ≠ .err (.protocol "Hash collision!")) :
    Swaps w current expected (w.assign r) ↔ current ≠ expected := by
  subst h
  have hs : ¬ Succeeds (w.assign (.error e : Result (ChampWrapper × σ))) := by
    rintro ⟨c, hc⟩
    cases hc
  constructor
  · intro h heq
    refine hs ((h.1 ?_).2 heq)
    intro hc
    exact he (Except.error.inj hc)
  · intro h
    exact ⟨fun _ => ⟨fun hs' => absurd hs' hs, fun heq => absurd heq h⟩, fun _ => ⟨rfl, rfl⟩⟩

theorem swaps_assign_collision (h : r = .error (.err (.protocol "Hash collision!"))) :
    Swaps w current expected (w.assign r) := by
  subst h
  exact ⟨fun hne => absurd rfl hne, fun _ => ⟨rfl, rfl⟩⟩

end ChampWrapper

namespace Champ

/-! ## Where a key that is not mapped falls -/

/-- The entries in the bucket where the walk for `key` ends, at most `levels` levels below level
`d`: it goes on as long as a slot has more entries than a bucket holds. -/
def landing (H : KeyHasher) (key : Bytes) : ℕ → ℕ → List KeyElement → List KeyElement
  | 0, _, es => es
  | levels + 1, d, es =>
      let ei := inSlot H d (slotOf H d key) es
      if ei.length ≤ maxHashCollisionsPerLevel then ei else landing H key levels (d + 1) ei

section Swap

variable {σ : Type} {S : ContentAddressedStorage σ} {sha256 : Bytes → Bytes} {H : KeyHasher}
  {bat : Option BatId} {storable : Option CborObject → Prop} {fuel : ℕ} {s : σ}
  {w : ChampWrapper} {es : List KeyElement} {key : Bytes} {expected value : Option CborObject}

/-- The removal of a key that is not mapped. -/
theorem remove_of_absent (hbat : BatReadable bat) {d levels : ℕ}
    (hfuel : hashCodeLength ≤ fuel + d) (hlevels : levels + d = hashCodeLength) {c : Champ}
    {ourHash : Cid} (h : Canonical S sha256 H bat s d c es) (hn : NoNull es)
    (habs : ∀ m ∈ es, m.key ≠ key) :
    remove S fuel s c key (H key) d expected bitWidth maxHashCollisionsPerLevel ourHash =
      if landing H key levels d es = [] then .ok ((c, ourHash), s)
      else protocolErr "champ CAS failed: key not present" := by
  have hlt := h.level_lt
  induction fuel generalizing d levels c es ourHash with
  | zero => omega
  | succ fuel ih =>
      obtain ⟨levels, rfl⟩ : ∃ l, levels = l + 1 := ⟨levels - 1, by omega⟩
      obtain ⟨-, f, rfl, hf⟩ := canonical_iff.1 h
      have habs' : ∀ m ∈ inSlot H d (slotOf H d key) es, m.key ≠ key :=
        fun m hm => habs m (mem_inSlot.1 hm).1
      rcases hf _ (slotOf_lt H d key) with ⟨hlen, hsl⟩ | ⟨hlen, cid, child, hsl, hcid, hchild⟩
      · simp only [landing, if_pos hlen]
        by_cases hei : inSlot H d (slotOf H d key) es = []
        · rw [hei] at hsl
          rw [remove_of_empty hsl, if_pos hei]
        · rw [Slot.ofEntries_of_ne_nil hei] at hsl
          rw [remove_of_unmapped hsl, if_neg hei]
          rw [List.findIdx?_eq_none_iff]
          intro m hm
          simp [habs' m hm]
      · have hn' := hn.inSlot H d (slotOf H d key)
        have hbelow : levels + (d + 1) = hashCodeLength := by omega
        simp only [landing, if_neg (Nat.not_le.2 hlen)]
        rw [remove_of_shard hsl (loadLink_of_stored hchild hn' hbat hcid),
          ih (by omega) hbelow hchild hn' habs' hchild.level_lt]
        by_cases hland : landing H key levels (d + 1) (inSlot H d (slotOf H d key) es) = []
        · simp [hland, removedBelow]
        · simp [hland, protocolErr]

/-! ## When a call is a compare-and-swap -/

/-- The value of a mapped key. -/
theorem valueOf_of_mem (hs : SortedEntries es) {m : KeyElement} (hm : m ∈ es) (hk : m.key = key) :
    valueOf es key = m.value := by
  unfold valueOf
  rw [(Keyed.lookup_eq_some hs).2 ⟨hm, hk⟩, Option.bind_some]

theorem valueOf_of_absent (h : ∀ m ∈ es, m.key ≠ key) : valueOf es key = none := by
  unfold valueOf
  rw [Keyed.lookup_eq_none.2 h, Option.bind_none]

theorem Contains.put_swaps_iff (h : Contains S sha256 H bat storable s w es)
    (hL : S.Lawful sha256) (hbat : BatReadable bat) (hfuel : hashCodeLength ≤ fuel)
    (hnn : ∀ v, storable v → NotNull v) (hv : storable value)
    (hwrites : ¬ ChampWrapper.Refused S (w.put S fuel s key expected value)) :
    w.Swaps (valueOf es key) expected (w.putSelf S fuel s key expected value) ↔
      (∃ m ∈ es, m.key = key) ∨ expected = none ∨ Crowded H (upsert ⟨key, value⟩ es) := by
  have hens : Ensures (w.put S fuel s key expected value) _ _ :=
    h.put_ensures hL hbat hfuel hnn hv
  unfold ChampWrapper.putSelf
  by_cases hmem : ∃ m ∈ es, m.key = key
  · obtain ⟨m, hm, hk⟩ := hmem
    refine iff_of_true ?_ (Or.inl ⟨m, hm, hk⟩)
    cases hr : w.put S fuel s key expected value with
    | ok x =>
        rw [hr] at hens
        rw [ChampWrapper.swaps_assign_ok rfl, valueOf_of_mem h.sorted hm hk]
        exact hens.2.2 m hm hk
    | error e =>
        rw [hr] at hens
        rcases hens with hstore | ⟨hm', hk', hne⟩ | hcrowd
        · exact absurd ⟨e, hr, hstore⟩ hwrites
        · rw [ChampWrapper.swaps_assign_error rfl (by decide), valueOf_of_mem h.sorted hm' hk']
          exact hne
        · exact ChampWrapper.swaps_assign_collision rfl
  · push Not at hmem
    rw [valueOf_of_absent hmem]
    cases hr : w.put S fuel s key expected value with
    | ok x =>
        rw [hr] at hens
        have hnot := hens.1.canonical.not_crowded
        rw [ChampWrapper.swaps_assign_ok rfl]
        constructor
        · intro he
          exact Or.inr (Or.inl he.symm)
        · rintro (⟨m, hm, hk⟩ | he | hcrowd)
          · exact absurd hk (hmem m hm)
          · exact he.symm
          · exact absurd hcrowd hnot
    | error e =>
        rw [hr] at hens
        rcases hens with hstore | ⟨hm', hk', -⟩ | hcrowd
        · exact absurd ⟨e, hr, hstore⟩ hwrites
        · exact absurd hk' (hmem _ hm')
        · exact iff_of_true (ChampWrapper.swaps_assign_collision rfl) (Or.inr (Or.inr hcrowd))

theorem Contains.remove_swaps_iff (h : Contains S sha256 H bat storable s w es)
    (hL : S.Lawful sha256) (hbat : BatReadable bat) (hfuel : hashCodeLength ≤ fuel)
    (hnn : ∀ v, storable v → NotNull v)
    (hwrites : ¬ ChampWrapper.Refused S (w.remove S fuel s key expected)) :
    w.Swaps (valueOf es key) expected (w.removeSelf S fuel s key expected) ↔
      (∃ m ∈ es, m.key = key) ∨ (landing H key hashCodeLength 0 es = [] ↔ expected = none) := by
  unfold ChampWrapper.removeSelf
  by_cases hmem : ∃ m ∈ es, m.key = key
  · obtain ⟨m, hm, hk⟩ := hmem
    refine iff_of_true ?_ (Or.inl ⟨m, hm, hk⟩)
    have hens : Ensures (w.remove S fuel s key expected) _ _ :=
      h.remove_ensures hL hbat hfuel hnn
    cases hr : w.remove S fuel s key expected with
    | ok x =>
        rw [hr] at hens
        rw [ChampWrapper.swaps_assign_ok rfl, valueOf_of_mem h.sorted hm hk]
        exact hens.2.2 m hm hk
    | error e =>
        rw [hr] at hens
        rcases hens with hstore | habs | ⟨hm', hk', hne⟩
        · exact absurd ⟨e, hr, hstore⟩ hwrites
        · exact absurd hk (habs m hm)
        · rw [ChampWrapper.swaps_assign_error rfl (by decide), valueOf_of_mem h.sorted hm' hk']
          exact hne
  · have hnot := hmem
    push Not at hmem
    have heq : remove S fuel s w.root key (H key) 0 expected bitWidth maxHashCollisionsPerLevel
        w.rootHash = if landing H key hashCodeLength 0 es = [] then .ok ((w.root, w.rootHash), s)
          else protocolErr "champ CAS failed: key not present" :=
      remove_of_absent hbat hfuel (by omega) h.canonical (h.noNull hnn) hmem
    rw [valueOf_of_absent hmem, or_iff_right hnot]
    unfold ChampWrapper.remove
    rw [h.hasher, heq]
    by_cases hland : landing H key hashCodeLength 0 es = []
    · simp only [hland, if_true, ok_bind, true_iff]
      rw [ChampWrapper.swaps_assign_ok rfl]
      exact eq_comm
    · simp only [hland, if_false, protocolErr, error_bind, false_iff]
      rw [ChampWrapper.swaps_assign_error rfl (by decide)]
      exact not_congr eq_comm

end Swap

end Champ

namespace ChampWrapper

open Champ

/-- When `put` and `remove` are compare-and-swaps: on a mapped key always, on a key that is not
mapped `put` only if nothing is expected (or five keys collide on every level), and `remove` only
if either nothing is expected and no other key is where it would be, or something is expected and
another key is there. -/
theorem champ_swaps_iff {σ : Type} (S : ContentAddressedStorage σ) (sha256 : Bytes → Bytes)
    (hL : S.Lawful sha256) (H : KeyHasher) (bat : Option BatId) (hbat : BatReadable bat)
    (fuel : ℕ) (hfuel : hashCodeLength ≤ fuel) (w : ChampWrapper) (s : σ)
    (hw : Reachable S fuel H bat NotNull w s) :
    ∃ es, Lists S fuel s w es ∧ (∀ k, w.get S fuel s k = .ok (valueOf es k)) ∧
      (∀ (key : Bytes) (expected value : Option CborObject), NotNull value →
        ¬ Refused S (w.put S fuel s key expected value) →
        (w.Swaps (valueOf es key) expected (w.putSelf S fuel s key expected value) ↔
          (∃ m ∈ es, m.key = key) ∨ expected = none ∨ Crowded H (upsert ⟨key, value⟩ es))) ∧
      ∀ (key : Bytes) (expected : Option CborObject),
        ¬ Refused S (w.remove S fuel s key expected) →
        (w.Swaps (valueOf es key) expected (w.removeSelf S fuel s key expected) ↔
          (∃ m ∈ es, m.key = key) ∨
            (landing H key hashCodeLength 0 es = [] ↔ expected = none)) := by
  obtain ⟨es, h⟩ := contains_of_reachable hL hbat hfuel (fun _ hv => hv) hw
  refine ⟨es, h.lists hbat (fun _ hv => hv) hfuel, h.get_eq hbat (fun _ hv => hv) hfuel, ?_⟩
  exact ⟨fun key expected value hv hw => h.put_swaps_iff hL hbat hfuel (fun _ hv => hv) hv hw,
    fun key expected hw => h.remove_swaps_iff hL hbat hfuel (fun _ hv => hv) hw⟩

/-- One key, in slot 0 of the root. -/
def oneKey : List ChampOp := [.put [0] none (.str "a")]

theorem champ_swaps_iff_oneKey : ∃ w s,
    Reachable (.memory Sha256.sha256) 32 identityKeyHasher none NotNull w s ∧
      w.Swaps (some (.str "a")) (some (.str "a"))
        (w.putSelf (.memory Sha256.sha256) 32 s [0] (some (.str "a")) none) := by
  obtain ⟨⟨w, s⟩, hrun⟩ := exists_eq_ok (x := session (.memory Sha256.sha256) 32 [] none
    identityKeyHasher oneKey) (by decide +kernel)
  have hw : Reachable (.memory Sha256.sha256) 32 identityKeyHasher none NotNull w s := by
    refine reachable_session ?_ hrun
    rintro op hop key expected value rfl
    simp only [oneKey, List.mem_singleton] at hop
    cases hop
    simp [NotNull]
  obtain ⟨es, -, hget, hput, -⟩ := champ_swaps_iff _ _
    (ContentAddressedStorage.memory_lawful _) identityKeyHasher none (by rintro b ⟨⟩) 32 (le_refl _)
    w s hw
  have hvalue : session (.memory Sha256.sha256) 32 [] none identityKeyHasher oneKey >>=
      (fun r => r.1.get (.memory Sha256.sha256) 32 r.2 [0]) = .ok (some (.str "a")) :=
    eq_ok_of_toOption (by decide +kernel)
  obtain ⟨r, hr⟩ := exists_eq_ok (x := session (.memory Sha256.sha256) 32 [] none
      identityKeyHasher oneKey >>= fun r => r.1.put (.memory Sha256.sha256) 32 r.2 [0]
        (some (.str "a")) none) (by decide +kernel)
  rw [hrun, ok_bind] at hvalue hr
  simp only at hvalue hr
  have hcur : valueOf es [0] = some (.str "a") := Except.ok.inj ((hget [0]).symm.trans hvalue)
  have hmem : ∃ m ∈ es, m.key = [0] := by
    by_contra hc
    push Not at hc
    rw [valueOf_of_absent hc] at hcur
    cases hcur
  have hres := (hput [0] (some (.str "a")) none (by simp [NotNull]) (by
    rintro ⟨e, he, -⟩
    rw [hr] at he
    cases he)).2 (Or.inl hmem)
  rw [hcur] at hres
  exact ⟨w, s, hw, hres⟩

/-- A key that is not mapped, expected to have a value: `put` stores it all the same, and `remove`
succeeds if the slot is empty.  Expected to have none, `remove` fails beside another key. -/
theorem champ_not_swaps : ∃ w s,
    Reachable (.memory Sha256.sha256) 32 identityKeyHasher none NotNull w s ∧
      w.get (.memory Sha256.sha256) 32 s [8] = .ok none ∧
      w.get (.memory Sha256.sha256) 32 s [1] = .ok none ∧
      ¬ w.Swaps none (some (.str "b"))
        (w.putSelf (.memory Sha256.sha256) 32 s [8] (some (.str "b")) (some (.str "c"))) ∧
      ¬ w.Swaps none (some (.str "b"))
        (w.removeSelf (.memory Sha256.sha256) 32 s [1] (some (.str "b"))) ∧
      ¬ w.Swaps none none (w.removeSelf (.memory Sha256.sha256) 32 s [8] none) := by
  obtain ⟨⟨w, s⟩, hrun⟩ := exists_eq_ok (x := session (.memory Sha256.sha256) 32 [] none
    identityKeyHasher oneKey) (by decide +kernel)
  have hw : Reachable (.memory Sha256.sha256) 32 identityKeyHasher none NotNull w s := by
    refine reachable_session ?_ hrun
    rintro op hop key expected value rfl
    simp only [oneKey, List.mem_singleton] at hop
    cases hop
    simp [NotNull]
  have hget8 : session (.memory Sha256.sha256) 32 [] none identityKeyHasher oneKey >>=
      (fun r => r.1.get (.memory Sha256.sha256) 32 r.2 [8]) = .ok none :=
    eq_ok_of_toOption (by decide +kernel)
  have hget1 : session (.memory Sha256.sha256) 32 [] none identityKeyHasher oneKey >>=
      (fun r => r.1.get (.memory Sha256.sha256) 32 r.2 [1]) = .ok none :=
    eq_ok_of_toOption (by decide +kernel)
  obtain ⟨r, hput⟩ := exists_eq_ok (x := session (.memory Sha256.sha256) 32 [] none
      identityKeyHasher oneKey >>= fun r => r.1.put (.memory Sha256.sha256) 32 r.2 [8]
        (some (.str "b")) (some (.str "c"))) (by decide +kernel)
  obtain ⟨r', hremove⟩ := exists_eq_ok (x := session (.memory Sha256.sha256) 32 [] none
      identityKeyHasher oneKey >>= fun r => r.1.remove (.memory Sha256.sha256) 32 r.2 [1]
        (some (.str "b"))) (by decide +kernel)
  have hfail := eq_error_of_faultOf (x := session (.memory Sha256.sha256) 32 [] none
      identityKeyHasher oneKey >>= fun r => r.1.remove (.memory Sha256.sha256) 32 r.2 [8] none)
    (e := .err (.protocol "champ CAS failed: key not present")) (by decide +kernel)
  rw [hrun, ok_bind] at hget8 hget1 hput hremove hfail
  refine ⟨w, s, hw, hget8, hget1, ?_, ?_, ?_⟩
  · unfold putSelf
    rw [swaps_assign_ok hput]
    simp
  · unfold removeSelf
    rw [swaps_assign_ok hremove]
    simp
  · unfold removeSelf
    rw [swaps_assign_error hfail (by decide)]
    simp

end ChampWrapper

end Peergos
