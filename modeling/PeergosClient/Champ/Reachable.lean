import PeergosClient.Champ.Refine

/-!
# The champs that calls can reach

A champ is reached by writing an empty root and opening it, and then by any sequence of `put` and
`remove` calls that returned, whatever they expected, with the handle dropped and opened again and
other blocks written in between.  `Reachable` is this closure; `Contains` is its invariant, that
the handle holds the canonical tree of some entries.  Unlike a session of admissible calls it also
covers mappings without a value.
-/

namespace Peergos

open Outcome (Ensures)

namespace ChampWrapper

variable {σ : Type}

/-- The handles that calls reach, with the stores they are in; `storable` is what the callers put. -/
inductive Reachable (S : ContentAddressedStorage σ) (fuel : ℕ) (H : KeyHasher)
    (bat : Option BatId) (storable : Option CborObject → Prop) : ChampWrapper → σ → Prop
  | created {s₀ s : σ} {root : Cid} {w : ChampWrapper}
      (hput : S.put s₀ (Champ.empty.withBat bat).toCbor = .ok (root, s))
      (hopen : create S s root H = .ok w) : Reachable S fuel H bat storable w s
  | put {s s' : σ} {w w' : ChampWrapper} {key : Bytes} {expected value : Option CborObject}
      (h : Reachable S fuel H bat storable w s) (hv : storable value)
      (hcall : w.put S fuel s key expected value = .ok (w', s')) :
      Reachable S fuel H bat storable w' s'
  | removed {s s' : σ} {w w' : ChampWrapper} {key : Bytes} {expected : Option CborObject}
      (h : Reachable S fuel H bat storable w s)
      (hcall : w.remove S fuel s key expected = .ok (w', s')) :
      Reachable S fuel H bat storable w' s'
  | reopened {s : σ} {w w' : ChampWrapper} (h : Reachable S fuel H bat storable w s)
      (hopen : create S s w.rootHash H = .ok w') : Reachable S fuel H bat storable w' s
  | grown {s s' : σ} {w : ChampWrapper} (h : Reachable S fuel H bat storable w s)
      (hext : S.Extends s s') : Reachable S fuel H bat storable w s'

theorem reachable_run {σ : Type} {S : ContentAddressedStorage σ} {fuel : ℕ} {H : KeyHasher}
    {bat : Option BatId} {ops : List ChampOp} {w w' : ChampWrapper} {s s' : σ}
    {storable : Option CborObject → Prop} (h : Reachable S fuel H bat storable w s)
    (hops : ∀ op ∈ ops, ∀ key expected value, op = .put key expected value → storable (some value))
    (hrun : run S fuel (w, s) ops = .ok (w', s')) : Reachable S fuel H bat storable w' s' := by
  induction ops generalizing w s with
  | nil =>
      cases hrun
      exact h
  | cons op ops ih =>
      obtain ⟨⟨w₁, s₁⟩, hcall, hrest⟩ := bind_eq_ok.1 hrun
      have hops' := fun o ho => hops o (List.mem_cons_of_mem _ ho)
      cases op with
      | put key expected value =>
          exact ih (.put h (hops _ (List.mem_cons_self ..) key expected value rfl) hcall) hops' hrest
      | remove key expected => exact ih (.removed h hcall) hops' hrest

/-- A session whose calls store what they may reaches its handle. -/
theorem reachable_session {σ : Type} {S : ContentAddressedStorage σ} {fuel : ℕ} {H : KeyHasher}
    {bat : Option BatId} {ops : List ChampOp} {w : ChampWrapper} {s₀ s : σ}
    {storable : Option CborObject → Prop}
    (hops : ∀ op ∈ ops, ∀ key expected value, op = .put key expected value → storable (some value))
    (hrun : session S fuel s₀ bat H ops = .ok (w, s)) : Reachable S fuel H bat storable w s := by
  obtain ⟨⟨root, s₁⟩, hput, hrest⟩ := bind_eq_ok.1 hrun
  obtain ⟨w₁, hcreate, hrest⟩ := bind_eq_ok.1 hrest
  exact reachable_run (.created hput hcreate) hops hrest

end ChampWrapper

namespace Champ

/-- The handle holds the tree of the entries `es`, stored under its hash, and every entry has a
value of the given kind. -/
structure Contains {σ : Type} (S : ContentAddressedStorage σ) (sha256 : Bytes → Bytes)
    (H : KeyHasher) (bat : Option BatId) (storable : Option CborObject → Prop) (s : σ)
    (w : ChampWrapper) (es : List KeyElement) : Prop where
  hasher : w.keyHasher = H
  canonical : Canonical S sha256 H bat s 0 w.root es
  stored : S.Stored sha256 s w.rootHash w.root.toCbor
  sorted : SortedEntries es
  storable : ∀ m ∈ es, storable m.value

/-- What may be stored: anything but an explicit null, which reads back as no value. -/
def NotNull (v : Option CborObject) : Prop := v ≠ some .null

/-- What a mapping with a value stores. -/
def Present (v : Option CborObject) : Prop := ∃ x, v = some x ∧ x ≠ .null

theorem Present.notNull {v : Option CborObject} (h : Present v) : NotNull v := by
  rintro rfl
  obtain ⟨x, hx, hne⟩ := h
  exact hne (Option.some.inj hx).symm

section Calls

variable {σ : Type} {S : ContentAddressedStorage σ} {sha256 : Bytes → Bytes} {H : KeyHasher}
  {bat : Option BatId} {storable : Option CborObject → Prop} {fuel : ℕ} {s : σ}
  {w : ChampWrapper} {es : List KeyElement}

theorem Contains.noNull (h : Contains S sha256 H bat storable s w es)
    (hnn : ∀ v, storable v → NotNull v) : NoNull es :=
  fun m hm => hnn _ (h.storable m hm)

theorem Contains.holds (h : Contains S sha256 H bat Present s w es) :
    Holds S sha256 H bat s w es :=
  ⟨h.hasher, h.canonical, h.stored, h.sorted, h.storable⟩

theorem Contains.mono {s' : σ} (h : Contains S sha256 H bat storable s w es)
    (hext : S.Extends s s') : Contains S sha256 H bat storable s' w es :=
  ⟨h.hasher, h.canonical.mono hext, h.stored.mono hext, h.sorted, h.storable⟩

/-- The outcome of a `put`. -/
theorem Contains.put_ensures (h : Contains S sha256 H bat storable s w es) (hL : S.Lawful sha256)
    (hbat : BatReadable bat) (hfuel : hashCodeLength ≤ fuel)
    (hnn : ∀ v, storable v → NotNull v) {key : Bytes} {expected value : Option CborObject}
    (hv : storable value) :
    Ensures (w.put S fuel s key expected value)
      (fun r => Contains S sha256 H bat storable r.2 r.1 (upsert ⟨key, value⟩ es) ∧
        S.Extends s r.2 ∧ ∀ m ∈ es, m.key = key → m.value = expected)
      (PutFault S H es ⟨key, value⟩ expected) := by
  have hn := h.noNull hnn
  obtain ⟨hh, hc, hst, hs, hval⟩ := h
  unfold ChampWrapper.put
  rw [hh]
  refine Ensures.bind (Champ.put_ensures hL hbat (d := 0) hfuel s w.root es key value
    w.rootHash hc hs hn (hnn _ hv) (fun _ _ j hj => by omega) hst) ?_
  rintro r ⟨hr, hexp⟩
  refine ⟨⟨rfl, hr.canonical, hr.stored, Keyed.sorted_upsert hs _, ?_⟩, hr.keeps, hexp⟩
  intro m hm
  rcases Keyed.mem_upsert.1 hm with rfl | ⟨hm, -⟩
  · exact hv
  · exact hval m hm

/-- The outcome of a `remove`. -/
theorem Contains.remove_ensures (h : Contains S sha256 H bat storable s w es)
    (hL : S.Lawful sha256) (hbat : BatReadable bat) (hfuel : hashCodeLength ≤ fuel)
    (hnn : ∀ v, storable v → NotNull v) {key : Bytes} {expected : Option CborObject} :
    Ensures (w.remove S fuel s key expected)
      (fun r => Contains S sha256 H bat storable r.2 r.1 (erase key es) ∧ S.Extends s r.2 ∧
        ∀ m ∈ es, m.key = key → m.value = expected)
      (RemoveFault S es key expected) := by
  have hn := h.noNull hnn
  obtain ⟨hh, hc, hst, hs, hval⟩ := h
  unfold ChampWrapper.remove
  rw [hh]
  refine Ensures.bind (Champ.remove_ensures hL hbat (d := 0) hfuel hc hs hn hst (Or.inl rfl)) ?_
  rintro r (⟨habs, rfl⟩ | ⟨⟨m, hm, hk, hv⟩, ⟨-, hr⟩ | ⟨hd, -⟩⟩)
  · have : erase key es = es := Keyed.erase_of_forall_ne habs
    rw [this]
    exact ⟨⟨rfl, hc, hst, hs, hval⟩, .refl s, fun m hm hk => absurd hk (habs m hm)⟩
  · refine ⟨⟨rfl, hr.canonical, hr.stored, Keyed.sorted_erase hs key,
      fun m hm => hval m (Keyed.mem_erase.1 hm).1⟩, hr.keeps, ?_⟩
    intro m' hm' hk'
    rw [hs.eq_of_key_eq hm' hm (hk'.trans hk.symm), hv]
  · exact absurd hd (Nat.lt_irrefl 0)

/-- Opening what is stored under the root of a handle. -/
theorem Contains.create_eq (h : Contains S sha256 H bat storable s w es)
    (hbat : BatReadable bat) (hnn : ∀ v, storable v → NotNull v) :
    ChampWrapper.create S s w.rootHash H = .ok w := by
  unfold ChampWrapper.create
  rw [h.stored.1, ok_bind]
  simp only
  rw [h.canonical.fromCbor_toCbor (h.noNull hnn) hbat, ok_bind, ← h.hasher]

theorem contains_created (hL : S.Lawful sha256) (hbat : BatReadable bat) {root : Cid} {s₀ s₁ : σ}
    (hput : S.put s₀ (empty.withBat bat).toCbor = .ok (root, s₁))
    (hopen : ChampWrapper.create S s₁ root H = .ok w) :
    Contains S sha256 H bat storable s₁ w [] := by
  obtain ⟨w₀, hcreate, h₀⟩ := holds_create (H := H) hL hbat hput
  cases hopen.symm.trans hcreate
  exact ⟨h₀.hasher, h₀.canonical, h₀.stored, h₀.sorted, by rintro m ⟨⟩⟩

/-- Every handle that is reached holds the tree of some entries. -/
theorem contains_of_reachable (hL : S.Lawful sha256) (hbat : BatReadable bat)
    (hfuel : hashCodeLength ≤ fuel) (hnn : ∀ v, storable v → NotNull v)
    (h : ChampWrapper.Reachable S fuel H bat storable w s) :
    ∃ es, Contains S sha256 H bat storable s w es := by
  induction h with
  | created hput hopen => exact ⟨[], contains_created hL hbat hput hopen⟩
  | put _ hv hcall ih =>
      obtain ⟨es, hes⟩ := ih
      exact ⟨_, ((hes.put_ensures hL hbat hfuel hnn hv).of_eq_ok hcall).1⟩
  | removed _ hcall ih =>
      obtain ⟨es, hes⟩ := ih
      exact ⟨_, ((hes.remove_ensures hL hbat hfuel hnn).of_eq_ok hcall).1⟩
  | reopened _ hopen ih =>
      obtain ⟨es, hes⟩ := ih
      cases hopen.symm.trans (hes.create_eq hbat hnn)
      exact ⟨es, hes⟩
  | grown _ hext ih =>
      obtain ⟨es, hes⟩ := ih
      exact ⟨es, hes.mono hext⟩

/-! ## Reading a reached champ -/

theorem Contains.get_eq (h : Contains S sha256 H bat storable s w es) (hbat : BatReadable bat)
    (hnn : ∀ v, storable v → NotNull v) (hfuel : hashCodeLength ≤ fuel) (k : Bytes) :
    w.get S fuel s k = .ok (valueOf es k) := by
  unfold ChampWrapper.get
  rw [h.hasher]
  exact Champ.get_eq h.canonical (h.noNull hnn) hbat hfuel k

/-- The mappings of the champ under a handle, in the order of the keys. -/
def Lists (S : ContentAddressedStorage σ) (fuel : ℕ) (s : σ) (w : ChampWrapper)
    (es : List KeyElement) : Prop :=
  SortedEntries es ∧ ∃ out, collectMappings S fuel s w.root = .ok out ∧ out.Perm es

theorem Contains.lists (h : Contains S sha256 H bat storable s w es) (hbat : BatReadable bat)
    (hnn : ∀ v, storable v → NotNull v) (hfuel : hashCodeLength ≤ fuel) : Lists S fuel s w es :=
  ⟨h.sorted, collectMappings_perm h.canonical h.sorted (h.noNull hnn) hbat hfuel⟩

end Calls

end Champ

end Peergos
