import PeergosClient.Champ.Diff

/-!
# What a three-way merge gives

For champs built by `put` and `remove` with the identity hasher, `mergeChamp` refuses exactly when
both sides changed a key or when five keys of the merged map agree on every level; otherwise the
merged champ is `base` with the changes of both sides, and exchanging the sides gives the same
root.
-/

namespace Peergos

open Outcome (Ensures)

namespace ChampMerge

open Champ

/-! ## Maps and their changes -/

/-- The keys on which two maps differ. -/
def changed (m m' : AbstractMap) : Set Bytes := {k | m k ≠ m' k}

/-- `base` with the changes of both sides. -/
def mergedMap (base ours theirs : AbstractMap) : AbstractMap := fun k =>
  if ours k ≠ base k then ours k else if theirs k ≠ base k then theirs k else base k

/-- More keys than a bucket holds agree on every level. -/
def CrowdedMap (m : AbstractMap) : Prop :=
  ∃ ks : List Bytes, ks.Nodup ∧ maxHashCollisionsPerLevel < ks.length ∧ (∀ k ∈ ks, m k ≠ none) ∧
    ∀ k ∈ ks, ∀ k' ∈ ks, SameClass k k'

theorem mergedMap_comm {base ours theirs : AbstractMap}
    (h : Disjoint (changed base ours) (changed base theirs)) :
    mergedMap base ours theirs = mergedMap base theirs ours := by
  funext k
  unfold mergedMap
  by_cases ho : ours k = base k
  · simp [ho]
  · by_cases ht : theirs k = base k
    · simp [ht]
    · exact absurd (Set.disjoint_left.1 h (Ne.symm ho)) (not_not_intro (Ne.symm ht))

theorem crowdedMap_valueOf {es : List KeyElement} (hv : Valued es) :
    CrowdedMap (valueOf es) ↔ Crowded identityKeyHasher es := by
  have hkey : ∀ k, valueOf es k ≠ none ↔ ∃ m ∈ es, m.key = k := by
    intro k
    rw [Ne, valueOf_eq_none hv]
    push Not
    rfl
  unfold CrowdedMap Crowded
  simp only [hkey]
  rfl

/-! ## The replay -/

section Replay

variable {σ : Type} {S : ContentAddressedStorage σ} {sha256 : Bytes → Bytes}
  {bat : Option BatId} {fuel : ℕ}

/-- The map after the changes in `done` are replayed onto `O`. -/
def replayed (O T : AbstractMap) (done : List DiffEntry) : AbstractMap := fun k =>
  if (done.map DiffEntry.key).contains k then T k else O k

theorem replayed_of_mem {O T : AbstractMap} {done : List DiffEntry} {k : Bytes}
    (h : k ∈ done.map DiffEntry.key) : replayed O T done k = T k :=
  if_pos (List.contains_iff_mem.2 h)

theorem replayed_of_not_mem {O T : AbstractMap} {done : List DiffEntry} {k : Bytes}
    (h : k ∉ done.map DiffEntry.key) : replayed O T done k = O k :=
  if_neg fun hmem => h (List.contains_iff_mem.1 hmem)

theorem replayed_append (O T : AbstractMap) (done : List DiffEntry) (e : DiffEntry) :
    replayed O T (done ++ [e]) = Function.update (replayed O T done) e.key (T e.key) := by
  funext k
  unfold replayed
  by_cases hk : k = e.key
  · subst hk
    simp
  · simp [hk]

theorem not_mem_done {B T : List KeyElement} {ds done rest : List DiffEntry} {e : DiffEntry}
    (hds : DiffSpec B T ds) (hsplit : ds = done ++ e :: rest) :
    e.key ∉ done.map DiffEntry.key := by
  have hnd := hds.nodup
  rw [hsplit, List.map_append, List.map_cons] at hnd
  intro hk
  exact (List.disjoint_of_nodup_append hnd) hk (List.mem_cons_self ..)

/-- A put that runs out of levels in the middle of the replay would run out at its end too: keys
of one class are deleted before others are added. -/
theorem crowdedMap_replayed {B O T es : List KeyElement} {ds done rest : List DiffEntry}
    {e : DiffEntry} {v : CborObject} (hds : DiffSpec B T ds) (hsplit : ds = done ++ e :: rest)
    (hO : ∀ e ∈ ds, valueOf O e.key = e.base) (hother : e.other = some v)
    (hv : Valued es)
    (hes : valueOf es = replayed (valueOf O) (valueOf T) done)
    (hnot : ¬ Crowded identityKeyHasher es)
    (hcrowd : CrowdedMap (Function.update (valueOf es) e.key (some v))) :
    CrowdedMap (replayed (valueOf O) (valueOf T) ds) := by
  obtain ⟨ks, hnd, hlen, hmapped, hclass⟩ := hcrowd
  have hmem : e ∈ ds := by rw [hsplit]; simp
  have hnew := not_mem_done hds hsplit
  -- the new key is one of the five, and was not mapped before
  have hfresh : e.key ∈ ks ∧ valueOf es e.key = none := by
    by_contra hc
    refine hnot ((crowdedMap_valueOf hv).1 ⟨ks, hnd, hlen, ?_, hclass⟩)
    intro k hk
    have hmk := hmapped k hk
    by_cases hke : k = e.key
    · subst hke
      exact fun hnone => hc ⟨hk, hnone⟩
    · rwa [Function.update_of_ne hke] at hmk
  obtain ⟨hin, hnone⟩ := hfresh
  have hbase : e.base = none := by
    rw [← hO e hmem, ← hnone, hes, replayed_of_not_mem hnew]
  refine ⟨ks, hnd, hlen, ?_, hclass⟩
  intro k hk hgone
  have hmk := hmapped k hk
  by_cases hkds : k ∈ ds.map DiffEntry.key
  · rw [replayed_of_mem hkds] at hgone
    obtain ⟨e', he', rfl⟩ := List.mem_map.1 hkds
    rw [hsplit] at he'
    rcases List.mem_append.1 he' with hdone | hrest
    · have hne : e'.key ≠ e.key := fun h => hnew (h ▸ List.mem_map_of_mem hdone)
      rw [Function.update_of_ne hne, hes, replayed_of_mem (List.mem_map_of_mem hdone)] at hmk
      exact hmk hgone
    · rcases List.mem_cons.1 hrest with rfl | hrest
      · have := ((hds.mem e').1 hmem).2.1
        rw [hgone, hother] at this
        cases this
      · -- a deletion after the insertion, in the same class
        have hpair := hds.ordered
        rw [hsplit, List.pairwise_append] at hpair
        have hb := (List.pairwise_cons.1 hpair.2.1).1 e' hrest (hclass _ hin _ hk) hbase
        have he'ds : e' ∈ ds := by rw [hsplit]; simp [hrest]
        have hspec := (hds.mem e').1 he'ds
        rw [hgone] at hspec
        exact hspec.2.2 (hb.trans hspec.2.1.symm)
  · rw [replayed_of_not_mem hkds] at hgone
    have hne : k ≠ e.key := fun h => hkds (h ▸ List.mem_map_of_mem hmem)
    have hkdone : k ∉ done.map DiffEntry.key := by
      intro h
      refine hkds ?_
      rw [hsplit, List.map_append]
      exact List.mem_append_left _ h
    rw [Function.update_of_ne hne, hes, replayed_of_not_mem hkdone] at hmk
    exact hmk hgone

/-- Replaying the changes between `B` and `T` onto a champ that holds `O`, with `O` as `B` on the
changed keys. -/
theorem replay_ensures (hL : S.Lawful sha256) (hbat : BatReadable bat)
    (hfuel : hashCodeLength ≤ fuel) {B O T : List KeyElement} {ds : List DiffEntry} {s : σ}
    {w : ChampWrapper} (hds : DiffSpec B T ds) (hO : ∀ e ∈ ds, valueOf O e.key = e.base)
    (hT : SortedEntries T) (hvT : Valued T)
    (h : Holds S sha256 identityKeyHasher bat s w O) :
    Ensures (ds.foldlM (applyEntry S fuel) (w, s))
      (fun r => ∃ es, Holds S sha256 identityKeyHasher bat r.2 r.1 es ∧
        valueOf es = replayed (valueOf O) (valueOf T) ds)
      (fun e => StoreFault S e ∨ (e = .err (.protocol "Hash collision!") ∧
        CrowdedMap (replayed (valueOf O) (valueOf T) ds))) := by
  refine Ensures.foldlM (fun done (r : ChampWrapper × σ) => ∃ es,
    Holds S sha256 identityKeyHasher bat r.2 r.1 es ∧
      valueOf es = replayed (valueOf O) (valueOf T) done) ?_ ⟨O, h, ?_⟩
  · rintro done e rest hsplit ⟨w₁, s₁⟩ ⟨es, hes, hval⟩
    have hmem : e ∈ ds := by rw [hsplit]; simp
    have hnew := not_mem_done hds hsplit
    have hcur : valueOf es e.key = e.base := by
      rw [hval, replayed_of_not_mem hnew, hO e hmem]
    obtain ⟨-, hother, hne⟩ := (hds.mem e).1 hmem
    -- the champ holds at `e.key` what the replay expects
    have hexp : ∀ m ∈ es, m.key = e.key → m.value = e.base := by
      intro m hm hk
      obtain ⟨v, hv, -⟩ := hes.valued m hm
      rw [← hcur, hv, (valueOf_eq_some hes.sorted).2]
      rw [← hv, ← hk]
      exact hm
    unfold applyEntry
    cases hv : e.other with
    | some v =>
        have hvT' : v ≠ .null := by
          obtain ⟨v', hv', hne'⟩ := hvT _ ((valueOf_eq_some hT).1 (hother.symm.trans hv))
          cases hv'
          exact hne'
        refine (hes.put_ensures hL hbat hfuel hvT').mono ?_ ?_
        · rintro r ⟨hr, -, -⟩
          refine ⟨_, hr, ?_⟩
          rw [valueOf_upsert hes.sorted, hval, replayed_append, ← hother, hv]
        · rintro e' (he' | ⟨hm, hk, hne'⟩ | hcrowd)
          · exact Or.inl he'
          · exact absurd (hexp _ hm hk) hne'
          · refine Or.inr ⟨rfl, crowdedMap_replayed hds hsplit hO hv hes.valued hval
              hes.canonical.not_crowded ?_⟩
            rw [← valueOf_upsert hes.sorted ⟨e.key, some v⟩,
              crowdedMap_valueOf (hes.valued.upsert hvT')]
            exact hcrowd
    | none =>
        refine (hes.remove_ensures hL hbat hfuel).mono ?_ ?_
        · rintro r ⟨hr, -, -⟩
          refine ⟨_, hr, ?_⟩
          rw [valueOf_erase, hval, replayed_append, ← hother, hv]
        · rintro e' (he' | habs | ⟨hm, hk, hne'⟩)
          · exact Or.inl he'
          · have := (valueOf_eq_none hes.valued).2 habs
            rw [hcur] at this
            exact absurd (this.trans hv.symm) hne
          · exact absurd (hexp _ hm hk) hne'
  · funext k
    simp [replayed]

end Replay

/-! ## The merge -/

section Merge

variable {σ : Type} {S : ContentAddressedStorage σ} {sha256 : Bytes → Bytes}
  {batB batO batT : Option BatId} {fuel : ℕ} {s : σ} {wB wO wT : ChampWrapper}
  {B O T : List KeyElement}

theorem side_of_holds {bat : Option BatId} {w : ChampWrapper} {es : List KeyElement}
    (h : Holds S sha256 identityKeyHasher bat s w es) :
    Side S sha256 bat s 0 (some w.rootHash) [] es :=
  Or.inl ⟨_, _, rfl, h.stored, h.canonical, rfl⟩

/-- What a wrapper holds can be opened again under its root. -/
theorem create_of_holds {H : KeyHasher} {bat : Option BatId} (hbat : BatReadable bat)
    {w : ChampWrapper} {es : List KeyElement} (h : Holds S sha256 H bat s w es) :
    ChampWrapper.create S s w.rootHash H = .ok w := by
  unfold ChampWrapper.create
  rw [h.stored.1, ok_bind]
  simp only
  rw [h.canonical.fromCbor_toCbor h.valued.noNull hbat, ok_bind, ← h.hasher]

/-- The keys of a difference are the changed ones. -/
theorem DiffSpec.mem_keys {L R : List KeyElement} {ds : List DiffEntry} (h : DiffSpec L R ds)
    (k : Bytes) : k ∈ ds.map DiffEntry.key ↔ valueOf L k ≠ valueOf R k := by
  rw [List.mem_map]
  constructor
  · rintro ⟨e, he, rfl⟩
    obtain ⟨hb, ho, hne⟩ := (h.mem e).1 he
    rwa [hb, ho] at hne
  · intro hne
    exact ⟨⟨k, valueOf L k, valueOf R k⟩, (h.mem _).2 ⟨rfl, rfl, hne⟩, rfl⟩

theorem replayed_eq_mergedMap {ds : List DiffEntry} (hds : DiffSpec B T ds)
    (hdisj : Disjoint (changed (valueOf B) (valueOf O)) (changed (valueOf B) (valueOf T))) :
    replayed (valueOf O) (valueOf T) ds = mergedMap (valueOf B) (valueOf O) (valueOf T) := by
  funext k
  unfold mergedMap
  by_cases hT : valueOf T k = valueOf B k
  · rw [replayed_of_not_mem fun hk => (hds.mem_keys k).1 hk hT.symm]
    by_cases hO : valueOf O k = valueOf B k
    · simp [hO, hT]
    · simp [hO]
  · have hO : valueOf O k = valueOf B k := by
      by_contra hO
      exact Set.disjoint_left.1 hdisj (Ne.symm hO) (Ne.symm hT)
    rw [replayed_of_mem ((hds.mem_keys k).2 (Ne.symm hT))]
    simp [hO, hT]

variable {ourOrder remoteOrder : HashOrder}

/-- `mergeChamp`, once both differences are known. -/
theorem mergeChamp_eq (hour : ourOrder.Lawful) (hremote : remoteOrder.Lawful)
    (hbatB : BatReadable batB) (hbatO : BatReadable batO) (hbatT : BatReadable batT)
    (hfuel : hashCodeLength ≤ fuel) (hB : Holds S sha256 identityKeyHasher batB s wB B)
    (hO : Holds S sha256 identityKeyHasher batO s wO O)
    (hT : Holds S sha256 identityKeyHasher batT s wT T) :
    ∃ ds ds', DiffSpec B O ds ∧ DiffSpec B T ds' ∧
      mergeChamp S fuel ourOrder remoteOrder s wB.rootHash wO.rootHash wT.rootHash =
        if ds.any fun d => ds'.any fun e => d.key = e.key then
          protocolErr "Concurrent modification of a file or directory!"
        else ds'.foldlM (applyEntry S fuel) (wO, s) >>= fun r => .ok (r.1.rootHash, r.2) := by
  obtain ⟨ds, hds, hspec⟩ := diff_spec hour hbatB hbatO (d := 0) hfuel (p := [])
    (side_of_holds hB) (side_of_holds hO) rfl hB.sorted hO.sorted hB.valued hO.valued []
  obtain ⟨ds', hds', hspec'⟩ := diff_spec hremote hbatB hbatT (d := 0) hfuel (p := [])
    (side_of_holds hB) (side_of_holds hT) rfl hB.sorted hT.sorted hB.valued hT.valued []
  refine ⟨ds, ds', hspec, hspec', ?_⟩
  unfold mergeChamp
  rw [hds, ok_bind, hds', ok_bind, create_of_holds hbatO hO]
  rfl

/-- Both sides changed a key. -/
theorem mergeChamp_conflict (hour : ourOrder.Lawful) (hremote : remoteOrder.Lawful)
    (hbatB : BatReadable batB) (hbatO : BatReadable batO) (hbatT : BatReadable batT)
    (hfuel : hashCodeLength ≤ fuel) (hB : Holds S sha256 identityKeyHasher batB s wB B)
    (hO : Holds S sha256 identityKeyHasher batO s wO O)
    (hT : Holds S sha256 identityKeyHasher batT s wT T)
    (hdisj : ¬ Disjoint (changed (valueOf B) (valueOf O)) (changed (valueOf B) (valueOf T))) :
    mergeChamp S fuel ourOrder remoteOrder s wB.rootHash wO.rootHash wT.rootHash =
      protocolErr "Concurrent modification of a file or directory!" := by
  obtain ⟨ds, ds', hds, hds', heq⟩ := mergeChamp_eq hour hremote hbatB hbatO hbatT hfuel hB hO hT
  rw [heq, if_pos]
  obtain ⟨k, hk, hk'⟩ := Set.not_disjoint_iff.1 hdisj
  obtain ⟨d, hd, rfl⟩ := List.mem_map.1 ((hds.mem_keys k).2 hk)
  obtain ⟨e, he, hke⟩ := List.mem_map.1 ((hds'.mem_keys d.key).2 hk')
  rw [List.any_eq_true]
  refine ⟨d, hd, ?_⟩
  rw [List.any_eq_true]
  exact ⟨e, he, by simp [hke]⟩

/-- The changes are disjoint. -/
theorem mergeChamp_ensures (hL : S.Lawful sha256) (hour : ourOrder.Lawful)
    (hremote : remoteOrder.Lawful) (hbatB : BatReadable batB) (hbatO : BatReadable batO)
    (hbatT : BatReadable batT) (hfuel : hashCodeLength ≤ fuel)
    (hB : Holds S sha256 identityKeyHasher batB s wB B)
    (hO : Holds S sha256 identityKeyHasher batO s wO O)
    (hT : Holds S sha256 identityKeyHasher batT s wT T)
    (hdisj : Disjoint (changed (valueOf B) (valueOf O)) (changed (valueOf B) (valueOf T))) :
    Ensures (mergeChamp S fuel ourOrder remoteOrder s wB.rootHash wO.rootHash wT.rootHash)
      (fun r => ∃ w es, w.rootHash = r.1 ∧ Holds S sha256 identityKeyHasher batO r.2 w es ∧
        valueOf es = mergedMap (valueOf B) (valueOf O) (valueOf T))
      (fun e => StoreFault S e ∨ (e = .err (.protocol "Hash collision!") ∧
        CrowdedMap (mergedMap (valueOf B) (valueOf O) (valueOf T)))) := by
  obtain ⟨ds, ds', hds, hds', heq⟩ := mergeChamp_eq hour hremote hbatB hbatO hbatT hfuel hB hO hT
  rw [heq, if_neg]
  · have hbase : ∀ e ∈ ds', valueOf O e.key = e.base := by
      intro e he
      obtain ⟨hb, ho, hne⟩ := (hds'.mem e).1 he
      rw [hb, ho] at hne
      by_contra hc
      rw [hb] at hc
      exact Set.disjoint_left.1 hdisj (Ne.symm hc) hne
    rw [← replayed_eq_mergedMap hds' hdisj]
    refine Ensures.bind (replay_ensures hL hbatO hfuel hds' hbase hT.sorted hT.valued hO) ?_
    rintro r ⟨es, hes, hval⟩
    exact ⟨r.1, es, rfl, hes, hval⟩
  · rw [Bool.not_eq_true, List.any_eq_false]
    intro d hd
    rw [Bool.not_eq_true, List.any_eq_false]
    intro e he
    rw [decide_eq_true_eq]
    intro hk
    refine Set.disjoint_left.1 hdisj ((hds.mem_keys d.key).1 (List.mem_map_of_mem hd)) ?_
    rw [hk]
    exact (hds'.mem_keys e.key).1 (List.mem_map_of_mem he)

end Merge

/-! ## Champs built by calls -/

/-- The champ under `root` was built by `put` and `remove` calls, ends with the map `m`, and the
store still has its blocks. -/
def Built {σ : Type} (S : ContentAddressedStorage σ) (fuel : ℕ) (bat : Option BatId)
    (H : KeyHasher) (s : σ) (root : Cid) (m : AbstractMap) : Prop :=
  ∃ ops s₀ s₁ w, ChampOp.AllAdmissible (fun _ => none) ops ∧
    ChampWrapper.session S fuel s₀ bat H ops = .ok (w, s₁) ∧ S.Extends s₁ s ∧
    w.rootHash = root ∧ mapAfter ops = m

theorem Built.holds {σ : Type} {S : ContentAddressedStorage σ} {sha256 : Bytes → Bytes}
    {fuel : ℕ} {bat : Option BatId} {H : KeyHasher} {s : σ} {root : Cid} {m : AbstractMap}
    (h : Built S fuel bat H s root m) (hL : S.Lawful sha256) (hbat : BatReadable bat)
    (hfuel : hashCodeLength ≤ fuel) :
    ∃ w es, w.rootHash = root ∧ Holds S sha256 H bat s w es ∧ valueOf es = m := by
  obtain ⟨ops, s₀, s₁, w, hops, hrun, hext, hroot, rfl⟩ := h
  obtain ⟨es, hes, hval, -⟩ := holds_session hL hbat hfuel hops hrun
  exact ⟨w, es, hroot, ⟨hes.hasher, hes.canonical.mono hext, hes.stored.mono hext, hes.sorted,
    hes.valued⟩, hval⟩

/-- Sessions one after the other in one store leave all their champs built. -/
theorem built_of_session {σ : Type} {S : ContentAddressedStorage σ} {sha256 : Bytes → Bytes}
    {fuel : ℕ} {bat : Option BatId} {H : KeyHasher} {s₀ s : σ} {w : ChampWrapper}
    (hL : S.Lawful sha256) (hbat : BatReadable bat) (hfuel : hashCodeLength ≤ fuel)
    {ops : List ChampOp} (hops : ChampOp.AllAdmissible (fun _ => none) ops)
    (hrun : ChampWrapper.session S fuel s₀ bat H ops = .ok (w, s)) :
    S.Extends s₀ s ∧ Built S fuel bat H s w.rootHash (mapAfter ops) := by
  obtain ⟨-, -, -, hext⟩ := holds_session hL hbat hfuel hops hrun
  exact ⟨hext, ops, s₀, s, w, hops, hrun, .refl s, rfl, rfl⟩

theorem Built.mono {σ : Type} {S : ContentAddressedStorage σ} {fuel : ℕ} {bat : Option BatId}
    {H : KeyHasher} {s s' : σ} {root : Cid} {m : AbstractMap} (h : Built S fuel bat H s root m)
    (hext : S.Extends s s') : Built S fuel bat H s' root m := by
  obtain ⟨ops, s₀, s₁, w, hops, hrun, hext', hroot, hm⟩ := h
  exact ⟨ops, s₀, s₁, w, hops, hrun, hext'.trans hext, hroot, hm⟩

section Built

variable {σ : Type} {S : ContentAddressedStorage σ} {sha256 : Bytes → Bytes} {fuel : ℕ}
  {ourOrder remoteOrder : HashOrder} {batB batO batT : Option BatId} {s : σ}
  {base ours theirs : Cid} {mB mO mT : AbstractMap}

/-- A merge of built champs that returned. -/
theorem Built.merge_ok (hL : S.Lawful sha256) (hfuel : hashCodeLength ≤ fuel)
    (hour : ourOrder.Lawful) (hremote : remoteOrder.Lawful) (hbatB : BatReadable batB)
    (hbatO : BatReadable batO) (hbatT : BatReadable batT)
    (hB : Built S fuel batB identityKeyHasher s base mB)
    (hO : Built S fuel batO identityKeyHasher s ours mO)
    (hT : Built S fuel batT identityKeyHasher s theirs mT) {root : Cid} {s' : σ}
    (h : mergeChamp S fuel ourOrder remoteOrder s base ours theirs = .ok (root, s')) :
    Disjoint (changed mB mO) (changed mB mT) ∧
      ∃ w es, w.rootHash = root ∧ Holds S sha256 identityKeyHasher batO s' w es ∧
        valueOf es = mergedMap mB mO mT := by
  obtain ⟨wB, B, rfl, holdsB, rfl⟩ := hB.holds hL hbatB hfuel
  obtain ⟨wO, O, rfl, holdsO, rfl⟩ := hO.holds hL hbatO hfuel
  obtain ⟨wT, T, rfl, holdsT, rfl⟩ := hT.holds hL hbatT hfuel
  have hdisj : Disjoint (changed (valueOf B) (valueOf O)) (changed (valueOf B) (valueOf T)) := by
    by_contra hd
    rw [mergeChamp_conflict hour hremote hbatB hbatO hbatT hfuel holdsB holdsO holdsT hd] at h
    cases h
  exact ⟨hdisj, (mergeChamp_ensures hL hour hremote hbatB hbatO hbatT hfuel holdsB holdsO holdsT
    hdisj).of_eq_ok h⟩

/-- A merge of built champs that failed: the store refused, the changes overlap, or there are not
enough levels. -/
theorem Built.merge_error (hL : S.Lawful sha256) (hfuel : hashCodeLength ≤ fuel)
    (hour : ourOrder.Lawful) (hremote : remoteOrder.Lawful) (hbatB : BatReadable batB)
    (hbatO : BatReadable batO) (hbatT : BatReadable batT)
    (hB : Built S fuel batB identityKeyHasher s base mB)
    (hO : Built S fuel batO identityKeyHasher s ours mO)
    (hT : Built S fuel batT identityKeyHasher s theirs mT) {e : Fault}
    (h : mergeChamp S fuel ourOrder remoteOrder s base ours theirs = .error e) :
    StoreFault S e ∨ ¬ Disjoint (changed mB mO) (changed mB mT) ∨
      CrowdedMap (mergedMap mB mO mT) := by
  obtain ⟨wB, B, rfl, holdsB, rfl⟩ := hB.holds hL hbatB hfuel
  obtain ⟨wO, O, rfl, holdsO, rfl⟩ := hO.holds hL hbatO hfuel
  obtain ⟨wT, T, rfl, holdsT, rfl⟩ := hT.holds hL hbatT hfuel
  by_cases hdisj : Disjoint (changed (valueOf B) (valueOf O)) (changed (valueOf B) (valueOf T))
  · have hens := mergeChamp_ensures hL hour hremote hbatB hbatO hbatT hfuel holdsB holdsO holdsT
      hdisj
    rw [h] at hens
    rcases hens with hs | ⟨-, hc⟩
    · exact Or.inl hs
    · exact Or.inr (Or.inr hc)
  · exact Or.inr (Or.inl hdisj)

end Built

/-- Three-way merge.  With no write refused by the store, it returns exactly when the two sides
changed different keys and no five keys of the merged map agree on every level; what it returns is
`base` with both sets of changes, and the same root if the sides are exchanged. -/
theorem mergeChamp_correct {σ : Type} (S : ContentAddressedStorage σ) (sha256 : Bytes → Bytes)
    (hL : S.Lawful sha256) (fuel : ℕ) (hfuel : hashCodeLength ≤ fuel)
    (ourOrder remoteOrder : HashOrder) (hour : ourOrder.Lawful) (hremote : remoteOrder.Lawful)
    (batB batO batT : Option BatId) (hbatB : BatReadable batB) (hbatO : BatReadable batO)
    (hbatT : BatReadable batT) (s : σ) (base ours theirs : Cid) (mB mO mT : AbstractMap)
    (hB : Built S fuel batB identityKeyHasher s base mB)
    (hO : Built S fuel batO identityKeyHasher s ours mO)
    (hT : Built S fuel batT identityKeyHasher s theirs mT) :
    ((∀ e, StoreFault S e → mergeChamp S fuel ourOrder remoteOrder s base ours theirs ≠ .error e) →
      ((∃ r, mergeChamp S fuel ourOrder remoteOrder s base ours theirs = .ok r) ↔
        Disjoint (changed mB mO) (changed mB mT) ∧ ¬ CrowdedMap (mergedMap mB mO mT))) ∧
    (∀ root s', mergeChamp S fuel ourOrder remoteOrder s base ours theirs = .ok (root, s') →
      ∃ w, ChampWrapper.create S s' root identityKeyHasher = .ok w ∧
        ∀ k, w.get S fuel s' k = .ok (mergedMap mB mO mT k)) ∧
    (batO = batT → ∀ ourOrder' remoteOrder' : HashOrder, ourOrder'.Lawful → remoteOrder'.Lawful →
      ∀ root s' root' s'', mergeChamp S fuel ourOrder remoteOrder s base ours theirs =
          .ok (root, s') →
        mergeChamp S fuel ourOrder' remoteOrder' s base theirs ours = .ok (root', s'') →
        root = root') := by
  refine ⟨?_, ?_, ?_⟩
  · intro hstore
    constructor
    · rintro ⟨r, hr⟩
      obtain ⟨hd, w, es, -, hes, hval⟩ :=
        Built.merge_ok hL hfuel hour hremote hbatB hbatO hbatT hB hO hT hr
      refine ⟨hd, ?_⟩
      rw [← hval, crowdedMap_valueOf hes.valued]
      exact hes.canonical.not_crowded
    · rintro ⟨hd, hnot⟩
      cases hm : mergeChamp S fuel ourOrder remoteOrder s base ours theirs with
      | ok r => exact ⟨r, rfl⟩
      | error e =>
          rcases Built.merge_error hL hfuel hour hremote hbatB hbatO hbatT hB hO hT hm
            with he | he | he
          · exact absurd hm (hstore e he)
          · exact absurd hd he
          · exact absurd he hnot
  · intro root s' hr
    obtain ⟨-, w, es, rfl, hes, hval⟩ :=
      Built.merge_ok hL hfuel hour hremote hbatB hbatO hbatT hB hO hT hr
    refine ⟨w, create_of_holds hbatO hes, ?_⟩
    rw [← hval]
    exact hes.get_eq hbatO hfuel
  · rintro rfl ourOrder' remoteOrder' hour' hremote' root s' root' s'' hr hr'
    obtain ⟨hd, w, es, rfl, hes, hval⟩ :=
      Built.merge_ok hL hfuel hour hremote hbatB hbatO hbatT hB hO hT hr
    obtain ⟨-, w', es', rfl, hes', hval'⟩ :=
      Built.merge_ok hL hfuel hour' hremote' hbatB hbatT hbatO hB hT hO hr'
    exact hes.rootHash_eq hes' (hval.trans ((mergedMap_comm hd).trans hval'.symm))

/-! ## Concrete merges -/

section Concrete

/-- Build three champs in one store in memory: `base`, `ours` and `theirs`. -/
def buildThree (batO batT : Option BatId) (H : KeyHasher) (opsB opsO opsT : List ChampOp) :
    Result (Cid × Cid × Cid × List (Cid × CborObject)) := do
  let (b, s) ← ChampWrapper.session (.memory Sha256.sha256) 32 [] none H opsB
  let (o, s) ← ChampWrapper.session (.memory Sha256.sha256) 32 s batO H opsO
  let (t, s) ← ChampWrapper.session (.memory Sha256.sha256) 32 s batT H opsT
  .ok (b.rootHash, o.rootHash, t.rootHash, s)

theorem built_buildThree {batO batT : Option BatId} (hbatO : BatReadable batO)
    (hbatT : BatReadable batT) {H : KeyHasher} {opsB opsO opsT : List ChampOp}
    (hB : ChampOp.AllAdmissible (fun _ => none) opsB)
    (hO : ChampOp.AllAdmissible (fun _ => none) opsO)
    (hT : ChampOp.AllAdmissible (fun _ => none) opsT) {b o t : Cid}
    {s : List (Cid × CborObject)} (h : buildThree batO batT H opsB opsO opsT = .ok (b, o, t, s)) :
    Built (.memory Sha256.sha256) 32 none H s b (mapAfter opsB) ∧
      Built (.memory Sha256.sha256) 32 batO H s o (mapAfter opsO) ∧
      Built (.memory Sha256.sha256) 32 batT H s t (mapAfter opsT) := by
  have hL := ContentAddressedStorage.memory_lawful Sha256.sha256
  obtain ⟨⟨wb, s₁⟩, hb, h⟩ := bind_eq_ok.1 h
  obtain ⟨⟨wo, s₂⟩, ho, h⟩ := bind_eq_ok.1 h
  obtain ⟨⟨wt, s₃⟩, ht, h⟩ := bind_eq_ok.1 h
  cases h
  obtain ⟨-, hb⟩ := built_of_session hL (by rintro b ⟨⟩) (le_refl _) hB hb
  obtain ⟨hext, ho⟩ := built_of_session hL hbatO (le_refl _) hO ho
  obtain ⟨hext', ht⟩ := built_of_session hL hbatT (le_refl _) hT ht
  exact ⟨hb.mono (hext.trans hext'), ho.mono hext', ht⟩

/-- Five keys that agree on every level: they differ after their first twelve bytes. -/
def collidingKey (i : UInt8) : Bytes := List.replicate 12 0 ++ [i]

def collidingOurs : List ChampOp :=
  [.put (collidingKey 1) none (.long 1), .put (collidingKey 2) none (.long 2),
    .put (collidingKey 3) none (.long 3)]

def collidingTheirs : List ChampOp :=
  [.put (collidingKey 4) none (.long 4), .put (collidingKey 5) none (.long 5)]

/-- Hash maps walked in the order their entries were put in. -/
def insertionOrder : HashOrder := fun _ l => l

theorem insertionOrder_lawful : insertionOrder.Lawful := fun _ _ => .refl _

/-- A mirror BAT. -/
def someBat : BatId := ⟨⟨.v1, .raw, ⟨.sha2_256, List.replicate 32 7, by decide⟩⟩⟩

/-- Our update and deletion meet an insertion of theirs. -/
def updateOps : List ChampOp := [.put [1] none (.long 2)]

/-- The entries both sides start from. -/
def baseOps : List ChampOp := [.put [1] none (.long 1), .put [9] none (.long 9)]

/-- The entries both sides start from, and one more. -/
def insertOps : List ChampOp :=
  [.put [1] none (.long 1), .put [9] none (.long 9), .put [17] none (.long 17)]

theorem mergeChamp_correct_disjoint :
    ∃ b o t s root s' w, buildThree none none identityKeyHasher baseOps updateOps insertOps =
        .ok (b, o, t, s) ∧
      mergeChamp (.memory Sha256.sha256) 32 insertionOrder insertionOrder s b o t =
        .ok (root, s') ∧
      ChampWrapper.create (.memory Sha256.sha256) s' root identityKeyHasher = .ok w ∧
      w.get (.memory Sha256.sha256) 32 s' [1] = .ok (some (.long 2)) ∧
      w.get (.memory Sha256.sha256) 32 s' [9] = .ok none ∧
      w.get (.memory Sha256.sha256) 32 s' [17] = .ok (some (.long 17)) := by
  obtain ⟨r, hr⟩ := exists_eq_ok (x := do
    let (b, o, t, s) ← buildThree none none identityKeyHasher baseOps updateOps insertOps
    mergeChamp (.memory Sha256.sha256) 32 insertionOrder insertionOrder s b o t)
    (by decide +kernel)
  obtain ⟨⟨b, o, t, s⟩, hbuild, hmerge⟩ := bind_eq_ok.1 hr
  have hnone : BatReadable none := by rintro b ⟨⟩
  obtain ⟨hB, hO, hT⟩ := built_buildThree hnone hnone (by decide +kernel) (by decide +kernel)
    (by decide +kernel) hbuild
  obtain ⟨w, hw, hget⟩ := (mergeChamp_correct _ _
    (ContentAddressedStorage.memory_lawful Sha256.sha256) 32 (le_refl _) insertionOrder
    insertionOrder insertionOrder_lawful insertionOrder_lawful none none none hnone hnone hnone s
    b o t _ _ _ hB hO hT).2.1 r.1 r.2 hmerge
  exact ⟨b, o, t, s, r.1, r.2, w, hbuild, hmerge, hw, hget [1], hget [9], hget [17]⟩

/-- Some store has the empty champ and champs with our and their entries under the roots `b`, `o`
and `t`, and there `P` holds. -/
def OnBuilt (H : KeyHasher) (batO batT : Option BatId) (opsO opsT : List ChampOp)
    (P : List (Cid × CborObject) → Cid → Cid → Cid → Prop) : Prop :=
  ∃ b o t s, Built (.memory Sha256.sha256) 32 none H s b (mapAfter []) ∧
    Built (.memory Sha256.sha256) 32 batO H s o (mapAfter opsO) ∧
    Built (.memory Sha256.sha256) 32 batT H s t (mapAfter opsT) ∧ P s b o t

/-- A merge in the store in memory. -/
def mergeInMemory (s : List (Cid × CborObject)) (b o t : Cid) :
    Result (Cid × List (Cid × CborObject)) :=
  mergeChamp (.memory Sha256.sha256) 32 insertionOrder insertionOrder s b o t

/-- Disjoint changes whose keys, put together, agree on every level are refused. -/
theorem mergeChamp_collision :
    Disjoint (changed (mapAfter []) (mapAfter collidingOurs))
        (changed (mapAfter []) (mapAfter collidingTheirs)) ∧
      OnBuilt identityKeyHasher none none collidingOurs collidingTheirs fun s b o t =>
        ∀ r, mergeInMemory s b o t ≠ .ok r := by
  obtain ⟨⟨b, o, t, s⟩, hbuild⟩ := exists_eq_ok
    (x := buildThree none none identityKeyHasher [] collidingOurs collidingTheirs)
    (by decide +kernel)
  have hnone : BatReadable none := by rintro b ⟨⟩
  obtain ⟨hB, hO, hT⟩ := built_buildThree hnone hnone (by decide +kernel) (by decide +kernel)
    (by decide +kernel) hbuild
  have hL := ContentAddressedStorage.memory_lawful Sha256.sha256
  have hdisj : Disjoint (changed (mapAfter []) (mapAfter collidingOurs))
      (changed (mapAfter []) (mapAfter collidingTheirs)) := by
    refine Set.disjoint_left.2 ?_
    intro k h h'
    have hO : k ∈ [1, 2, 3].map collidingKey := by
      by_contra hk
      refine h ?_
      simp only [List.map_cons, List.map_nil, List.mem_cons, List.not_mem_nil, or_false,
        not_or] at hk
      simp [mapAfter, collidingOurs, ChampOp.effect, hk]
    have hT : k ∈ [4, 5].map collidingKey := by
      by_contra hk
      refine h' ?_
      simp only [List.map_cons, List.map_nil, List.mem_cons, List.not_mem_nil, or_false,
        not_or] at hk
      simp [mapAfter, collidingTheirs, ChampOp.effect, hk]
    have hdec : ∀ k ∈ [1, 2, 3].map collidingKey, k ∉ [4, 5].map collidingKey := by decide
    exact hdec k hO hT
  refine ⟨hdisj, b, o, t, s, hB, hO, hT, ?_⟩
  intro r hr
  obtain ⟨-, w, es, -, hes, hval⟩ := Built.merge_ok hL (le_refl _) insertionOrder_lawful
    insertionOrder_lawful hnone hnone hnone hB hO hT hr
  refine hes.canonical.not_crowded ((crowdedMap_valueOf hes.valued).1 ?_)
  rw [hval]
  exact ⟨[1, 2, 3, 4, 5].map collidingKey, by decide, by decide, by decide +kernel,
    by decide +kernel⟩

/-- One insertion on each side. -/
def insertOne : List ChampOp := [.put [1] none (.long 1)]

def insertTwo : List ChampOp := [.put [2] none (.long 2)]

/-- The merged nodes carry the mirror BAT of our side, so with different BATs an exchange of the
sides changes the root. -/
theorem mergeChamp_exchange_mirrorBats :
    OnBuilt identityKeyHasher none (some someBat) insertOne insertTwo fun s b o t =>
      ∃ r r', mergeInMemory s b o t = .ok r ∧ mergeInMemory s b t o = .ok r' ∧ r.1 ≠ r'.1 := by
  have hrun : (do
      let (b, o, t, s) ← buildThree none (some someBat) identityKeyHasher [] insertOne insertTwo
      let r ← mergeChamp (.memory Sha256.sha256) 32 insertionOrder insertionOrder s b o t
      let r' ← mergeChamp (.memory Sha256.sha256) 32 insertionOrder insertionOrder s b t o
      Except.ok (decide (r.1 = r'.1)) : Result Bool) = .ok false :=
    eq_ok_of_toOption (by decide +kernel)
  obtain ⟨⟨b, o, t, s⟩, hbuild, hrun⟩ := bind_eq_ok.1 hrun
  obtain ⟨r, hr, hrun⟩ := bind_eq_ok.1 hrun
  obtain ⟨r', hr', hrun⟩ := bind_eq_ok.1 hrun
  obtain ⟨hB, hO, hT⟩ := built_buildThree (by rintro b ⟨⟩)
    (by rintro b ⟨⟩; exact Cid.cast_toBytes rfl) (by decide +kernel) (by decide +kernel)
    (by decide +kernel) hbuild
  exact ⟨b, o, t, s, hB, hO, hT, r, r', hr, hr', of_decide_eq_false (Except.ok.inj hrun)⟩

/-- The merge places keys by the identity hasher: in champs built with another hasher a merged
entry is not found. -/
theorem mergeChamp_other_hasher :
    OnBuilt Sha256.sha256 none none insertOne insertTwo fun s b o t =>
      ∃ r w, mergeInMemory s b o t = .ok r ∧
        ChampWrapper.create (.memory Sha256.sha256) r.2 r.1 Sha256.sha256 = .ok w ∧
        w.get (.memory Sha256.sha256) 32 r.2 [2] ≠
          .ok (mergedMap (mapAfter []) (mapAfter insertOne) (mapAfter insertTwo) [2]) := by
  have hrun : (do
      let (b, o, t, s) ← buildThree none none Sha256.sha256 [] insertOne insertTwo
      let r ← mergeChamp (.memory Sha256.sha256) 32 insertionOrder insertionOrder s b o t
      let w ← ChampWrapper.create (.memory Sha256.sha256) r.2 r.1 Sha256.sha256
      w.get (.memory Sha256.sha256) 32 r.2 [2] : Result (Option CborObject)) = .ok none :=
    eq_ok_of_toOption (by decide +kernel)
  obtain ⟨⟨b, o, t, s⟩, hbuild, hrun⟩ := bind_eq_ok.1 hrun
  obtain ⟨r, hr, hrun⟩ := bind_eq_ok.1 hrun
  obtain ⟨w, hw, hrun⟩ := bind_eq_ok.1 hrun
  have hnone : BatReadable none := by rintro b ⟨⟩
  obtain ⟨hB, hO, hT⟩ := built_buildThree hnone hnone (by decide +kernel) (by decide +kernel)
    (by decide +kernel) hbuild
  refine ⟨b, o, t, s, hB, hO, hT, r, w, hr, hw, ?_⟩
  rw [hrun]
  intro h
  have h := Except.ok.inj h
  revert h
  decide +kernel

/-- What a merge of disjoint changes does not give in general: it may refuse for want of levels,
different mirror BATs make the root depend on the side, and entries of champs with another key
hasher get lost. -/
theorem mergeChamp_limits :
    (Disjoint (changed (mapAfter []) (mapAfter collidingOurs))
        (changed (mapAfter []) (mapAfter collidingTheirs)) ∧
      OnBuilt identityKeyHasher none none collidingOurs collidingTheirs fun s b o t =>
        ∀ r, mergeInMemory s b o t ≠ .ok r) ∧
    (OnBuilt identityKeyHasher none (some someBat) insertOne insertTwo fun s b o t =>
      ∃ r r', mergeInMemory s b o t = .ok r ∧ mergeInMemory s b t o = .ok r' ∧ r.1 ≠ r'.1) ∧
    OnBuilt Sha256.sha256 none none insertOne insertTwo fun s b o t =>
      ∃ r w, mergeInMemory s b o t = .ok r ∧
        ChampWrapper.create (.memory Sha256.sha256) r.2 r.1 Sha256.sha256 = .ok w ∧
        w.get (.memory Sha256.sha256) 32 r.2 [2] ≠
          .ok (mergedMap (mapAfter []) (mapAfter insertOne) (mapAfter insertTwo) [2]) :=
  ⟨mergeChamp_collision, mergeChamp_exchange_mirrorBats, mergeChamp_other_hasher⟩

end Concrete

end ChampMerge

end Peergos
