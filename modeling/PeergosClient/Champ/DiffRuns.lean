import PeergosClient.Champ.MergeSpec
import PeergosClient.Champ.Reachable

/-!
# The diff of two champs that calls built

Over two champs that were built with the identity hasher and whose mappings all have values, `diff`
lists every key with different values once, with both values, and no other.  The walk places the
mappings of a bucket by their keys, so under another hasher it misplaces them; and it compares
mappings rather than values, so it lists a key that one side maps to no value.
-/

namespace Peergos

open Outcome (Ensures)

namespace ChampMerge

open Champ

/-- `diff` of two champs from their roots, with nothing carried down. -/
def diffRoots {σ : Type} (S : ContentAddressedStorage σ) (fuel : ℕ) (s : σ) (order : HashOrder)
    (w w' : ChampWrapper) : Result (List DiffEntry) :=
  diff S fuel s order [] (some w.rootHash) (some w'.rootHash) 0 [] [] []

/-- The difference is exact: each key whose values differ is listed once, with both of them, and
no other key is. -/
def ExactDiff {σ : Type} (S : ContentAddressedStorage σ) (fuel : ℕ) (s : σ) (w w' : ChampWrapper)
    (out : List DiffEntry) : Prop :=
  (out.map DiffEntry.key).Nodup ∧ ∀ e, e ∈ out ↔
    w.get S fuel s e.key = .ok e.base ∧ w'.get S fuel s e.key = .ok e.other ∧ e.base ≠ e.other

/-- `diff` is exact on two champs of valued mappings that were built with the identity hasher. -/
theorem diff_exact {σ : Type} (S : ContentAddressedStorage σ) (sha256 : Bytes → Bytes)
    (hL : S.Lawful sha256) (order : HashOrder) (horder : order.Lawful) (bat bat' : Option BatId)
    (hbat : BatReadable bat) (hbat' : BatReadable bat') (fuel : ℕ)
    (hfuel : hashCodeLength ≤ fuel) (w w' : ChampWrapper) (s : σ)
    (hw : ChampWrapper.Reachable S fuel identityKeyHasher bat Present w s)
    (hw' : ChampWrapper.Reachable S fuel identityKeyHasher bat' Present w' s) :
    ∃ out, diffRoots S fuel s order w w' = .ok out ∧ ExactDiff S fuel s w w' out := by
  obtain ⟨es, h⟩ := contains_of_reachable hL hbat hfuel (fun _ hv => hv.notNull) hw
  obtain ⟨es', h'⟩ := contains_of_reachable hL hbat' hfuel (fun _ hv => hv.notNull) hw'
  obtain ⟨out, hout, hspec⟩ := diff_spec horder hbat hbat' (d := 0) hfuel (p := [])
    (side_of_holds h.holds) (side_of_holds h'.holds) rfl h.sorted h'.sorted h.storable h'.storable
    []
  refine ⟨out, hout, hspec.nodup, ?_⟩
  intro e
  rw [hspec.mem, h.get_eq hbat (fun _ hv => hv.notNull) hfuel,
    h'.get_eq hbat' (fun _ hv => hv.notNull) hfuel]
  constructor
  · rintro ⟨hb, ho, hne⟩
    exact ⟨by rw [hb], by rw [ho], hne⟩
  · rintro ⟨hb, ho, hne⟩
    exact ⟨(Except.ok.inj hb).symm, (Except.ok.inj ho).symm, hne⟩

/-! ## Sample champs -/

/-- Four keys whose SHA-256 hashes fall in one slot of the root. -/
def bucketOps : List ChampOp :=
  [.put [0] none (.str "a"), .put [8] none (.str "a"), .put [30] none (.str "a"),
    .put [32] none (.str "a")]

/-- One more, so that the slot needs a node of its own. -/
def shardOps : List ChampOp := bucketOps ++ [.put [39] none (.str "a")]

theorem present_of_mem_shardOps {op : ChampOp} (hop : op ∈ shardOps) (key : Bytes)
    (expected : Option CborObject) (value : CborObject) (h : op = .put key expected value) :
    Present (some value) := by
  subst h
  simp only [shardOps, bucketOps, List.cons_append, List.nil_append, List.mem_cons,
    ChampOp.put.injEq, List.not_mem_nil, or_false] at hop
  rcases hop with h | h | h | h | h <;> simp [Present, h]

/-- Both champs of the sample, opened over one store. -/
theorem reachable_samples {H : KeyHasher} {w w' : ChampWrapper} {s₁ s : List (Cid × CborObject)}
    (hrun : ChampWrapper.session (.memory Sha256.sha256) 32 [] none H bucketOps = .ok (w, s₁))
    (hrun' : ChampWrapper.session (.memory Sha256.sha256) 32 s₁ none H shardOps = .ok (w', s)) :
    ChampWrapper.Reachable (.memory Sha256.sha256) 32 H none Present w s ∧
      ChampWrapper.Reachable (.memory Sha256.sha256) 32 H none Present w' s := by
  obtain ⟨-, -, -, hext⟩ := holds_session (ContentAddressedStorage.memory_lawful _)
    (by rintro b ⟨⟩) (le_refl _) (by decide +kernel) hrun'
  refine ⟨.grown (ChampWrapper.reachable_session ?_ hrun) hext,
    ChampWrapper.reachable_session (fun op hop => present_of_mem_shardOps hop) hrun'⟩
  intro op hop
  exact present_of_mem_shardOps (List.mem_append_left _ hop)

theorem diff_exact_samples : ∃ w w' s out,
    ChampWrapper.Reachable (.memory Sha256.sha256) 32 identityKeyHasher none Present w s ∧
      ChampWrapper.Reachable (.memory Sha256.sha256) 32 identityKeyHasher none Present w' s ∧
      diffRoots (.memory Sha256.sha256) 32 s (fun _ l => l) w w' = .ok out ∧
      ExactDiff (.memory Sha256.sha256) 32 s w w' out := by
  obtain ⟨⟨w, s₁⟩, hrun⟩ := exists_eq_ok (x := ChampWrapper.session (.memory Sha256.sha256) 32 []
    none identityKeyHasher bucketOps) (by decide +kernel)
  obtain ⟨⟨w', s⟩, hrun'⟩ := exists_eq_ok (x := ChampWrapper.session (.memory Sha256.sha256) 32 []
    none identityKeyHasher bucketOps >>= fun r => ChampWrapper.session (.memory Sha256.sha256) 32
      r.2 none identityKeyHasher shardOps) (by decide +kernel)
  rw [hrun, ok_bind] at hrun'
  obtain ⟨hw, hw'⟩ := reachable_samples hrun hrun'
  obtain ⟨out, hout, hexact⟩ := diff_exact _ _ (ContentAddressedStorage.memory_lawful _)
    (fun _ l => l) (fun _ _ => List.Perm.refl _) none none (by rintro b ⟨⟩) (by rintro b ⟨⟩) 32
    (le_refl _) w w' s hw hw'
  exact ⟨w, w', s, out, hw, hw', hout, hexact⟩

/-- Hashed by SHA-256, the sample champs map `[0]` to the same value, but it is listed: the bucket
on the left is carried down by its keys, the tree on the right by their hashes. -/
theorem diff_misplaces : ∃ w w' s out,
    ChampWrapper.Reachable (.memory Sha256.sha256) 32 Sha256.sha256 none Present w s ∧
      ChampWrapper.Reachable (.memory Sha256.sha256) 32 Sha256.sha256 none Present w' s ∧
      diffRoots (.memory Sha256.sha256) 32 s (fun _ l => l) w w' = .ok out ∧
      ¬ ExactDiff (.memory Sha256.sha256) 32 s w w' out := by
  have heval : (do
      let r ← ChampWrapper.session (.memory Sha256.sha256) 32 [] none Sha256.sha256 bucketOps
      let r' ← ChampWrapper.session (.memory Sha256.sha256) 32 r.2 none Sha256.sha256 shardOps
      let out ← diffRoots (.memory Sha256.sha256) 32 r'.2 (fun _ l => l) r.1 r'.1
      let value ← r'.1.get (.memory Sha256.sha256) 32 r'.2 [0]
      (.ok (value, decide ((⟨[0], some (.str "a"), none⟩ : DiffEntry) ∈ out)) : Result _)) =
        .ok (some (.str "a"), true) := eq_ok_of_toOption (by decide +kernel)
  obtain ⟨⟨w, s₁⟩, hrun, heval⟩ := bind_eq_ok.1 heval
  obtain ⟨⟨w', s⟩, hrun', heval⟩ := bind_eq_ok.1 heval
  dsimp only at hrun' heval
  obtain ⟨out, hout, heval⟩ := bind_eq_ok.1 heval
  obtain ⟨value, hvalue, heval⟩ := bind_eq_ok.1 heval
  obtain ⟨hw, hw'⟩ := reachable_samples hrun hrun'
  refine ⟨w, w', s, out, hw, hw', hout, ?_⟩
  rintro ⟨-, hexact⟩
  obtain ⟨hval, hmem⟩ := Prod.mk.inj (Except.ok.inj heval)
  have hlisted := ((hexact _).1 (of_decide_eq_true hmem)).2.1
  rw [hvalue, hval] at hlisted
  cases hlisted

/-- A key mapped to no value reads as an absent one does, but it is listed. -/
theorem diff_lists_valueless : ∃ w w' s out,
    ChampWrapper.Reachable (.memory Sha256.sha256) 32 identityKeyHasher none NotNull w s ∧
      ChampWrapper.Reachable (.memory Sha256.sha256) 32 identityKeyHasher none NotNull w' s ∧
      diffRoots (.memory Sha256.sha256) 32 s (fun _ l => l) w w' = .ok out ∧
      ¬ ExactDiff (.memory Sha256.sha256) 32 s w w' out := by
  have heval : (do
      let r ← ChampWrapper.session (.memory Sha256.sha256) 32 [] none identityKeyHasher []
      let r' ← r.1.put (.memory Sha256.sha256) 32 r.2 [0] none none
      let out ← diffRoots (.memory Sha256.sha256) 32 r'.2 (fun _ l => l) r.1 r'.1
      (.ok (decide ((⟨[0], none, none⟩ : DiffEntry) ∈ out)) : Result _)) = .ok true :=
    eq_ok_of_toOption (by decide +kernel)
  obtain ⟨⟨w, s₁⟩, hrun, heval⟩ := bind_eq_ok.1 heval
  obtain ⟨⟨w', s⟩, hput, heval⟩ := bind_eq_ok.1 heval
  dsimp only at hput heval
  obtain ⟨out, hout, heval⟩ := bind_eq_ok.1 heval
  have hL := ContentAddressedStorage.memory_lawful Sha256.sha256
  have hbat : BatReadable none := by rintro b ⟨⟩
  have hw : ChampWrapper.Reachable (.memory Sha256.sha256) 32 identityKeyHasher none NotNull w s₁ :=
    ChampWrapper.reachable_session (fun op hop => absurd hop List.not_mem_nil) hrun
  obtain ⟨es, h⟩ := contains_of_reachable hL hbat (le_refl _) (fun _ hv => hv) hw
  have hens : Ensures (w.put (.memory Sha256.sha256) 32 s₁ [0] none none) _ _ :=
    h.put_ensures hL hbat (le_refl _) (fun _ hv => hv) (by simp [NotNull])
  have hext := (hens.of_eq_ok hput).2.1
  refine ⟨w, w', s, out, .grown hw hext, .put hw (by simp [NotNull]) hput, hout, ?_⟩
  rintro ⟨-, hexact⟩
  exact ((hexact _).1 (of_decide_eq_true (Except.ok.inj heval))).2.2 rfl

/-- Neither the identity hasher nor the values can be left out. -/
theorem diff_not_exact :
    (∃ w w' s out,
      ChampWrapper.Reachable (.memory Sha256.sha256) 32 Sha256.sha256 none Present w s ∧
        ChampWrapper.Reachable (.memory Sha256.sha256) 32 Sha256.sha256 none Present w' s ∧
        diffRoots (.memory Sha256.sha256) 32 s (fun _ l => l) w w' = .ok out ∧
        ¬ ExactDiff (.memory Sha256.sha256) 32 s w w' out) ∧
      ∃ w w' s out,
        ChampWrapper.Reachable (.memory Sha256.sha256) 32 identityKeyHasher none NotNull w s ∧
          ChampWrapper.Reachable (.memory Sha256.sha256) 32 identityKeyHasher none NotNull w' s ∧
          diffRoots (.memory Sha256.sha256) 32 s (fun _ l => l) w w' = .ok out ∧
          ¬ ExactDiff (.memory Sha256.sha256) 32 s w w' out :=
  ⟨diff_misplaces, diff_lists_valueless⟩

end ChampMerge

end Peergos
