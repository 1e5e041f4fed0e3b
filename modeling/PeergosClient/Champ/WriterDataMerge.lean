import PeergosClient.Champ.MergeSpec

/-!
# Merging WriterData blocks

`mergeWriterData` merges the `tree` of three WriterData blocks and takes every other field from
`theirs`.
-/

namespace Peergos

namespace ChampMerge

open Champ

section

variable {σ : Type} {S : ContentAddressedStorage σ} {fuel : ℕ} {ourOrder remoteOrder : HashOrder}
  {s s' : σ} {baseWd ourWd theirWd : Cid} {base ours theirs wd : CborObject} {b o t : Cid}

theorem getBlock_of_get {cid : Cid} {block : CborObject} (h : S.get s cid = .ok (some block)) :
    getBlock S s cid = .ok block := by
  unfold getBlock
  rw [h, ok_bind]

theorem withTree_eq_ok {root : Cid} (h : withTree theirs root = .ok wd) (field : String) :
    wd.get field = if field = "tree" then some (.merkleLink root.toBytes)
      else theirs.get field := by
  unfold withTree at h
  split at h
  · cases h
    exact CborObject.get_map_mapInsert ..
  · cases h

/-- A merge that returned merged the trees, and put the merged root into `theirs`. -/
theorem mergeWriterData_eq_ok (hbase : S.get s baseWd = .ok (some base))
    (hours : S.get s ourWd = .ok (some ours)) (htheirs : S.get s theirWd = .ok (some theirs))
    (hb : treeRoot base = .ok b) (ho : treeRoot ours = .ok o) (ht : treeRoot theirs = .ok t)
    (h : mergeWriterData S fuel ourOrder remoteOrder s baseWd ourWd theirWd = .ok (wd, s')) :
    ∃ root, mergeChamp S fuel ourOrder remoteOrder s b o t = .ok (root, s') ∧
      withTree theirs root = .ok wd := by
  unfold mergeWriterData at h
  rw [getBlock_of_get hbase, ok_bind, getBlock_of_get hours, ok_bind, getBlock_of_get htheirs,
    ok_bind, hb, ok_bind, ho, ok_bind, ht, ok_bind] at h
  obtain ⟨⟨root, s₁⟩, hm, h⟩ := bind_eq_ok.1 h
  obtain ⟨merged, hw, h⟩ := bind_eq_ok.1 h
  cases h
  exact ⟨root, hm, hw⟩

end

/-- The merged WriterData: its tree is `base`'s with the changes of both sides, and every other
field is what `theirs` has. -/
theorem mergeWriterData_correct {σ : Type} (S : ContentAddressedStorage σ) (sha256 : Bytes → Bytes)
    (hL : S.Lawful sha256) (fuel : ℕ) (hfuel : hashCodeLength ≤ fuel)
    (ourOrder remoteOrder : HashOrder) (hour : ourOrder.Lawful) (hremote : remoteOrder.Lawful)
    (batB batO batT : Option BatId) (hbatB : BatReadable batB) (hbatO : BatReadable batO)
    (hbatT : BatReadable batT) (s s' : σ) (baseWd ourWd theirWd : Cid)
    (base ours theirs wd : CborObject) (hbase : S.get s baseWd = .ok (some base))
    (hours : S.get s ourWd = .ok (some ours)) (htheirs : S.get s theirWd = .ok (some theirs))
    (b o t : Cid) (hb : treeRoot base = .ok b) (ho : treeRoot ours = .ok o)
    (ht : treeRoot theirs = .ok t) (mB mO mT : AbstractMap)
    (hB : Built S fuel batB identityKeyHasher s b mB)
    (hO : Built S fuel batO identityKeyHasher s o mO)
    (hT : Built S fuel batT identityKeyHasher s t mT)
    (hmerge : mergeWriterData S fuel ourOrder remoteOrder s baseWd ourWd theirWd = .ok (wd, s')) :
    (∀ field, field ≠ "tree" → wd.get field = theirs.get field) ∧
      ∃ root w, wd.get "tree" = some (.merkleLink root.toBytes) ∧
        ChampWrapper.create S s' root identityKeyHasher = .ok w ∧
        ∀ k, w.get S fuel s' k = .ok (mergedMap mB mO mT k) := by
  obtain ⟨root, hm, hw⟩ := mergeWriterData_eq_ok hbase hours htheirs hb ho ht hmerge
  obtain ⟨-, w, es, rfl, hes, hval⟩ :=
    Built.merge_ok hL hfuel hour hremote hbatB hbatO hbatT hB hO hT hm
  have hget := withTree_eq_ok hw
  refine ⟨fun field hf => (hget field).trans (if_neg hf), w.rootHash, w,
    (hget "tree").trans (if_pos rfl), create_of_holds hbatO hes, ?_⟩
  rw [← hval]
  exact hes.get_eq hbatO hfuel

/-! ## A concrete merge -/

/-- A WriterData block. -/
def writerData (fields : List (String × CborObject)) (tree : Cid) : CborObject :=
  CborObject.build (fields ++ [("controller", .byteString [1]), ("tree", .merkleLink tree.toBytes)])

theorem get_build_append (fields : List (String × CborObject)) (k : String) (v : CborObject)
    (field : String) : (CborObject.build (fields ++ [(k, v)])).get field =
      if field = k then some v else (CborObject.build fields).get field := by
  rw [CborObject.build, List.foldl_append]
  exact CborObject.get_map_mapInsert ..

theorem writerData_get (fields : List (String × CborObject)) (tree : Cid) (field : String) :
    (writerData fields tree).get field = if field = "tree" then some (.merkleLink tree.toBytes)
      else if field = "controller" then some (.byteString [1])
      else (CborObject.build fields).get field := by
  have happ : fields ++ [("controller", CborObject.byteString [1]),
      ("tree", .merkleLink tree.toBytes)] =
      (fields ++ [("controller", .byteString [1])]) ++ [("tree", .merkleLink tree.toBytes)] := by
    simp
  rw [writerData, happ, get_build_append, get_build_append]

theorem treeRoot_writerData (fields : List (String × CborObject)) {tree : Cid}
    (h : Cid.cast tree.toBytes = .ok tree) : treeRoot (writerData fields tree) = .ok tree := by
  unfold treeRoot
  rw [writerData_get, if_pos rfl]
  simp only [Option.bind_some, CborObject.asLink, h]
  rfl

/-- The secret links field we added. -/
def ourFields : List (String × CborObject) := [("links", .merkleLink [1])]

/-- Write WriterData blocks for three champs: ours has a secret links field and one file, theirs
one other file. -/
def putWriterData (s : List (Cid × CborObject)) (b o t : Cid) :
    Result (Cid × Cid × Cid × List (Cid × CborObject)) := do
  let (baseWd, s) ← (ContentAddressedStorage.memory Sha256.sha256).put s (writerData [] b)
  let (ourWd, s) ← (ContentAddressedStorage.memory Sha256.sha256).put s (writerData ourFields o)
  let (theirWd, s) ← (ContentAddressedStorage.memory Sha256.sha256).put s (writerData [] t)
  .ok (baseWd, ourWd, theirWd, s)

/-- What is in the store after `putWriterData`. -/
theorem putWriterData_eq_ok {s s' : List (Cid × CborObject)} {b o t baseWd ourWd theirWd : Cid}
    (h : putWriterData s b o t = .ok (baseWd, ourWd, theirWd, s')) :
    (ContentAddressedStorage.memory Sha256.sha256).Extends s s' ∧
      (ContentAddressedStorage.memory Sha256.sha256).get s' baseWd =
        .ok (some (writerData [] b)) ∧
      (ContentAddressedStorage.memory Sha256.sha256).get s' ourWd =
        .ok (some (writerData ourFields o)) ∧
      (ContentAddressedStorage.memory Sha256.sha256).get s' theirWd =
        .ok (some (writerData [] t)) := by
  have hL := ContentAddressedStorage.memory_lawful Sha256.sha256
  obtain ⟨⟨c₁, s₁⟩, h₁, h⟩ := bind_eq_ok.1 h
  obtain ⟨⟨c₂, s₂⟩, h₂, h⟩ := bind_eq_ok.1 h
  obtain ⟨⟨c₃, s₃⟩, h₃, h⟩ := bind_eq_ok.1 h
  cases h
  have e₂ := hL.put_extends h₂
  have e₃ := hL.put_extends h₃
  exact ⟨(hL.put_extends h₁).trans (e₂.trans e₃), e₃ _ _ (e₂ _ _ (hL.put_get h₁)),
    e₃ _ _ (hL.put_get h₂), hL.put_get h₃⟩

theorem Built.cast {σ : Type} {S : ContentAddressedStorage σ} {sha256 : Bytes → Bytes} {fuel : ℕ}
    {bat : Option BatId} {H : KeyHasher} {s : σ} {root : Cid} {m : AbstractMap}
    (h : Built S fuel bat H s root m) (hL : S.Lawful sha256) (hbat : BatReadable bat)
    (hfuel : hashCodeLength ≤ fuel) : Cid.cast root.toBytes = .ok root := by
  obtain ⟨w, es, rfl, hes, -⟩ := h.holds hL hbat hfuel
  exact hes.stored.cast

/-- A merge of three such blocks. -/
theorem exists_writerData_merge :
    ∃ b o t s baseWd ourWd theirWd s' wd s'',
      buildThree none none identityKeyHasher [] insertOne insertTwo = .ok (b, o, t, s) ∧
      putWriterData s b o t = .ok (baseWd, ourWd, theirWd, s') ∧
      mergeWriterData (.memory Sha256.sha256) 32 insertionOrder insertionOrder s' baseWd ourWd
        theirWd = .ok (wd, s'') ∧ wd.get "links" = none := by
  have hrun : (do
      let (b, o, t, s) ← buildThree none none identityKeyHasher [] insertOne insertTwo
      let (baseWd, ourWd, theirWd, s') ← putWriterData s b o t
      let (wd, _) ← mergeWriterData (.memory Sha256.sha256) 32 insertionOrder insertionOrder s'
        baseWd ourWd theirWd
      Except.ok (wd.get "links") : Result (Option CborObject)) = .ok none :=
    eq_ok_of_toOption (by decide +kernel)
  obtain ⟨⟨b, o, t, s⟩, hbuild, hrun⟩ := bind_eq_ok.1 hrun
  obtain ⟨⟨baseWd, ourWd, theirWd, s'⟩, hput, hrun⟩ := bind_eq_ok.1 hrun
  obtain ⟨⟨wd, s''⟩, hmerge, hrun⟩ := bind_eq_ok.1 hrun
  exact ⟨b, o, t, s, baseWd, ourWd, theirWd, s', wd, s'', hbuild, hput, hmerge,
    Except.ok.inj hrun⟩

/-- The two files of both sides are in the merged tree. -/
theorem mergeWriterData_correct_two_files :
    ∃ b o t s baseWd ourWd theirWd s' wd s'' root w,
      buildThree none none identityKeyHasher [] insertOne insertTwo = .ok (b, o, t, s) ∧
      putWriterData s b o t = .ok (baseWd, ourWd, theirWd, s') ∧
      mergeWriterData (.memory Sha256.sha256) 32 insertionOrder insertionOrder s' baseWd ourWd
        theirWd = .ok (wd, s'') ∧
      wd.get "tree" = some (.merkleLink root.toBytes) ∧
      wd.get "controller" = some (.byteString [1]) ∧
      ChampWrapper.create (.memory Sha256.sha256) s'' root identityKeyHasher = .ok w ∧
      w.get (.memory Sha256.sha256) 32 s'' [1] = .ok (some (.long 1)) ∧
      w.get (.memory Sha256.sha256) 32 s'' [2] = .ok (some (.long 2)) := by
  obtain ⟨b, o, t, s, baseWd, ourWd, theirWd, s', wd, s'', hbuild, hput, hmerge, -⟩ :=
    exists_writerData_merge
  have hL := ContentAddressedStorage.memory_lawful Sha256.sha256
  have hnone : BatReadable none := by rintro b ⟨⟩
  obtain ⟨hB, hO, hT⟩ := built_buildThree hnone hnone (by decide +kernel) (by decide +kernel)
    (by decide +kernel) hbuild
  obtain ⟨hext, hb, ho, ht⟩ := putWriterData_eq_ok hput
  obtain ⟨hfields, root, w, hroot, hw, hget⟩ := mergeWriterData_correct _ _ hL 32 (le_refl _)
    insertionOrder insertionOrder insertionOrder_lawful insertionOrder_lawful none none none hnone
    hnone hnone s' s'' baseWd ourWd theirWd _ _ _ wd hb ho ht b o t
    (treeRoot_writerData _ (hB.cast hL hnone (le_refl _)))
    (treeRoot_writerData _ (hO.cast hL hnone (le_refl _)))
    (treeRoot_writerData _ (hT.cast hL hnone (le_refl _))) _ _ _ (hB.mono hext) (hO.mono hext)
    (hT.mono hext) hmerge
  refine ⟨b, o, t, s, baseWd, ourWd, theirWd, s', wd, s'', root, w, hbuild, hput, hmerge, hroot,
    ?_, hw, hget [1], hget [2]⟩
  rw [hfields "controller" (by decide), writerData_get]
  rfl

/-- A secret links field that only we added is not in the merged block. -/
theorem mergeWriterData_drops_our_links :
    ∃ s' baseWd ourWd theirWd base ours theirs wd s'',
      (ContentAddressedStorage.memory Sha256.sha256).get s' baseWd = .ok (some base) ∧
      (ContentAddressedStorage.memory Sha256.sha256).get s' ourWd = .ok (some ours) ∧
      (ContentAddressedStorage.memory Sha256.sha256).get s' theirWd = .ok (some theirs) ∧
      mergeWriterData (.memory Sha256.sha256) 32 insertionOrder insertionOrder s' baseWd ourWd
        theirWd = .ok (wd, s'') ∧
      base.get "links" = none ∧ theirs.get "links" = none ∧
      ours.get "links" = some (.merkleLink [1]) ∧ wd.get "links" = none := by
  obtain ⟨b, o, t, s, baseWd, ourWd, theirWd, s', wd, s'', -, hput, hmerge, hlinks⟩ :=
    exists_writerData_merge
  obtain ⟨-, hb, ho, ht⟩ := putWriterData_eq_ok hput
  refine ⟨s', baseWd, ourWd, theirWd, _, _, _, wd, s'', hb, ho, ht, hmerge, ?_, ?_, ?_, hlinks⟩
  · rw [writerData_get]
    rfl
  · rw [writerData_get]
    rfl
  · rw [writerData_get, if_neg (by decide), if_neg (by decide)]
    rfl

end ChampMerge

end Peergos
