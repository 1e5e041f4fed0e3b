import PeergosClient.Champ.Written
import PeergosClient.Remote.DirectS3

/-!
# What a block write returns

The hashes a write of blocks returns are the ones the server's answer names, or those in the
addresses S3 was given; none is compared with the blocks.  So the writes return the hashes of their
blocks exactly when the other end is truthful: each answer the client accepts names the blocks of
its request, and each block is presigned an address that ends in its own key.
-/

namespace Peergos

/-! ## What is to be shown -/

section Property

variable {τ : Type} (env : RemoteEnv) (S : BlockStorage τ)

/-- Each write of blocks returns nothing but their hashes, in order. -/
structure BlockStorage.ReturnsHashes : Prop where
  put : ∀ owner writer signatures blocks tid,
    (S.put owner writer signatures blocks tid).Returns fun cids =>
      hashesOf env false blocks = .ok cids
  putRaw : ∀ owner writer signatures blocks tid,
    (S.putRaw owner writer signatures blocks tid).Returns fun cids =>
      hashesOf env true blocks = .ok cids
  putBatch : ∀ owner signer blocks tid,
    (S.putBatch owner signer blocks tid).Returns fun cids => hashesOf env false blocks = .ok cids
  putRawBatch : ∀ owner signer blocks tid,
    (S.putRawBatch owner signer blocks tid).Returns fun cids => hashesOf env true blocks = .ok cids

/-- A link of the node `c`, or of a node read from the storage. -/
def Handed (S : ContentAddressedStorage τ) (c : Champ) (link : Cid) : Prop :=
  link ∈ c.links ∨ ∃ s cid n, Champ.loadLink S s cid = .ok n ∧ link ∈ n.links

/-- A champ put to the storage comes back with the root it had, or with a node it has written under
that node's hash, and every link it has added is to a node it has written. -/
def BlockStorage.SignsWritten : Prop :=
  ∀ owner signer tid read fuel s c key hash depth expected value bitWidth maxCollisions keyHasher
    ourHash r,
    Champ.put (S.nodes owner signer tid read) fuel s c key hash depth expected value bitWidth
      maxCollisions keyHasher ourHash = .ok r →
    Champ.PutOutcome (S.nodes owner signer tid read) env.sha256
      (Handed (S.nodes owner signer tid read) c) s c ourHash r

/-- What is claimed of block writes. -/
def BlockStorage.WritesTruly : Prop := S.ReturnsHashes env ∧ S.SignsWritten env

variable {env S}

theorem BlockStorage.ReturnsHashes.putsHash (h : S.ReturnsHashes env) (owner : PublicKeyHash)
    (signer : SigningPrivateKeyAndPublicHash) (tid : TransactionId)
    (read : τ → Cid → Result (Option CborObject)) :
    Champ.PutsHash (S.nodes owner signer tid read) env.sha256 := by
  intro s b c s' hput
  have hrun : putBlockSigned S owner signer b.toBytes tid s = (.ok c, s') := by
    simp only [BlockStorage.nodes] at hput
    split at hput
    · rename_i heq
      cases hput
      exact heq
    · cases hput
  obtain ⟨cids, s₁, hcids, hrest⟩ := Exec.bind_eq_ok hrun
  have hhash := (h.putBatch owner signer [b.toBytes] tid).of_run hcids
  cases cids with
  | nil => cases hrest
  | cons cid cids =>
      cases hrest
      simp only [hashesOf, List.mapM_cons, List.mapM_nil, hashToCid] at hhash
      cases hc : buildCid (env.sha256 b.toBytes) false with
      | error e =>
          rw [hc] at hhash
          cases hhash
      | ok cid' =>
          rw [hc] at hhash
          cases hhash
          rfl

theorem BlockStorage.ReturnsHashes.writesTruly (h : S.ReturnsHashes env) : S.WritesTruly env := by
  refine ⟨h, ?_⟩
  intro owner signer tid read fuel s c key hash depth expected value bitWidth maxCollisions
    keyHasher ourHash r hrun
  refine Champ.put_outcome (h.putsHash owner signer tid read) ?_ (fun cid hcid => Or.inl hcid) hrun
  intro s cid n hn link hlink
  exact Or.inr ⟨s, cid, n, hn, hlink⟩

end Property

/-! ## Groups of blocks -/

section Groups

variable {env : RemoteEnv} {isRaw : Bool} {max : ℕ}

theorem hashesOf_append {blocks blocks' : List Bytes} {cids cids' : List Cid}
    (h : hashesOf env isRaw blocks = .ok cids) (h' : hashesOf env isRaw blocks' = .ok cids') :
    hashesOf env isRaw (blocks ++ blocks') = .ok (cids ++ cids') := by
  unfold hashesOf at *
  rw [List.mapM_append, h, h']
  rfl

/-- The bytes of some blocks. -/
def bytesIn (blocks : List Bytes) : ℕ := (blocks.map List.length).sum

@[simp] theorem bytesIn_nil : bytesIn [] = 0 := rfl

@[simp] theorem bytesIn_cons (b : Bytes) (blocks : List Bytes) :
    bytesIn (b :: blocks) = b.length + bytesIn blocks := by
  simp [bytesIn]

@[simp] theorem bytesIn_append (blocks blocks' : List Bytes) :
    bytesIn (blocks ++ blocks') = bytesIn blocks + bytesIn blocks' := by
  simp [bytesIn]

/-- A group that `group_by_size` can make: one block, or blocks that fit together. -/
structure SizeGroup (max : ℕ) (group : List Bytes) : Prop where
  nonempty : group ≠ []
  within : group.length = 1 ∨ bytesIn group ≤ max

theorem groupBySizeLoop_spec (blocks : List Bytes) (groups : List (List Bytes)) (used : ℕ)
    (hgroups : ∀ g ∈ groups, SizeGroup max g) (hused : ∀ g ∈ groups.getLast?, used = bytesIn g) :
    (groupBySizeLoop max blocks groups used).flatten = groups.flatten ++ blocks ∧
      ∀ g ∈ groupBySizeLoop max blocks groups used, SizeGroup max g := by
  induction blocks generalizing groups used with
  | nil => simpa [groupBySizeLoop] using hgroups
  | cons b blocks ih =>
      rw [groupBySizeLoop]
      split
      · obtain ⟨hflat, hall⟩ := ih (groups ++ [[b]]) b.length (by
          intro g hg
          rcases List.mem_append.1 hg with hg | hg
          · exact hgroups g hg
          · cases List.mem_singleton.1 hg
            exact ⟨by simp, Or.inl rfl⟩) (by simp)
        exact ⟨by rw [hflat]; simp, hall⟩
      · rename_i hroom
        rw [not_or, not_lt] at hroom
        rcases List.eq_nil_or_concat' groups with rfl | ⟨init, g, rfl⟩
        · exact absurd rfl hroom.1
        · obtain rfl : used = bytesIn g := hused g (by simp)
          rw [List.modifyLast_concat]
          obtain ⟨hflat, hall⟩ := ih (init ++ [g ++ [b]]) (bytesIn g + b.length) (by
            intro g' hg'
            rcases List.mem_append.1 hg' with hg' | hg'
            · exact hgroups g' (List.mem_append_left _ hg')
            · cases List.mem_singleton.1 hg'
              exact ⟨by simp, Or.inr (by simpa using hroom.2)⟩) (by simp)
          exact ⟨by rw [hflat]; simp, hall⟩

theorem flatten_groupBySize (blocks : List Bytes) (max : ℕ) :
    (groupBySize blocks max).flatten = blocks := by
  have h : (groupBySizeLoop max blocks [] 0).flatten = [].flatten ++ blocks :=
    (groupBySizeLoop_spec blocks [] 0 (by simp) (by simp)).1
  simpa [groupBySize] using h

theorem sizeGroup_of_mem {blocks g : List Bytes} (hg : g ∈ groupBySize blocks max) :
    SizeGroup max g :=
  (groupBySizeLoop_spec blocks [] 0 (by simp) (by simp)).2 g hg

theorem groupBySizeLoop_within (blocks group : List Bytes)
    (h : bytesIn group + bytesIn blocks ≤ max) :
    groupBySizeLoop max blocks [group] (bytesIn group) = [group ++ blocks] := by
  induction blocks generalizing group with
  | nil => simp [groupBySizeLoop]
  | cons b blocks ih =>
      rw [bytesIn_cons] at h
      have hroom : ¬ ([group] = [] ∨ bytesIn group + b.length > max) := by simp; omega
      have hstep : [group].modifyLast (· ++ [b]) = [group ++ [b]] :=
        List.modifyLast_concat _ group []
      have hsize : bytesIn group + b.length = bytesIn (group ++ [b]) := by simp
      rw [groupBySizeLoop, if_neg hroom, hstep, hsize, ih (group ++ [b]) (by simp; omega)]
      simp

/-- Such a group stays one group. -/
theorem SizeGroup.groupBySize_eq {group : List Bytes} (h : SizeGroup max group) :
    groupBySize group max = [group] := by
  obtain ⟨hne, hwithin⟩ := h
  cases group with
  | nil => exact absurd rfl hne
  | cons b blocks =>
      rw [groupBySize, groupBySizeLoop, if_pos (Or.inl rfl), List.nil_append]
      have hsize : b.length = bytesIn [b] := by simp
      rcases hwithin with hone | hle
      · cases List.length_eq_zero_iff.1 (Nat.succ.inj hone)
        rfl
      · rw [hsize, groupBySizeLoop_within blocks [b] (by simpa using hle)]
        rfl

end Groups

/-! ## The server -/

section Http

variable {ω : Type} (env : RemoteEnv) (h : HttpStorage ω)

/-- The blocks and signatures of a request that `bulk_put` can make. -/
structure HttpStorage.PutGroup (signatures blocks : List Bytes) : Prop where
  nonempty : blocks ≠ []
  within : bytesIn blocks ≤ maxBlockSize
  signed : blocks.length = signatures.length
  nonemptySigs : h.isPeergosServer = true → [] ∉ signatures

/-- Every answer to a write request that the client accepts names the blocks of the request. -/
structure HttpStorage.AnswersTruly : Prop where
  /-- `block/put/bulk`. -/
  group : ∀ {owner writer tid isRaw signatures blocks url body raw cids},
    h.PutGroup signatures blocks →
    HttpStorage.writeUrl owner writer tid "block/put/bulk" isRaw = .ok url →
    body = (BlockWriteGroup.mk blocks signatures).toCbor.toBytes →
    (h.poster.post url body false (writeTimeoutMs 30000 body.length)).Yields raw →
    parseHashStream env raw = .ok cids → cids.length = blocks.length →
    hashesOf env isRaw blocks = .ok cids
  /-- `block/put/bulk/v2`. -/
  batch : h.isPeergosServer = true →
    ∀ {owner signer tid isRaw blocks url body raw cids},
    SizeGroup maxBlockSize blocks →
    HttpStorage.batchRequest env owner signer tid isRaw blocks = .ok (url, body) →
    (h.poster.post url body false (writeTimeoutMs 30000 body.length)).Yields raw →
    parseLinkList raw = .ok cids → hashesOf env isRaw blocks = .ok cids

variable {env h}

/-- A call to the other end is answered by it. -/
theorem returns_ask {α : Type} (x : Exec ω Fault α) : (ask x).Returns x.Yields := by
  rintro a ⟨s, s', hx⟩
  exact ⟨s.world, (x s.world).2, Prod.ext (Prod.mk.inj hx).1 rfl⟩

theorem any_isEmpty_iff {signatures : List Bytes} :
    signatures.any List.isEmpty = true ↔ [] ∈ signatures := by
  simp [List.isEmpty_iff]

section Sufficient

variable (hT : h.AnswersTruly env) (owner writer : PublicKeyHash)
  (signer : SigningPrivateKeyAndPublicHash) (tid : TransactionId) (isRaw : Bool)

include hT

theorem returns_putGroup {signatures blocks : List Bytes} (hg : h.PutGroup signatures blocks) :
    (HttpStorage.putGroup env h owner writer tid signatures blocks isRaw).Returns fun cids =>
      hashesOf env isRaw blocks = .ok cids := by
  refine Exec.Returns.bind (Exec.Returns.lift fun _ h => h) fun url hurl => ?_
  refine Exec.Returns.bind (returns_ask _) fun raw hraw => ?_
  refine Exec.Returns.bind (Exec.Returns.lift fun _ h => h) fun cids hcids => ?_
  split
  · exact Exec.Returns.fail
  · rename_i hlen
    exact Exec.Returns.pure (hT.group hg hurl rfl hraw hcids (not_not.1 hlen))

theorem returns_bulkPutLoop (rest : List (Bytes × Bytes)) (groupBlocks groupSigs : List Bytes)
    (done : List Bytes) (result : List Cid) (hdone : hashesOf env isRaw done = .ok result)
    (hgroup : groupBlocks ≠ [] → h.PutGroup groupSigs groupBlocks)
    (hempty : groupBlocks = [] → groupSigs = [])
    (hrest : h.isPeergosServer = true → [] ∉ rest.map Prod.snd) :
    (HttpStorage.bulkPutLoop env h owner writer tid isRaw rest groupBlocks groupSigs
      (bytesIn groupBlocks) result).Returns fun cids =>
      hashesOf env isRaw (done ++ groupBlocks ++ rest.map Prod.fst) = .ok cids := by
  induction rest generalizing groupBlocks groupSigs done result with
  | nil =>
      rw [HttpStorage.bulkPutLoop]
      split
      · rename_i hnil
        rw [hnil]
        exact Exec.Returns.pure (by simpa using hdone)
      · rename_i hne
        refine Exec.Returns.bind (returns_putGroup hT owner writer tid isRaw (hgroup hne))
          fun cids hcids => Exec.Returns.pure ?_
        simpa using hashesOf_append hdone hcids
  | cons e rest ih =>
      obtain ⟨block, sig⟩ := e
      have hsig : h.isPeergosServer = true → sig ≠ [] ∧ [] ∉ rest.map Prod.snd := by
        intro hp
        have hnot := hrest hp
        rw [List.map_cons, List.mem_cons, not_or] at hnot
        exact ⟨fun h => hnot.1 h.symm, hnot.2⟩
      rw [HttpStorage.bulkPutLoop]
      split
      · exact Exec.Returns.fail
      · rename_i hsize
        rw [not_lt] at hsize
        split
        · rename_i hfull
          refine Exec.Returns.bind (returns_putGroup hT owner writer tid isRaw (hgroup hfull.2))
            fun cids hcids => ?_
          have hnext := ih [block] [sig] (done ++ groupBlocks) (result ++ cids)
            (hashesOf_append hdone hcids)
            (fun _ => ⟨by simp, by simpa using hsize, rfl, fun hp => by simpa using (hsig hp).1.symm⟩)
            (by simp) fun hp => (hsig hp).2
          simpa using hnext
        · rename_i hroom
          have hfits : bytesIn (groupBlocks ++ [block]) ≤ maxBlockSize := by
            rw [not_and_or, not_lt, not_not] at hroom
            rcases hroom with hroom | rfl
            · simpa using hroom
            · simpa using hsize
          have hnext := ih (groupBlocks ++ [block]) (groupSigs ++ [sig]) done result hdone
            (fun _ => ⟨by simp, hfits, ?_, ?_⟩) (by simp) fun hp => (hsig hp).2
          · simpa using hnext
          · by_cases hnil : groupBlocks = []
            · simp [hnil, hempty hnil]
            · simp [(hgroup hnil).signed]
          · intro hp
            rw [List.mem_append, List.mem_singleton, not_or]
            refine ⟨?_, (hsig hp).1.symm⟩
            by_cases hnil : groupBlocks = []
            · simp [hempty hnil]
            · exact (hgroup hnil).nonemptySigs hp

theorem returns_bulkPut (signatures blocks : List Bytes) :
    (HttpStorage.bulkPut env h owner writer tid signatures blocks isRaw).Returns fun cids =>
      hashesOf env isRaw blocks = .ok cids := by
  unfold HttpStorage.bulkPut
  split
  · exact Exec.Returns.fail
  · rename_i hlen
    split
    · exact Exec.Returns.fail
    · rename_i hsigs
      rw [any_isEmpty_iff, not_and] at hsigs
      have hlen' : blocks.length = signatures.length := not_not.1 hlen
      have hfst : (blocks.zip signatures).map Prod.fst = blocks :=
        List.map_fst_zip (le_of_eq hlen')
      have hsnd : (blocks.zip signatures).map Prod.snd = signatures :=
        List.map_snd_zip (le_of_eq hlen'.symm)
      have hloop := returns_bulkPutLoop hT owner writer tid isRaw (blocks.zip signatures) [] [] []
        [] rfl (fun h => absurd rfl h) (fun _ => rfl) fun hp => by rw [hsnd]; exact hsigs hp
      simpa [hfst] using hloop

theorem returns_batchSignedPutLoop (hp : h.isPeergosServer = true) (groups : List (List Bytes))
    (hgroups : ∀ g ∈ groups, SizeGroup maxBlockSize g) (done : List Bytes) (res : List Cid)
    (hdone : hashesOf env isRaw done = .ok res) :
    (HttpStorage.batchSignedPutLoop env h owner signer tid isRaw groups res).Returns fun out =>
      ∀ cids ∈ out, hashesOf env isRaw (done ++ groups.flatten) = .ok cids := by
  induction groups generalizing done res with
  | nil =>
      refine Exec.Returns.pure ?_
      rintro cids ⟨⟩
      simpa using hdone
  | cons group groups ih =>
      rw [List.forall_mem_cons] at hgroups
      refine Exec.Returns.bind (Exec.Returns.lift fun _ h => h) fun request hrequest => ?_
      obtain ⟨url, body⟩ := request
      refine Exec.Returns.bind (Exec.Returns.attempt (returns_ask _)) fun answer hanswer => ?_
      split
      · rename_i raw
        refine Exec.Returns.bind (Exec.Returns.lift fun _ h => h) fun cids hcids => ?_
        have hhash := hT.batch hp hgroups.1 hrequest (hanswer raw rfl) hcids
        have hnext := ih hgroups.2 (done ++ group) (res ++ cids) (hashesOf_append hdone hhash)
        simpa using hnext
      · split
        · refine Exec.Returns.bind Exec.Returns.any fun _ _ => Exec.Returns.pure ?_
          rintro cids ⟨⟩
        · exact Exec.Returns.fail
      · exact Exec.Returns.fail

theorem returns_bulkPutBatch (blocks : List Bytes) :
    (HttpStorage.bulkPutBatch env h owner signer tid blocks isRaw).Returns fun cids =>
      hashesOf env isRaw blocks = .ok cids := by
  have hbatch : (HttpStorage.batchSignedPut env h owner signer tid blocks isRaw).Returns fun out =>
      ∀ cids ∈ out, hashesOf env isRaw blocks = .ok cids := by
    refine Exec.Returns.bind Exec.Returns.any fun supported _ => ?_
    split
    · refine Exec.Returns.pure ?_
      rintro cids ⟨⟩
    · rename_i hp
      rw [not_or, Bool.not_eq_false, Bool.not_eq_false] at hp
      have hloop := returns_batchSignedPutLoop hT owner signer tid isRaw hp.1
        (groupBySize blocks maxBlockSize) (fun g hg => sizeGroup_of_mem hg) [] [] rfl
      simpa [flatten_groupBySize] using hloop
  refine Exec.Returns.bind hbatch fun out hout => ?_
  cases out with
  | some cids => exact Exec.Returns.pure (hout cids rfl)
  | none =>
      refine Exec.Returns.bind Exec.Returns.any fun sigs _ => ?_
      exact returns_bulkPut hT owner signer.publicKeyHash tid isRaw sigs blocks

theorem HttpStorage.AnswersTruly.returnsHashes : (h.storage env).ReturnsHashes env where
  put owner writer signatures blocks tid :=
    returns_bulkPut hT owner writer tid false signatures blocks
  putRaw owner writer signatures blocks tid :=
    returns_bulkPut hT owner writer tid true signatures blocks
  putBatch owner signer blocks tid := returns_bulkPutBatch hT owner signer tid false blocks
  putRawBatch owner signer blocks tid := returns_bulkPutBatch hT owner signer tid true blocks

end Sufficient

section Necessary

variable {owner writer : PublicKeyHash} {signer : SigningPrivateKeyAndPublicHash}
  {tid : TransactionId} {isRaw : Bool}

theorem ask_run {α : Type} {x : Exec ω Fault α} {s : Session ω} {r : Except Fault α} {w : ω}
    (hx : x s.world = (r, w)) : ask x s = (r, { s with world := w }) := by
  simp only [ask, Exec.zoom, hx]

/-- Blocks that fit one group are sent as one. -/
theorem bulkPutLoop_within (rest : List (Bytes × Bytes)) (groupBlocks groupSigs : List Bytes)
    (result : List Cid) (hne : groupBlocks ++ rest.map Prod.fst ≠ [])
    (hfits : bytesIn groupBlocks + bytesIn (rest.map Prod.fst) ≤ maxBlockSize) :
    HttpStorage.bulkPutLoop env h owner writer tid isRaw rest groupBlocks groupSigs
      (bytesIn groupBlocks) result = (do
        let hashes ← HttpStorage.putGroup env h owner writer tid (groupSigs ++ rest.map Prod.snd)
          (groupBlocks ++ rest.map Prod.fst) isRaw
        pure (result ++ hashes)) := by
  induction rest generalizing groupBlocks groupSigs with
  | nil =>
      rw [List.map_nil, List.append_nil] at hne
      simp [HttpStorage.bulkPutLoop, hne]
  | cons e rest ih =>
      obtain ⟨block, sig⟩ := e
      simp only [List.map_cons, bytesIn_cons] at hfits
      have hsize : bytesIn groupBlocks + block.length = bytesIn (groupBlocks ++ [block]) := by simp
      rw [HttpStorage.bulkPutLoop, if_neg (by omega), if_neg (by omega), hsize,
        ih (groupBlocks ++ [block]) (groupSigs ++ [sig]) (by simp) (by simp; omega)]
      simp

theorem putGroup_run {signatures blocks : List Bytes} {url : String} {body raw : Bytes}
    {cids : List Cid} {s : Session ω} {w : ω}
    (hurl : HttpStorage.writeUrl owner writer tid "block/put/bulk" isRaw = .ok url)
    (hbody : body = (BlockWriteGroup.mk blocks signatures).toCbor.toBytes)
    (hpost : h.poster.post url body false (writeTimeoutMs 30000 body.length) s.world = (.ok raw, w))
    (hcids : parseHashStream env raw = .ok cids) (hlen : cids.length = blocks.length) :
    HttpStorage.putGroup env h owner writer tid signatures blocks isRaw s =
      (.ok cids, { s with world := w }) := by
  subst hbody
  unfold HttpStorage.putGroup
  simp only [hurl, Exec.lift_ok_bind]
  rw [Exec.bind_of_ok (ask_run hpost)]
  simp only [hcids, Exec.lift_ok_bind, hlen, ne_eq, not_true, if_false, Exec.pure_run]

/-- A storage that returns true hashes whatever it is answered is answered truly. -/
theorem HttpStorage.answersTruly (hR : (h.storage env).ReturnsHashes env) :
    h.AnswersTruly env where
  group := by
    intro owner writer tid isRaw signatures blocks url body raw cids hg hurl hbody hraw hcids hlen
    obtain ⟨w, w', hpost⟩ := hraw
    have hfst : (blocks.zip signatures).map Prod.fst = blocks :=
      List.map_fst_zip (le_of_eq hg.signed)
    have hsnd : (blocks.zip signatures).map Prod.snd = signatures :=
      List.map_snd_zip (le_of_eq hg.signed.symm)
    have hrun : HttpStorage.bulkPut env h owner writer tid signatures blocks isRaw ⟨w, true, true⟩ =
        (.ok cids, ⟨w', true, true⟩) := by
      have hsigs : ¬ (h.isPeergosServer = true ∧ signatures.any List.isEmpty = true) := by
        rintro ⟨hp, hmem⟩
        exact hg.nonemptySigs hp (any_isEmpty_iff.1 hmem)
      have hloop : HttpStorage.bulkPutLoop env h owner writer tid isRaw (blocks.zip signatures) []
          [] (bytesIn []) [] = _ :=
        bulkPutLoop_within (blocks.zip signatures) [] [] [] (by simpa [hfst] using hg.nonempty)
          (by simpa [hfst] using hg.within)
      rw [HttpStorage.bulkPut, if_neg (not_not.2 hg.signed), if_neg hsigs]
      rw [bytesIn_nil] at hloop
      rw [hloop, hfst, hsnd]
      exact Exec.bind_of_ok (putGroup_run hurl hbody hpost hcids hlen)
    cases isRaw with
    | false => exact (hR.put owner writer signatures blocks tid).of_run hrun
    | true => exact (hR.putRaw owner writer signatures blocks tid).of_run hrun
  batch := by
    intro hp owner signer tid isRaw blocks url body raw cids hg hrequest hraw hcids
    obtain ⟨w, w', hpost⟩ := hraw
    have hrun : HttpStorage.bulkPutBatch env h owner signer tid blocks isRaw ⟨w, true, true⟩ =
        (.ok cids, ⟨w', true, true⟩) := by
      have hloop : HttpStorage.batchSignedPutLoop env h owner signer tid isRaw [blocks] []
          ⟨w, true, true⟩ = (.ok (some cids), ⟨w', true, true⟩) := by
        rw [HttpStorage.batchSignedPutLoop]
        simp only [hrequest, Exec.lift_ok_bind]
        have hask : Exec.attempt (ask (h.poster.post url body false
            (writeTimeoutMs 30000 body.length))) ⟨w, true, true⟩ =
            (.ok (.ok raw), (⟨w', true, true⟩ : Session ω)) := by
          rw [Exec.attempt_run, ask_run hpost]
        rw [Exec.bind_of_ok hask]
        simp only [hcids, Exec.lift_ok_bind, HttpStorage.batchSignedPutLoop, List.nil_append,
          Exec.pure_run]
      have hbatch : HttpStorage.batchSignedPut env h owner signer tid blocks isRaw
          ⟨w, true, true⟩ = (.ok (some cids), ⟨w', true, true⟩) := by
        unfold HttpStorage.batchSignedPut
        rw [Exec.bind_of_ok (Exec.reads_run ..)]
        simpa [hp, hg.groupBySize_eq] using hloop
      exact Exec.bind_of_ok hbatch
    cases isRaw with
    | false => exact (hR.putBatch owner signer blocks tid).of_run hrun
    | true => exact (hR.putRawBatch owner signer blocks tid).of_run hrun

end Necessary

end Http

/-! ## S3 -/

section S3

variable {ω : Type} (env : RemoteEnv) (d : DirectS3Storage ω)

/-- S3 takes some blocks, each at its address. -/
def DirectS3Storage.puts (pairs : List (Bytes × PresignedUrl)) : Exec ω Fault Unit :=
  Exec.forEach pairs fun p => do
    let _ ← d.direct.put p.2.base p.1 p.2.headerPairs
    pure ()

/-- The hashes that some addresses end in. -/
def addressedHashes (urls : List PresignedUrl) : Result (List Cid) :=
  urls.mapM fun u => keyToHash u.key

/-- The addresses the server presigns for some blocks end in the keys of those blocks, whenever S3
takes the blocks there. -/
structure DirectS3Storage.PresignsTruly : Prop where
  /-- `blockstore/auth`. -/
  auth : ∀ {owner writer tid signatures blocks url body raw urls cids w w₁ w₂},
    ¬ d.ToServer blocks →
    DirectS3Storage.authUrl owner writer tid "blockstore/auth" true = .ok url →
    body = (writeAuthRequest signatures blocks).toBytes →
    d.server.postUnzip url body (writeTimeoutMs 60000 body.length) w = (.ok raw, w₁) →
    parsePresignedList raw = .ok urls → urls.length = blocks.length →
    d.puts (blocks.zip urls) w₁ = (.ok (), w₂) → addressedHashes urls = .ok cids →
    hashesOf env true blocks = .ok cids
  /-- `blockstore/auth/v2`. -/
  authV2 : ∀ {owner signer tid blocks hashes signature url body raw urls cids w w₁ w₂},
    ¬ d.ToServer blocks → hashesOf env true blocks = .ok hashes →
    env.signMessage (SigningPrivateKeyAndPublicHash.secret signer)
      (blockWritePayload env owner hashes) = .ok signature →
    DirectS3Storage.authUrl owner signer.publicKeyHash tid "blockstore/auth/v2" true = .ok url →
    body = (blockWriteAuth hashes signature blocks).toBytes →
    d.server.postUnzip url body 60000 w = (.ok raw, w₁) →
    parsePresignedList raw = .ok urls → urls.length = blocks.length →
    d.puts (blocks.zip urls) w₁ = (.ok (), w₂) → addressedHashes urls = .ok cids → cids = hashes

variable {env d}

theorem addressedHashes_eq {blocks : List Bytes} {urls : List PresignedUrl}
    (hlen : urls.length = blocks.length) :
    addressedHashes urls = (blocks.zip urls).mapM fun p => keyToHash p.2.key := by
  have hsnd : (blocks.zip urls).map Prod.snd = urls := List.map_snd_zip (le_of_eq hlen)
  conv_lhs => rw [addressedHashes, ← hsnd, List.mapM_map]
  rfl

/-- What an upload that returned has done. -/
theorem upload_eq_ok {pairs : List (Bytes × PresignedUrl)} {s s' : Session ω} {cids : List Cid}
    (hrun : d.upload pairs s = (.ok cids, s')) :
    (pairs.mapM fun p => keyToHash p.2.key) = .ok cids ∧
      ∃ w, d.puts pairs s.world = (.ok (), w) := by
  induction pairs generalizing s s' cids with
  | nil =>
      cases hrun
      exact ⟨rfl, _, rfl⟩
  | cons p pairs ih =>
      obtain ⟨block, url⟩ := p
      rw [DirectS3Storage.upload] at hrun
      obtain ⟨cid, hcid, hrun⟩ := Exec.lift_bind_eq_ok hrun
      obtain ⟨answer, s₁, hput, hrun⟩ := Exec.bind_eq_ok hrun
      obtain ⟨rest, s₂, hrest, hrun⟩ := Exec.bind_eq_ok hrun
      cases hrun
      obtain ⟨hkeys, w, hputs⟩ := ih hrest
      obtain ⟨hanswer, rfl⟩ := Prod.mk.inj hput
      refine ⟨by rw [List.mapM_cons, hcid, ok_bind, hkeys]; rfl, w, ?_⟩
      have hdirect : d.direct.put url.base block url.headerPairs s.world =
          (.ok answer, (d.direct.put url.base block url.headerPairs s.world).2) :=
        Prod.ext hanswer rfl
      have hstep : (d.direct.put url.base block url.headerPairs >>= fun _ => pure ()) s.world =
          (.ok (), (d.direct.put url.base block url.headerPairs s.world).2) :=
        Exec.bind_of_ok hdirect
      exact (Exec.bind_of_ok hstep).trans hputs

/-- Conversely. -/
theorem upload_run {pairs : List (Bytes × PresignedUrl)} {s : Session ω} {cids : List Cid} {w : ω}
    (hkeys : (pairs.mapM fun p => keyToHash p.2.key) = .ok cids)
    (hputs : d.puts pairs s.world = (.ok (), w)) :
    d.upload pairs s = (.ok cids, { s with world := w }) := by
  induction pairs generalizing s cids with
  | nil =>
      cases hkeys
      cases hputs
      rfl
  | cons p pairs ih =>
      obtain ⟨block, url⟩ := p
      rw [List.mapM_cons] at hkeys
      obtain ⟨cid, hcid, hkeys⟩ := bind_eq_ok.1 hkeys
      obtain ⟨rest, hrest, hkeys⟩ := bind_eq_ok.1 hkeys
      cases hkeys
      obtain ⟨_, w₁, hput, hputs⟩ := Exec.bind_eq_ok hputs
      obtain ⟨answer, w₂, hdirect, hunit⟩ := Exec.bind_eq_ok hput
      cases hunit
      have hnext : d.upload pairs { s with world := w₁ } = (.ok rest, { s with world := w }) :=
        ih hrest hputs
      rw [DirectS3Storage.upload, hcid, Exec.lift_ok_bind, Exec.bind_of_ok (ask_run hdirect),
        Exec.bind_of_ok hnext]
      rfl

/-- The run of a request to presign writes. -/
theorem presign_eq_ok {url : String} {body : Bytes} {timeout : ℤ} {s s' : Session ω}
    {urls : List PresignedUrl}
    (hrun : (do
      let raw ← ask (d.server.postUnzip url body timeout)
      Exec.lift (parsePresignedList raw)) s = (.ok urls, s')) :
    ∃ raw w, d.server.postUnzip url body timeout s.world = (.ok raw, w) ∧
      parsePresignedList raw = .ok urls ∧ s' = { s with world := w } := by
  obtain ⟨raw, s₁, hask, hparse⟩ := Exec.bind_eq_ok hrun
  obtain ⟨hraw, rfl⟩ := Prod.mk.inj hask
  obtain ⟨hurls, rfl⟩ := Prod.mk.inj hparse
  exact ⟨raw, _, Prod.ext hraw rfl, hurls, rfl⟩

section Sufficient

variable (hT : d.PresignsTruly env) (hF : d.fallback.ReturnsHashes env)

include hT hF

theorem returns_putRaw (owner writer : PublicKeyHash) (signatures blocks : List Bytes)
    (tid : TransactionId) : (d.putRaw owner writer tid signatures blocks).Returns fun cids =>
      hashesOf env true blocks = .ok cids := by
  have hfallback := hF.putRaw owner writer signatures blocks tid
  unfold DirectS3Storage.putRaw
  split
  · exact hfallback
  · rename_i hdirect
    rintro cids ⟨s, s', hrun⟩
    obtain ⟨answer, s₁, hanswer, hrun⟩ := Exec.bind_eq_ok hrun
    have hauth := Exec.attempt_eq_ok hanswer
    cases answer with
    | error e =>
        cases e with
        | err e => exact hfallback.of_run hrun
        | panic => cases hrun
        | fuel => cases hrun
    | ok urls =>
        simp only at hrun
        split at hrun
        · rename_i hlen
          obtain ⟨url, hurl, hpresign⟩ := Exec.lift_bind_eq_ok hauth
          obtain ⟨raw, w, hpost, hparse, hs₁⟩ := presign_eq_ok hpresign
          obtain ⟨hkeys, w', hputs⟩ := upload_eq_ok hrun
          rw [hs₁] at hputs
          rw [← addressedHashes_eq hlen] at hkeys
          exact hT.auth hdirect hurl rfl hpost hparse hlen hputs hkeys
        · exact hfallback.of_run hrun

theorem returns_putRawSigned (owner : PublicKeyHash) (signer : SigningPrivateKeyAndPublicHash)
    (blocks : List Bytes) (tid : TransactionId) :
    (d.putRawSigned env owner signer tid blocks).Returns fun cids =>
      hashesOf env true blocks = .ok cids :=
  Exec.Returns.bind Exec.Returns.any fun sigs _ =>
    returns_putRaw hT hF owner signer.publicKeyHash sigs blocks tid

theorem returns_putRawBatch (owner : PublicKeyHash) (signer : SigningPrivateKeyAndPublicHash)
    (blocks : List Bytes) (tid : TransactionId) :
    (d.putRawBatch env owner signer tid blocks).Returns fun cids =>
      hashesOf env true blocks = .ok cids := by
  have hsigned := returns_putRawSigned hT hF owner signer blocks tid
  unfold DirectS3Storage.putRawBatch
  split
  · exact hF.putRawBatch owner signer blocks tid
  · rename_i hdirect
    refine Exec.Returns.bind Exec.Returns.any fun supported _ => ?_
    split
    · refine Exec.Returns.bind (Exec.Returns.lift fun _ h => h) fun hashes hhashes => ?_
      refine Exec.Returns.bind (Exec.Returns.lift fun _ h => h) fun signature hsignature => ?_
      rintro cids ⟨s, s', hrun⟩
      obtain ⟨answer, s₁, hanswer, hrun⟩ := Exec.bind_eq_ok hrun
      have hauth := Exec.attempt_eq_ok hanswer
      cases answer with
      | error e =>
          cases e with
          | err e =>
              simp only at hrun
              split at hrun
              · obtain ⟨_, s₂, -, hrest⟩ := Exec.bind_eq_ok hrun
                exact hsigned.of_run hrest
              · exact hsigned.of_run hrun
          | panic => cases hrun
          | fuel => cases hrun
      | ok urls =>
          simp only at hrun
          split at hrun
          · rename_i hlen
            obtain ⟨url, hurl, hpresign⟩ := Exec.lift_bind_eq_ok hauth
            obtain ⟨raw, w, hpost, hparse, hs₁⟩ := presign_eq_ok hpresign
            obtain ⟨hkeys, w', hputs⟩ := upload_eq_ok hrun
            rw [hs₁] at hputs
            rw [← addressedHashes_eq hlen] at hkeys
            rw [hT.authV2 hdirect hhashes hsignature hurl rfl hpost hparse hlen hputs hkeys]
            exact hhashes
          · exact hsigned.of_run hrun
    · exact hsigned

theorem DirectS3Storage.PresignsTruly.returnsHashes : (d.storage env).ReturnsHashes env where
  put := hF.put
  putRaw owner writer signatures blocks tid := returns_putRaw hT hF owner writer signatures blocks tid
  putBatch := hF.putBatch
  putRawBatch := returns_putRawBatch hT hF

end Sufficient

/-- A storage that returns true hashes whatever it is answered is presigned the right addresses. -/
theorem DirectS3Storage.presignsTruly (hR : (d.storage env).ReturnsHashes env) :
    d.PresignsTruly env where
  auth := by
    intro owner writer tid signatures blocks url body raw urls cids w w₁ w₂ hdirect hurl hbody
      hpost hparse hlen hputs hkeys
    subst hbody
    have hauth : DirectS3Storage.authWrites d owner writer tid signatures blocks true
        ⟨w, true, true⟩ = (.ok urls, ⟨w₁, true, true⟩) := by
      unfold DirectS3Storage.authWrites
      simp only [hurl, Exec.lift_ok_bind]
      rw [Exec.bind_of_ok (ask_run hpost), hparse]
      rfl
    have hrun : d.putRaw owner writer tid signatures blocks ⟨w, true, true⟩ =
        (.ok cids, ⟨w₂, true, true⟩) := by
      rw [addressedHashes_eq hlen] at hkeys
      rw [DirectS3Storage.putRaw, if_neg hdirect]
      rw [Exec.bind_of_ok (Exec.attempt_of_run hauth)]
      simp only [hlen, if_true]
      exact upload_run hkeys hputs
    exact (hR.putRaw owner writer signatures blocks tid).of_run hrun
  authV2 := by
    intro owner signer tid blocks hashes signature url body raw urls cids w w₁ w₂ hdirect hhashes
      hsignature hurl hbody hpost hparse hlen hputs hkeys
    subst hbody
    have hauth : DirectS3Storage.authWritesV2 d owner signer.publicKeyHash tid
        (blockWriteAuth hashes signature blocks) true ⟨w, true, true⟩ =
        (.ok urls, ⟨w₁, true, true⟩) := by
      unfold DirectS3Storage.authWritesV2
      simp only [hurl, Exec.lift_ok_bind]
      rw [Exec.bind_of_ok (ask_run hpost), hparse]
      rfl
    have hrun : d.putRawBatch env owner signer tid blocks ⟨w, true, true⟩ =
        (.ok cids, ⟨w₂, true, true⟩) := by
      rw [addressedHashes_eq hlen] at hkeys
      rw [DirectS3Storage.putRawBatch, if_neg hdirect, Exec.bind_of_ok (Exec.reads_run ..)]
      simp only [if_true, hhashes, hsignature, Exec.lift_ok_bind]
      rw [Exec.bind_of_ok (Exec.attempt_of_run hauth)]
      simp only [hlen, if_true]
      exact upload_run hkeys hputs
    have hsame := (hR.putRawBatch owner signer blocks tid).of_run hrun
    rw [hhashes] at hsame
    exact (Except.ok.inj hsame).symm

end S3

/-- The storages return the hashes of the blocks they write exactly when the other end answers
truly. -/
theorem blockWrites_true_iff (env : RemoteEnv) {ω : Type} (h : HttpStorage ω)
    (props : BlockStoreProperties) (server direct : HttpPoster ω) :
    ((h.storage env).WritesTruly env ∧
      ((DirectS3Storage.mk props server direct (h.storage env)).storage env).WritesTruly env) ↔
      h.AnswersTruly env ∧
        (DirectS3Storage.mk props server direct (h.storage env)).PresignsTruly env := by
  constructor
  · rintro ⟨hhttp, hs3⟩
    exact ⟨HttpStorage.answersTruly hhttp.1, DirectS3Storage.presignsTruly hs3.1⟩
  · rintro ⟨hanswers, hpresigns⟩
    have hfallback := hanswers.returnsHashes
    exact ⟨hfallback.writesTruly, (hpresigns.returnsHashes hfallback).writesTruly⟩

/-! ## Another end that answers truly -/

section Truthful

open CborObject

variable (env : RemoteEnv)

/-- The blocks of a batch. -/
def batchBlocks (body : Bytes) : Result (List Bytes) := do
  let cbor ← liftCbor (fromBytes body)
  match (cbor.get "s").bind asBytes, (cbor.get "b").bind asList with
  | some _, some items => .ok (items.filterMap asBytes)
  | _, _ => protocolErr "expected a batch"

/-- Whether a batch is of raw blocks. -/
def isRawUrl (url : String) : Bool :=
  (apiPrefix ++ "block/put/bulk/v2?format=raw").toList.isPrefixOf url.toList

/-- What a server answers that hashes the blocks of each batch; it takes nothing else. -/
def hashingAnswer (url : String) (body : Bytes) : Result Bytes := do
  let blocks ← batchBlocks body
  let cids ← hashesOf env (isRawUrl url) blocks
  let answer := (linkList cids).toBytes
  if answer.length < 2 ^ 63 then .ok answer else protocolErr "too many hashes"

/-- A server that hashes what it is sent. -/
def hashingServer : HttpPoster Unit where
  post url body _ _ :=
    if body.length < 2 ^ 63 then Exec.lift (hashingAnswer env url body)
    else Exec.fail (.err (.protocol "too many bytes"))
  put _ _ _ := Exec.fail (.err (.protocol "not for writes"))
  get _ := Exec.fail (.err (.protocol "not for reads"))

/-- The part of S3 that checks a raw block against the key it is put under. -/
def checkingS3 : HttpPoster Unit where
  post _ _ _ _ := Exec.fail (.err (.protocol "not for posts"))
  put url body _ := do
    let named ← Exec.lift (keyToHash (PresignedUrl.mk url ∅).key)
    let cid ← Exec.lift (hashToCid env body true)
    if named = cid then pure [] else Exec.fail (.err (.protocol "another block"))
  get _ := Exec.fail (.err (.protocol "not for reads"))

variable {env}

theorem isRawUrl_writeUrl {owner writer : PublicKeyHash} {tid : TransactionId} {isRaw : Bool}
    {url : String} (h : HttpStorage.writeUrl owner writer tid "block/put/bulk/v2" isRaw = .ok url) :
    isRawUrl url = isRaw := by
  obtain ⟨o, -, h⟩ := bind_eq_ok.1 h
  obtain ⟨w, -, h⟩ := bind_eq_ok.1 h
  cases h
  cases isRaw <;> simp [isRawUrl, apiPrefix, List.isPrefixOf]

theorem built_byteList (blocks : List Bytes) : Built (byteList blocks) := by
  refine Built.list _ fun v hv => ?_
  obtain ⟨b, -, rfl⟩ := List.mem_map.1 hv
  exact Built.byteString b

/-- A batch is read back. -/
theorem batchBlocks_batch {blocks : List Bytes} {signature : Bytes}
    (hlen : (BlockWriteBatch.mk blocks signature).toCbor.toBytes.length < 2 ^ 63) :
    batchBlocks (BlockWriteBatch.mk blocks signature).toCbor.toBytes = .ok blocks := by
  have hbuilt : Built (BlockWriteBatch.mk blocks signature).toCbor := by
    refine Built.map _ ?_
    simp [built_byteList, Built.byteString]
  have hitems : (blocks.map CborObject.byteString).filterMap asBytes = blocks := by
    simp [List.filterMap_map, Function.comp_def, asBytes]
  unfold batchBlocks
  rw [fromBytes_toBytes hbuilt hlen, liftCbor, ok_bind, BlockWriteBatch.toCbor,
    get_build_of_mem (k := "s") (v := .byteString signature) (by simp) (by simp),
    get_build_of_mem (k := "b") (v := byteList blocks) (by simp) (by simp)]
  simp [byteList, asList, asBytes, hitems]

/-- A group with a signature for each block is refused. -/
theorem batchBlocks_group {blocks signatures : List Bytes}
    (hlen : (BlockWriteGroup.mk blocks signatures).toCbor.toBytes.length < 2 ^ 63) :
    batchBlocks (BlockWriteGroup.mk blocks signatures).toCbor.toBytes =
      protocolErr "expected a batch" := by
  have hbuilt : Built (BlockWriteGroup.mk blocks signatures).toCbor := by
    refine Built.map _ ?_
    simp [built_byteList]
  unfold batchBlocks
  rw [fromBytes_toBytes hbuilt hlen, liftCbor, ok_bind, BlockWriteGroup.toCbor,
    get_build_of_mem (k := "s") (v := byteList signatures) (by simp) (by simp)]
  simp [byteList, asBytes]

theorem hashesOf_version {isRaw : Bool} {blocks : List Bytes} {cids : List Cid}
    (h : hashesOf env isRaw blocks = .ok cids) : ∀ c ∈ cids, c.version = .v1 := by
  induction blocks generalizing cids with
  | nil =>
      cases h
      simp
  | cons b blocks ih =>
      rw [hashesOf, List.mapM_cons] at h
      obtain ⟨c, hc, h⟩ := bind_eq_ok.1 h
      obtain ⟨rest, hrest, h⟩ := bind_eq_ok.1 h
      cases h
      exact List.forall_mem_cons.2 ⟨buildCid_version (liftMf_eq_ok hc), ih hrest⟩

/-- Hashes are read back from a list of links. -/
theorem parseLinkList_linkList {isRaw : Bool} {blocks : List Bytes} {cids : List Cid}
    (h : hashesOf env isRaw blocks = .ok cids) (hlen : (linkList cids).toBytes.length < 2 ^ 63) :
    parseLinkList (linkList cids).toBytes = .ok cids := by
  have hbuilt : Built (linkList cids) := by
    refine Built.list _ fun v hv => ?_
    obtain ⟨c, -, rfl⟩ := List.mem_map.1 hv
    exact Built.merkleLink _
  unfold parseLinkList
  rw [fromBytes_toBytes hbuilt hlen, liftCbor, ok_bind]
  refine mapM_map_eq_ok fun c hc => ?_
  simp only [asLink]
  rw [Cid.cast_toBytes (hashesOf_version h c hc)]
  rfl

theorem hashingServer_answersTruly : (HttpStorage.mk (hashingServer env) true).AnswersTruly env where
  group := by
    intro owner writer tid isRaw signatures blocks url body raw cids _ _ hbody hraw _ _
    obtain ⟨w, w', hrun⟩ := hraw
    simp only [hashingServer] at hrun
    split at hrun
    · rename_i hlen
      rw [hashingAnswer, hbody, batchBlocks_group (hbody ▸ hlen)] at hrun
      cases hrun
    · cases hrun
  batch := by
    intro _ owner signer tid isRaw blocks url body raw cids _ hrequest hraw hcids
    obtain ⟨hashes, hhashes, hrequest⟩ := bind_eq_ok.1 hrequest
    obtain ⟨signature, -, hrequest⟩ := bind_eq_ok.1 hrequest
    obtain ⟨url', hurl, hrequest⟩ := bind_eq_ok.1 hrequest
    cases hrequest
    obtain ⟨w, w', hrun⟩ := hraw
    simp only [hashingServer] at hrun
    split at hrun
    · rename_i hlen
      rw [hashingAnswer, batchBlocks_batch hlen, ok_bind, isRawUrl_writeUrl hurl, hhashes,
        ok_bind] at hrun
      by_cases hanswer : (linkList hashes).toBytes.length < 2 ^ 63
      · simp only [if_pos hanswer] at hrun
        cases hrun
        rw [parseLinkList_linkList hhashes hanswer] at hcids
        cases hcids
        exact hhashes
      · simp only [if_neg hanswer] at hrun
        cases hrun
    · cases hrun

variable {props : BlockStoreProperties} {server : HttpPoster Unit}
  {fallback : BlockStorage (Session Unit)}

/-- What the blocks hash to that S3 takes at some addresses. -/
theorem hashesOf_of_puts {blocks : List Bytes} {urls : List PresignedUrl} {cids : List Cid}
    {w w' : Unit} (hlen : urls.length = blocks.length)
    (hputs : (DirectS3Storage.mk props server (checkingS3 env) fallback).puts (blocks.zip urls) w =
      (.ok (), w'))
    (hcids : addressedHashes urls = .ok cids) : hashesOf env true blocks = .ok cids := by
  induction blocks generalizing urls cids w with
  | nil =>
      rw [List.length_nil, List.length_eq_zero_iff] at hlen
      subst hlen
      exact hcids
  | cons b blocks ih =>
      cases urls with
      | nil => cases hlen
      | cons u urls =>
          rw [addressedHashes, List.mapM_cons] at hcids
          obtain ⟨c, hc, hcids⟩ := bind_eq_ok.1 hcids
          obtain ⟨rest, hrest, hcids⟩ := bind_eq_ok.1 hcids
          cases hcids
          obtain ⟨_, w₁, hput, hputs⟩ := Exec.bind_eq_ok hputs
          obtain ⟨answer, w₂, hput, -⟩ := Exec.bind_eq_ok hput
          obtain ⟨named, hnamed, hput⟩ := Exec.lift_bind_eq_ok hput
          obtain ⟨cid, hcid, hput⟩ := Exec.lift_bind_eq_ok hput
          split at hput
          · rename_i heq
            cases hc.symm.trans hnamed
            rw [hashesOf, List.mapM_cons, hcid, ok_bind, ← heq]
            have := ih (Nat.succ.inj hlen) hputs hrest
            rw [hashesOf] at this
            rw [this]
            rfl
          · cases hput

/-- Whatever the server presigns, S3 takes a block at its own key only. -/
theorem checkingS3_presignsTruly :
    (DirectS3Storage.mk props server (checkingS3 env) fallback).PresignsTruly env where
  auth := by
    intro owner writer tid signatures blocks url body raw urls cids w w₁ w₂ _ _ _ _ _ hlen hputs
      hcids
    exact hashesOf_of_puts hlen hputs hcids
  authV2 := by
    intro owner signer tid blocks hashes signature url body raw urls cids w w₁ w₂ _ hhashes _ _ _
      _ _ hlen hputs hcids
    have hsame := hashesOf_of_puts hlen hputs hcids
    rw [hhashes] at hsame
    exact (Except.ok.inj hsame).symm

end Truthful

/-! ## A server that names another block -/

/-- A server that answers every call alike. -/
def oneAnswer (answer : Bytes) : HttpPoster Unit where
  post _ _ _ _ := pure answer
  put _ _ _ := pure answer
  get _ := pure answer

/-- SHA-256, a signature that is sixty-four zeros before the message, and no JSON. -/
def sampleRemote : RemoteEnv where
  sha256 := Sha256.sha256
  signMessage _ message := .ok (List.replicate 64 0 ++ message)
  jsonValue _ := .error "no json"
  jsonStream _ := []
  generateAuth _ _ _ := .ok ""

example : (HttpStorage.bulkPutBatch sampleRemote ⟨hashingServer sampleRemote, true⟩
    (samplePart 0).writer ⟨(samplePart 0).writer, []⟩ "1" [[0xa0], []] false ⟨(), true, true⟩).1 =
    hashesOf sampleRemote false [[0xa0], []] := by
  decide +kernel

/-- The block `a0` is written to a server that answers with a link to another block. -/
theorem write_names_another_block :
    ¬ ((HttpStorage.mk (oneAnswer (linkList [sampleRoot]).toBytes) true).storage
      sampleRemote).WritesTruly sampleRemote := by
  intro h
  have hrun : (HttpStorage.bulkPutBatch sampleRemote
      ⟨oneAnswer (linkList [sampleRoot]).toBytes, true⟩ (samplePart 0).writer
      ⟨(samplePart 0).writer, []⟩ "1" [[0xa0]] false ⟨(), true, true⟩).1 = .ok [sampleRoot] := by
    decide +kernel
  have hhashes := (h.1.putBatch (samplePart 0).writer ⟨(samplePart 0).writer, []⟩ [[0xa0]] "1").of_run
    (Prod.ext hrun rfl)
  have hfirst : (hashesOf sampleRemote false [[0xa0]]).toOption ≠ some [sampleRoot] := by
    decide +kernel
  rw [hhashes] at hfirst
  exact hfirst rfl

end Peergos
