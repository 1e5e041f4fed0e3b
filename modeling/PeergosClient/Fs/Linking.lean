import PeergosClient.Fs.Directory

/-!
# Linking a child

Adding links to a directory reads and writes the directory's own chunks and nothing else: on a tree
that differs at locations the directory does not lead to, it does the same, and leaves those
locations alone.
-/

namespace Peergos

/-- The tree with `u` in place of it at the locations in `S`. -/
noncomputable def Tree.overlay (S : Bytes → Prop) (u t : Tree) : Tree :=
  open Classical in fun k => if S k then u k else t k

/-- No node outside `S` has its next chunk in `S`. -/
def Apart (S : Bytes → Prop) (t : Tree) : Prop :=
  ∀ k b, ¬S k → t k = some b → ¬S b.fromBaseKey.secret.nextChunk.mapKey

variable {S : Bytes → Prop} {t u : Tree} {k : Bytes}

namespace Tree

theorem overlay_of_mem (h : S k) : overlay S u t k = u k := if_pos h

theorem overlay_of_not_mem (h : ¬S k) : overlay S u t k = t k := if_neg h

/-- Trees that agree outside `S`. -/
theorem eq_overlay {t' : Tree} (h : ∀ k, ¬S k → t' k = t k) : t' = overlay S t' t := by
  funext k
  by_cases hk : S k
  · rw [overlay_of_mem hk]
  · rw [overlay_of_not_mem hk, h k hk]

theorem overlay_update (h : ¬S k) (v : Option CryptreeBlock) :
    Function.update (overlay S u t) k v = overlay S u (Function.update t k v) := by
  funext k'
  by_cases hk : k' = k
  · subst hk
    rw [Function.update_self, overlay_of_not_mem h, Function.update_self]
  · rw [Function.update_of_ne hk]
    by_cases hS : S k'
    · rw [overlay_of_mem hS, overlay_of_mem hS]
    · rw [overlay_of_not_mem hS, overlay_of_not_mem hS, Function.update_of_ne hk]

theorem put_overlay (h : ¬S k) (expected : Option CryptreeBlock) (value : CryptreeBlock) :
    (overlay S u t).put k expected value = (t.put k expected value).map (overlay S u) := by
  unfold put
  rw [overlay_of_not_mem h]
  cases t k with
  | none => exact congrArg Except.ok (overlay_update h _)
  | some current =>
      dsimp only
      split
      · exact congrArg Except.ok (overlay_update h _)
      · rfl

end Tree

theorem fetchChunkNode_overlay (h : ¬S k) (rBaseKey : SymmetricKey) :
    fetchChunkNode (Tree.overlay S u t) rBaseKey k = fetchChunkNode t rBaseKey k := by
  rw [fetchChunkNode, fetchChunkNode, Tree.overlay_of_not_mem h]

/-- A stored node leads to a location outside `S`. -/
theorem Apart.next (h : Apart S t) (hk : ¬S k) {rBaseKey : SymmetricKey} {node : CryptreeNode}
    (hnode : fetchChunkNode t rBaseKey k = some node) {base : FromBase}
    (hbase : node.baseBlock rBaseKey = .ok base) : ¬S base.nextChunk.mapKey := by
  obtain ⟨b, hb, rfl⟩ := Option.map_eq_some_iff.1 hnode
  have hsecret : b.fromBaseKey.secret = base := by
    unfold CryptreeNode.baseBlock CipherText.decrypt at hbase
    split at hbase
    · exact Except.ok.inj hbase
    · cases hbase
  exact hsecret ▸ h k b hk hb

/-! ## The chunks of the directory -/

/-- A chunk of a directory that keeps out of `S`, with the location after it. -/
def DirChunk.Outside (S : Bytes → Prop) (chunk : DirChunk) : Prop :=
  ¬S chunk.mapKey ∧ ¬S chunk.nextMapKey

theorem collectDirChunks_outside (h : Apart S t) {rBaseKey : SymmetricKey} {fuel : ℕ}
    {node : CryptreeNode} (hk : ¬S k) (hnode : fetchChunkNode t rBaseKey k = some node)
    {chunks : List DirChunk} (hrun : collectDirChunks t rBaseKey fuel k node = .ok chunks) :
    ∀ chunk ∈ chunks, chunk.Outside S := by
  induction fuel generalizing k node chunks with
  | zero => cases hrun
  | succ fuel ih =>
      unfold collectDirChunks at hrun
      obtain ⟨children, -, hrun⟩ := bind_eq_ok.1 hrun
      obtain ⟨base, hbase, hrun⟩ := bind_eq_ok.1 hrun
      have hnext := h.next hk hnode hbase
      dsimp only at hrun
      split at hrun
      · next next hfetch =>
          obtain ⟨rest, hrest, hrun⟩ := bind_eq_ok.1 hrun
          cases hrun
          have hout := ih hnext (Option.filter_eq_some_iff.1 hfetch).1 hrest
          intro chunk hchunk
          rcases List.mem_cons.1 hchunk with rfl | hchunk
          · exact ⟨hk, hnext⟩
          · exact hout chunk hchunk
      · cases hrun
        intro chunk hchunk
        rw [List.mem_singleton.1 hchunk]
        exact ⟨hk, hnext⟩

theorem collectDirChunks_overlay (h : Apart S t) (rBaseKey : SymmetricKey) (fuel : ℕ)
    {node : CryptreeNode} (hk : ¬S k) (hnode : fetchChunkNode t rBaseKey k = some node) :
    collectDirChunks (Tree.overlay S u t) rBaseKey fuel k node =
      collectDirChunks t rBaseKey fuel k node := by
  induction fuel generalizing k node with
  | zero => rfl
  | succ fuel ih =>
      unfold collectDirChunks
      cases hchildren : decryptChildren node.childrenOrData rBaseKey with
      | error e => rfl
      | ok children =>
          cases hbase : node.baseBlock rBaseKey with
          | error e => rfl
          | ok base =>
              have hnext := h.next hk hnode hbase
              simp only [bind, Except.bind, fetchChunkNode_overlay hnext,
                Tree.overlay_of_not_mem hk]
              split
              · next next hfetch => rw [ih hnext (Option.filter_eq_some_iff.1 hfetch).1]
              · rfl

/-! ## Adding links -/

theorem DirChunk.Outside.dedup {chunk : DirChunk} (h : chunk.Outside S) (names : List String) :
    (chunk.dedup names).Outside S := h

theorem addToFirst_outside {maxLinks : ℕ} {link : NamedRelativeCapability}
    {chunks chunks' : List DirChunk} (h : ∀ chunk ∈ chunks, chunk.Outside S)
    (hadd : addToFirst maxLinks link chunks = some chunks') :
    ∀ chunk ∈ chunks', chunk.Outside S := by
  induction chunks generalizing chunks' with
  | nil => cases hadd
  | cons head rest ih =>
      have hhead := h head List.mem_cons_self
      unfold addToFirst at hadd
      split at hadd
      · cases hadd
        intro chunk hchunk
        rcases List.mem_cons.1 hchunk with rfl | hchunk
        · exact hhead
        · exact h chunk (List.mem_cons_of_mem _ hchunk)
      · obtain ⟨rest', hrest, rfl⟩ := Option.map_eq_some_iff.1 hadd
        intro chunk hchunk
        rcases List.mem_cons.1 hchunk with rfl | hchunk
        · exact hhead
        · exact ih (fun c hc => h c (List.mem_cons_of_mem _ hc)) hrest chunk hchunk

theorem addLinks_outside {dirCap : AbsoluteCapability} {parentKey : SymmetricKey}
    {parentLink : Option RelativeCapability} {mirrorBat : Option BatId} {maxLinks : ℕ}
    {fresh : List (Bytes × Bat)} {chunks chunks' : List DirChunk}
    {links : List NamedRelativeCapability} (hfresh : ∀ e ∈ fresh, ¬S e.1)
    (h : ∀ chunk ∈ chunks, chunk.Outside S)
    (hadd : addLinks dirCap parentKey parentLink mirrorBat maxLinks fresh chunks links = .ok chunks') :
    ∀ chunk ∈ chunks', chunk.Outside S := by
  induction links generalizing fresh chunks with
  | nil =>
      rw [addLinks] at hadd
      cases hadd
      exact h
  | cons link links ih =>
      unfold addLinks at hadd
      split at hadd
      · next chunks₁ hfirst => exact ih hfresh (addToFirst_outside h hfirst) hadd
      · split at hadd
        · next f fresh last hlast =>
            obtain ⟨chunk, hchunk, hadd⟩ := bind_eq_ok.1 hadd
            refine ih (fun e he => hfresh e (List.mem_cons_of_mem _ he)) ?_ hadd
            -- the new chunk is where the last one leads to, and leads to a fresh location
            have hout : chunk.Outside S := by
              unfold overflowChunk at hchunk
              obtain ⟨bats, -, hchunk⟩ := bind_eq_ok.1 hchunk
              cases hchunk
              exact ⟨(h last (List.mem_of_getLast? hlast)).2, hfresh f List.mem_cons_self⟩
            intro c hc
            rcases List.mem_append.1 hc with hc | hc
            · exact h c hc
            · rw [List.mem_singleton.1 hc]
              exact hout
        · cases hadd

theorem foldlM_commitChunk_overlay {rBaseKey : SymmetricKey} {chunks : List DirChunk}
    (h : ∀ chunk ∈ chunks, chunk.Outside S) :
    chunks.foldlM (commitChunk rBaseKey) (Tree.overlay S u t) =
      (chunks.foldlM (commitChunk rBaseKey) t).map (Tree.overlay S u) := by
  induction chunks generalizing t with
  | nil => rfl
  | cons chunk chunks ih =>
      have hcommit : commitChunk rBaseKey (Tree.overlay S u t) chunk =
          (commitChunk rBaseKey t chunk).map (Tree.overlay S u) := by
        unfold commitChunk
        split
        · exact Tree.put_overlay (h chunk List.mem_cons_self).1 _ _
        · rfl
      rw [List.foldlM_cons, List.foldlM_cons, hcommit]
      cases commitChunk rBaseKey t chunk with
      | error e => rfl
      | ok t' => exact ih fun c hc => h c (List.mem_cons_of_mem _ hc)

/-- Linking a child does the same on a tree that differs at locations the directory does not lead
to. -/
theorem linkedChamp_overlay {fuel maxLinks : ℕ} {fresh : List (Bytes × Bat)} {ctx : DirWriteContext}
    {dirCap : AbsoluteCapability} {links : List NamedRelativeCapability} (h : Apart S ctx.champ)
    (hdir : ¬S dirCap.mapKey)
    (hnode : fetchChunkNode ctx.champ dirCap.rBaseKey dirCap.mapKey = some ctx.dirNode)
    (hfresh : ∀ e ∈ fresh, ¬S e.1) (u : Tree) :
    linkedChamp fuel maxLinks fresh { ctx with champ := Tree.overlay S u ctx.champ } dirCap links =
      (linkedChamp fuel maxLinks fresh ctx dirCap links).map (Tree.overlay S u) := by
  unfold linkedChamp
  rw [collectDirChunks_overlay h dirCap.rBaseKey fuel hdir hnode]
  cases hchunks : collectDirChunks ctx.champ dirCap.rBaseKey fuel dirCap.mapKey ctx.dirNode with
  | error e => rfl
  | ok chunks =>
      have hout := collectDirChunks_outside h hdir hnode hchunks
      cases hbase : ctx.dirNode.baseBlock dirCap.rBaseKey with
      | error e => rfl
      | ok base =>
          cases hlink : ctx.dirNode.parentLink dirCap.rBaseKey with
          | error e => rfl
          | ok link =>
              simp only [bind, Except.bind]
              cases hadd : addLinks dirCap base.parentOrData link ctx.mirrorBat maxLinks fresh
                  (chunks.map (DirChunk.dedup (links.map (·.name)))) links with
              | error e => rfl
              | ok chunks' =>
                  refine foldlM_commitChunk_overlay (addLinks_outside hfresh ?_ hadd)
                  intro chunk hchunk
                  obtain ⟨c, hc, rfl⟩ := List.mem_map.1 hchunk
                  exact (hout c hc).dedup _

/-- A commit of new links, with new nodes in locations the directory does not lead to: these stay as
they were put. -/
theorem finishDirWriteMulti_ok {fuel maxLinks : ℕ} {fresh : List (Bytes × Bat)}
    {ctx : DirWriteContext} {dirCap : AbsoluteCapability} {links : List NamedRelativeCapability}
    {net net' : Network} (h : Apart S ctx.champ) (hdir : ¬S dirCap.mapKey)
    (hnode : fetchChunkNode ctx.champ dirCap.rBaseKey dirCap.mapKey = some ctx.dirNode)
    (hfresh : ∀ e ∈ fresh, ¬S e.1) (hu : ∀ k, ¬S k → u k = ctx.champ k)
    (hrun : finishDirWriteMulti fuel maxLinks fresh { ctx with champ := u } dirCap links net =
      (.ok (), net')) :
    ∃ t', net' = Function.update net dirCap.writer (some t') ∧ ∀ k, S k → t' k = u k := by
  unfold finishDirWriteMulti at hrun
  obtain ⟨champ, hchamp, hrun⟩ := Exec.lift_bind_eq_ok hrun
  rw [Tree.eq_overlay hu, linkedChamp_overlay h hdir hnode hfresh] at hchamp
  cases hlinked : linkedChamp fuel maxLinks fresh ctx dirCap links with
  | error e =>
      rw [hlinked] at hchamp
      cases hchamp
  | ok t' =>
      rw [hlinked] at hchamp
      cases hchamp
      unfold commitTree at hrun
      split at hrun
      · cases hrun
        exact ⟨_, rfl, fun k hk => Tree.overlay_of_mem hk⟩
      · cases hrun

/-- Links that can be added without the new nodes can be added with them. -/
theorem finishDirWriteMulti_succeeds {fuel maxLinks : ℕ} {fresh : List (Bytes × Bat)}
    {ctx : DirWriteContext} {dirCap : AbsoluteCapability} {links : List NamedRelativeCapability}
    (net : Network) (h : Apart S ctx.champ) (hdir : ¬S dirCap.mapKey)
    (hnode : fetchChunkNode ctx.champ dirCap.rBaseKey dirCap.mapKey = some ctx.dirNode)
    (hfresh : ∀ e ∈ fresh, ¬S e.1) (hu : ∀ k, ¬S k → u k = ctx.champ k)
    (hsigner : ctx.signer.publicKeyHash = dirCap.writer)
    (hlinked : (linkedChamp fuel maxLinks fresh ctx dirCap links).toOption.isSome = true) :
    ∃ net', finishDirWriteMulti fuel maxLinks fresh { ctx with champ := u } dirCap links net =
      (.ok (), net') := by
  obtain ⟨t', ht'⟩ := exists_eq_ok hlinked
  have hchamp : linkedChamp fuel maxLinks fresh { ctx with champ := u } dirCap links =
      .ok (Tree.overlay S u t') := by
    rw [Tree.eq_overlay hu, linkedChamp_overlay h hdir hnode hfresh, ht', ← Tree.eq_overlay hu]
    rfl
  unfold finishDirWriteMulti
  rw [Exec.bind_of_ok (by rw [Exec.lift_run, hchamp]), commitTree, if_pos hsigner]
  exact ⟨_, rfl⟩

end Peergos
