import PeergosClient.Fs.DirectoryChain
import PeergosClient.Fs.Upload
import PeergosClient.Lib.KeyedMap

/-!
# A directory is a map from names to children

Additions, deletions, renamings and removals of links, in any order, do to the listing of a
directory what they do to a map from names to links.  Additions do so as long as a batch has no two
links of one name: those are checked against the directory and not against each other.
-/

namespace Peergos

open KeyedMap

/-- The links of some chunks, from the first on. -/
abbrev linksOf (ds : List DirChunk) : List NamedRelativeCapability := ds.flatMap (·.children)

variable {t t' : Tree} {rk : SymmetricKey} {key tail : Bytes} {ds ds' : List DirChunk}
  {link : NamedRelativeCapability} {links : List NamedRelativeCapability} {maxLinks : ℕ}

/-! ## Adding a batch -/

theorem DirChunk.Prepared.dedup {c : DirChunk} (h : c.Prepared t rk) (names : List String) :
    (c.dedup names).Prepared t rk := by
  refine ⟨h.isDir, h.next, fun hmod => ?_⟩
  -- a chunk that lost no link still has all of them
  obtain ⟨hold, hlen⟩ : c.modified = false ∧
      (c.children.filter fun l => l.name ∉ names).length = c.children.length := by
    simpa [DirChunk.dedup] using hmod
  have hkept : (c.dedup names).children = c.children :=
    List.filter_sublist.eq_of_length hlen
  rw [hkept]
  exact h.stored hold

theorem linksOf_dedup (names : List String) (ds : List DirChunk) :
    linksOf (ds.map (DirChunk.dedup names)) = (linksOf ds).filter fun l => l.name ∉ names := by
  rw [linksOf, List.flatMap_map, linksOf, List.filter_flatMap]
  rfl

/-- A link goes to a chunk with room: nothing else changes. -/
theorem addToFirst_ok (h : addToFirst maxLinks link ds = some ds')
    (hall : ∀ c ∈ ds, c.Prepared t rk ∧ c.children.length ≤ maxLinks) :
    ds'.map (·.mapKey) = ds.map (·.mapKey) ∧
      (∀ key tail, ChainFrom key ds tail → ChainFrom key ds' tail) ∧
      (linksOf ds').Perm (linksOf ds ++ [link]) ∧
      ∀ c ∈ ds', c.Prepared t rk ∧ c.children.length ≤ maxLinks := by
  induction ds generalizing ds' with
  | nil => cases h
  | cons c rest ih =>
      have hc := hall c List.mem_cons_self
      have hrest : ∀ d ∈ rest, d.Prepared t rk ∧ d.children.length ≤ maxLinks :=
        fun d hd => hall d (List.mem_cons_of_mem _ hd)
      unfold addToFirst at h
      split at h
      · next hroom =>
          cases h
          refine ⟨rfl, fun key tail hchain => ⟨hchain.1, hchain.2⟩, ?_, fun d hd => ?_⟩
          · simp only [linksOf, List.flatMap_cons, List.append_assoc]
            exact List.Perm.append_left _ List.perm_append_comm
          · rcases List.mem_cons.1 hd with rfl | hd
            · refine ⟨⟨hc.1.isDir, hc.1.next, by rintro ⟨⟩⟩, ?_⟩
              rw [List.length_append]
              exact hroom
            · exact hrest d hd
      · obtain ⟨rest', hadd, rfl⟩ := Option.map_eq_some_iff.1 h
        obtain ⟨hkeys, hchains, hperm, hall'⟩ := ih hadd hrest
        refine ⟨by rw [List.map_cons, List.map_cons, hkeys],
          fun key tail hchain => ⟨hchain.1, hchains _ _ hchain.2⟩, ?_, fun d hd => ?_⟩
        · simp only [linksOf, List.flatMap_cons, List.append_assoc]
          exact List.Perm.append_left _ hperm
        · rcases List.mem_cons.1 hd with rfl | hd
          · exact hc
          · exact hall' d hd

/-- A node is a directory to a reader unless it opens the properties and they say otherwise. -/
theorem CryptreeNode.isDirectory_fromCbor (block : CryptreeBlock) (rk : SymmetricKey) :
    (fromCbor block rk).isDirectory = if block.fromParentKey.key = rk.key then
      block.fromParentKey.secret.properties.isDirectory else true := by
  unfold fromCbor CipherText.decrypt
  by_cases hopen : block.fromParentKey.key = rk.key
  · rw [if_pos hopen, if_pos hopen]
  · rw [if_neg hopen, if_neg hopen]

/-- A fresh chunk takes the place after the last one. -/
theorem overflowChunk_ok {dirCap : AbsoluteCapability} {parentKey : SymmetricKey}
    {parentLink : Option RelativeCapability} {mirrorBat : Option BatId} {last c : DirChunk}
    {fresh : Bytes × Bat}
    (h : overflowChunk dirCap parentKey parentLink mirrorBat last fresh link = .ok c) :
    c.mapKey = last.nextMapKey ∧ c.nextMapKey = fresh.1 ∧ c.children = [link] ∧
      c.Prepared t dirCap.rBaseKey := by
  unfold overflowChunk at h
  obtain ⟨bats, -, h⟩ := bind_eq_ok.1 h
  cases h
  refine ⟨rfl, rfl, rfl, ?_, ⟨_, CipherText.decrypt_build _ _, rfl⟩, fun hmod => (nomatch hmod)⟩
  rw [CryptreeNode.isDirectory_fromCbor]
  exact ite_self true

/-- All links of a batch find a place, in the chunks there are or in fresh ones after them. -/
theorem addLinks_ok {dirCap : AbsoluteCapability} {parentKey : SymmetricKey}
    {parentLink : Option RelativeCapability} {mirrorBat : Option BatId} (hmax : 0 < maxLinks)
    {fresh : List (Bytes × Bat)} (hchain : ChainFrom key ds tail)
    (hnodup : (ds.map (·.mapKey) ++ tail :: fresh.map Prod.fst).Nodup)
    (hall : ∀ c ∈ ds, c.Prepared t dirCap.rBaseKey ∧ c.children.length ≤ maxLinks)
    (h : addLinks dirCap parentKey parentLink mirrorBat maxLinks fresh ds links = .ok ds') :
    ∃ tail', tail' ∈ tail :: fresh.map Prod.fst ∧ ChainFrom key ds' tail' ∧
      (ds'.map (·.mapKey) ++ [tail']).Nodup ∧
      ds.length ≤ ds'.length ∧ (linksOf ds').Perm (linksOf ds ++ links) ∧
      ∀ c ∈ ds', c.Prepared t dirCap.rBaseKey ∧ c.children.length ≤ maxLinks := by
  induction links generalizing fresh ds tail with
  | nil =>
      rw [addLinks] at h
      cases h
      refine ⟨tail, List.mem_cons_self, hchain, ?_, le_rfl, ?_, hall⟩
      · exact (List.Sublist.append_left (List.singleton_sublist.2 List.mem_cons_self) _).nodup
          hnodup
      · rw [List.append_nil]
  | cons link links ih =>
      unfold addLinks at h
      split at h
      · next ds₁ hadd =>
          obtain ⟨hkeys, hchains, hperm, hall₁⟩ := addToFirst_ok hadd hall
          obtain ⟨tail', htail, hchain', hnodup', hlen, hperm', hall'⟩ :=
            ih (hchains _ _ hchain) (hkeys ▸ hnodup) hall₁ h
          have hlen₁ : ds₁.length = ds.length := by simpa using congrArg List.length hkeys
          refine ⟨tail', htail, hchain', hnodup', hlen₁ ▸ hlen, ?_, hall'⟩
          refine hperm'.trans ((hperm.append_right links).trans ?_)
          rw [List.append_assoc, List.singleton_append]
      · split at h
        · next f fresh last hlast =>
            obtain ⟨c, hc, h⟩ := bind_eq_ok.1 h
            obtain ⟨hkey, hnext, hchildren, hprep⟩ := overflowChunk_ok hc
            rw [hchain.getLast hlast] at hkey
            have hkeys : (ds ++ [c]).map (·.mapKey) = ds.map (·.mapKey) ++ [tail] := by
              rw [List.map_append, List.map_singleton, hkey]
            have hchain₁ : ChainFrom key (ds ++ [c]) f.1 := hnext ▸ hchain.concat hkey
            obtain ⟨tail', htail, hchain', hnodup', hlen, hperm, hall'⟩ := ih hchain₁
              (by rwa [hkeys, List.append_assoc]) (fun d hd => by
                rcases List.mem_append.1 hd with hd | hd
                · exact hall d hd
                · rw [List.mem_singleton.1 hd]
                  exact ⟨hprep, hchildren ▸ hmax⟩) h
            refine ⟨tail', List.mem_cons_of_mem _ htail, hchain', hnodup', ?_, ?_, hall'⟩
            · rw [List.length_append] at hlen
              exact (Nat.le_add_right _ _).trans hlen
            · refine hperm.trans ?_
              rw [linksOf, List.flatMap_append, List.flatMap_singleton, hchildren, List.append_assoc]
              rfl
        · cases h

/-! ## Replacing a link -/

variable {name : String} {repl : NamedRelativeCapability → List NamedRelativeCapability}

theorem replaceIn_ok {cs cs' : List NamedRelativeCapability}
    (h : replaceIn name repl cs = some (link, cs')) :
    link.name = name ∧ ∃ others, cs.Perm (link :: others) ∧ cs'.Perm (repl link ++ others) := by
  induction cs generalizing cs' with
  | nil => cases h
  | cons c cs ih =>
      unfold replaceIn at h
      split at h
      · next hname =>
          cases h
          exact ⟨hname, cs, List.Perm.refl _, List.Perm.refl _⟩
      · obtain ⟨⟨l, ds⟩, hr, heq⟩ := Option.map_eq_some_iff.1 h
        cases heq
        obtain ⟨hname, others, hperm, hperm'⟩ := ih hr
        refine ⟨hname, c :: others, (hperm.cons c).trans (List.Perm.swap _ _ _), ?_⟩
        exact (hperm'.cons c).trans List.perm_middle.symm

theorem replaceIn_eq_none {cs : List NamedRelativeCapability} (h : replaceIn name repl cs = none) :
    name ∉ cs.map (·.name) := by
  induction cs with
  | nil => exact List.not_mem_nil
  | cons c cs ih =>
      unfold replaceIn at h
      split at h
      · cases h
      · next hname =>
          rw [List.map_cons, List.mem_cons, not_or]
          exact ⟨fun heq => hname heq.symm, ih (Option.map_eq_none_iff.1 h)⟩

/-- Replacing a link leaves the others, and takes no more room if one link is replaced by at most
one. -/
theorem replaceFirst_ok (h : replaceFirst name repl ds = some (link, ds'))
    (hrepl : ∀ l, (repl l).length ≤ 1)
    (hall : ∀ c ∈ ds, c.Prepared t rk ∧ c.children.length ≤ maxLinks) :
    link.name = name ∧ ds'.map (·.mapKey) = ds.map (·.mapKey) ∧
      (∀ key tail, ChainFrom key ds tail → ChainFrom key ds' tail) ∧
      (∃ others, (linksOf ds).Perm (link :: others) ∧ (linksOf ds').Perm (repl link ++ others)) ∧
      ∀ c ∈ ds', c.Prepared t rk ∧ c.children.length ≤ maxLinks := by
  induction ds generalizing ds' with
  | nil => cases h
  | cons c rest ih =>
      have hc := hall c List.mem_cons_self
      have hrest : ∀ d ∈ rest, d.Prepared t rk ∧ d.children.length ≤ maxLinks :=
        fun d hd => hall d (List.mem_cons_of_mem _ hd)
      unfold replaceFirst at h
      split at h
      · next l children hin =>
          cases h
          obtain ⟨hname, others, hperm, hperm'⟩ := replaceIn_ok hin
          refine ⟨hname, rfl, fun key tail hchain => ⟨hchain.1, hchain.2⟩,
            ⟨others ++ linksOf rest, ?_, ?_⟩, fun d hd => ?_⟩
          · exact hperm.append_right _
          · rw [← List.append_assoc]
            exact hperm'.append_right _
          · rcases List.mem_cons.1 hd with rfl | hd
            · refine ⟨⟨hc.1.isDir, hc.1.next, fun hmod => (nomatch hmod)⟩, ?_⟩
              have hlen := hperm.length_eq
              have hlen' := hperm'.length_eq
              have hle := hrepl link
              have hroom := hc.2
              rw [List.length_cons] at hlen
              rw [List.length_append] at hlen'
              dsimp only
              omega
            · exact hrest d hd
      · obtain ⟨⟨l, rest'⟩, hr, heq⟩ := Option.map_eq_some_iff.1 h
        cases heq
        obtain ⟨hname, hkeys, hchains, ⟨others, hperm, hperm'⟩, hall'⟩ := ih hr hrest
        refine ⟨hname, by rw [List.map_cons, List.map_cons, hkeys],
          fun key tail hchain => ⟨hchain.1, hchains _ _ hchain.2⟩,
          ⟨c.children ++ others, ?_, ?_⟩, fun d hd => ?_⟩
        · exact (hperm.append_left _).trans List.perm_middle
        · refine (hperm'.append_left _).trans ?_
          rw [← List.append_assoc, ← List.append_assoc]
          exact List.perm_append_comm.append_right _
        · rcases List.mem_cons.1 hd with rfl | hd
          · exact hc
          · exact hall' d hd

theorem replaceFirst_eq_none (h : replaceFirst name repl ds = none) :
    name ∉ (linksOf ds).map (·.name) := by
  induction ds with
  | nil => exact List.not_mem_nil
  | cons c rest ih =>
      unfold replaceFirst at h
      split at h
      · cases h
      · next hin =>
          rw [linksOf, List.flatMap_cons, List.map_append, List.mem_append, not_or]
          exact ⟨replaceIn_eq_none hin, ih (Option.map_eq_none_iff.1 h)⟩

/-! ## Removing the nodes of a child -/

/-- The locations of the nodes below one: of the chunks of a file, of the chunks of a directory and
of what its links lead to. -/
inductive Below (H : ContentHasher) (t : Tree) : ChunkLoc → Bytes → Prop
  | self (loc : ChunkLoc) : Below H t loc loc.mapKey
  | fileChunk {loc : ChunkLoc} {node : CryptreeNode} {props : FileProperties} {secret : Bytes} :
      fetchChunkNode t loc.rBaseKey loc.mapKey = some node →
      node.getProperties loc.rBaseKey = .ok props → props.streamSecret = some secret →
      ∀ i, Below H t loc (chunkKey H secret loc.mapKey i)
  | nextChunk {loc : ChunkLoc} {node : CryptreeNode} {base : FromBase} {k : Bytes} :
      fetchChunkNode t loc.rBaseKey loc.mapKey = some node →
      node.baseBlock loc.rBaseKey = .ok base →
      Below H t ⟨base.nextChunk.mapKey, base.nextChunk.bat, loc.rBaseKey⟩ k → Below H t loc k
  | child {loc : ChunkLoc} {node : CryptreeNode} {links : List NamedRelativeCapability}
      {link : NamedRelativeCapability} {k : Bytes} :
      fetchChunkNode t loc.rBaseKey loc.mapKey = some node →
      node.childrenOrData.decrypt loc.rBaseKey = .ok (.named links) → link ∈ links →
      Below H t link.cap.loc k → Below H t loc k

variable {H : ContentHasher} {loc : ChunkLoc} {k : Bytes}

/-- What is below a location does not depend on the rest of the tree. -/
theorem Below.of_agree (h : Below H t' loc k)
    (hagree : ∀ k, Below H t loc k → t' k = none ∨ t' k = t k) : Below H t loc k := by
  have hfetch : ∀ {loc : ChunkLoc} {node : CryptreeNode},
      (t' loc.mapKey = none ∨ t' loc.mapKey = t loc.mapKey) →
      fetchChunkNode t' loc.rBaseKey loc.mapKey = some node →
      fetchChunkNode t loc.rBaseKey loc.mapKey = some node := by
    intro loc node heq hnode
    rw [fetchChunkNode] at hnode ⊢
    rcases heq with heq | heq
    · rw [heq] at hnode
      cases hnode
    · rwa [← heq]
  induction h with
  | self loc => exact .self loc
  | fileChunk hnode hprops hsecret i =>
      exact .fileChunk (hfetch (hagree _ (.self _)) hnode) hprops hsecret i
  | nextChunk hnode hbase _ ih =>
      have hnode' := hfetch (hagree _ (.self _)) hnode
      exact .nextChunk hnode' hbase (ih fun k hk => hagree k (.nextChunk hnode' hbase hk))
  | child hnode hlinks hlink _ ih =>
      have hnode' := hfetch (hagree _ (.self _)) hnode
      exact .child hnode' hlinks hlink (ih fun k hk => hagree k (.child hnode' hlinks hlink hk))

/-- Nothing but nodes below a location was removed. -/
def RemovedBelow (H : ContentHasher) (t t' : Tree) (loc : ChunkLoc) : Prop :=
  ∀ k, t' k = t k ∨ t' k = none ∧ Below H t loc k

theorem RemovedBelow.none_or (h : RemovedBelow H t t' loc) (k : Bytes) :
    t' k = none ∨ t' k = t k := (h k).symm.imp_left And.left

/-- Removals one after the other, where the second is from a part of the first. -/
theorem RemovedBelow.trans {t₁ : Tree} {loc₁ : ChunkLoc} (h : RemovedBelow H t t₁ loc)
    (h₁ : RemovedBelow H t₁ t' loc₁) (hpart : ∀ k, Below H t loc₁ k → Below H t loc k) :
    RemovedBelow H t t' loc := by
  intro k
  rcases h₁ k with heq | ⟨hnone, hbelow⟩
  · rw [heq]
    exact h k
  · exact Or.inr ⟨hnone, hpart k (hbelow.of_agree fun k _ => h.none_or k)⟩

theorem RemovedBelow.refl (t : Tree) (loc : ChunkLoc) : RemovedBelow H t t loc :=
  fun _ => Or.inl rfl

theorem RemovedBelow.removeEntry {t₀ : Tree} (h : RemovedBelow H t₀ t loc)
    (hk : Below H t₀ loc k) : RemovedBelow H t₀ (t.removeEntry k) loc := by
  intro k'
  unfold Tree.removeEntry
  by_cases heq : k' = k
  · rw [heq, Function.update_self]
    exact Or.inr ⟨rfl, hk⟩
  · rw [Function.update_of_ne heq]
    exact h k'

/-- A node that is still there was there before. -/
theorem RemovedBelow.fetch (h : RemovedBelow H t t' loc) {node : CryptreeNode}
    (hnode : fetchChunkNode t' rk k = some node) : fetchChunkNode t rk k = some node := by
  unfold fetchChunkNode at hnode ⊢
  rcases h.none_or k with heq | heq
  · rw [heq] at hnode
    cases hnode
  · rwa [← heq]

theorem removeFileChunks_ok {secret mapKey : Bytes} {bat : Option Bat} {n i : ℕ} {t₀ : Tree}
    (hbelow : ∀ i, Below H t₀ loc (chunkKey H secret mapKey i))
    (hsub : RemovedBelow H t₀ t loc)
    (h : removeFileChunks H secret n t (chunkKey H secret mapKey i) bat = .ok t') :
    RemovedBelow H t₀ t' loc := by
  induction n generalizing t i bat with
  | zero =>
      cases h
      exact hsub
  | succ n ih =>
      cases n with
      | zero =>
          cases h
          exact hsub.removeEntry (hbelow i)
      | succ n =>
          unfold removeFileChunks at h
          obtain ⟨⟨mapKey', bat'⟩, hnext, h⟩ := bind_eq_ok.1 h
          have hkey : mapKey' = chunkKey H secret mapKey (i + 1) := by
            unfold calculateNextMapKey at hnext
            cases bat with
            | none =>
                cases hnext
                rfl
            | some b =>
                obtain ⟨nextBat, -, hnext⟩ := bind_eq_ok.1 hnext
                cases hnext
                rfl
          subst hkey
          exact ih (hsub.removeEntry (hbelow i)) h

/-- Removing the children of a chunk, relative to the tree `t₀` the removal of `loc` began on. -/
theorem removeLinked_ok {removeChild : Tree → ChunkLoc → Result Tree}
    (hchild : ∀ t loc t', removeChild t loc = .ok t' → RemovedBelow H t t' loc) {t₀ : Tree}
    {decoded : ChildrenOrData}
    (hpart : ∀ links, decoded = .named links → ∀ l ∈ links, ∀ k, Below H t₀ l.cap.loc k →
      Below H t₀ loc k)
    (hsub : RemovedBelow H t₀ t loc) (h : removeLinked removeChild t decoded = .ok t') :
    RemovedBelow H t₀ t' loc := by
  cases decoded with
  | legacy l =>
      cases h
      exact hsub
  | data b => cases h
  | named links =>
      have hlinks := hpart links rfl
      clear hpart
      rw [removeLinked] at h
      induction links generalizing t with
      | nil =>
          cases h
          exact hsub
      | cons l links ih =>
          rw [List.foldlM_cons] at h
          obtain ⟨t₁, ht₁, h⟩ := bind_eq_ok.1 h
          exact ih (hsub.trans (hchild _ _ _ ht₁) (hlinks l List.mem_cons_self)) h
            fun l hl => hlinks l (List.mem_cons_of_mem _ hl)

/-- Removing the chunks of a directory, relative to the tree `t₀` the removal of `loc` began on. -/
theorem removeDirChunks_ok {removeChild : Tree → ChunkLoc → Result Tree}
    (hchild : ∀ t loc t', removeChild t loc = .ok t' → RemovedBelow H t t' loc) {t₀ : Tree}
    {fuel : ℕ} {mapKey : Bytes} {bat : Option Bat} {node : CryptreeNode}
    (hnode : fetchChunkNode t₀ rk mapKey = some node)
    (hpart : ∀ k, Below H t₀ ⟨mapKey, bat, rk⟩ k → Below H t₀ loc k)
    (hsub : RemovedBelow H t₀ t loc)
    (h : removeDirChunks removeChild rk fuel t mapKey node = .ok t') :
    RemovedBelow H t₀ t' loc := by
  induction fuel generalizing t mapKey bat node with
  | zero => cases h
  | succ fuel ih =>
      unfold removeDirChunks at h
      obtain ⟨decoded, hdecoded, h⟩ := bind_eq_ok.1 h
      obtain ⟨t₁, ht₁, h⟩ := bind_eq_ok.1 h
      have hsub₁ := removeLinked_ok hchild (fun links hlinks l hl k hk =>
        hpart k (.child hnode (hlinks ▸ hdecoded) hl hk)) hsub ht₁
      obtain ⟨base, hbase, h⟩ := bind_eq_ok.1 h
      have hsub₂ := hsub₁.removeEntry (hpart mapKey (.self ⟨mapKey, bat, rk⟩))
      dsimp only at h
      split at h
      · next next hnext =>
          have hnext₀ := hsub₁.fetch (Option.filter_eq_some_iff.1 hnext).1
          exact ih hnext₀ (fun k hk => hpart k (.nextChunk hnode hbase hk)) hsub₂ h
      · cases h
        exact hsub₂

/-- `remove_all_chunks` removes nothing that is not below. -/
theorem removeAllChunks_ok {dirCap : AbsoluteCapability} {fuel : ℕ}
    (h : removeAllChunks H dirCap fuel t loc = .ok t') : RemovedBelow H t t' loc := by
  induction fuel generalizing t loc t' with
  | zero => cases h
  | succ fuel ih =>
      unfold removeAllChunks at h
      obtain ⟨_, -, h⟩ := bind_eq_ok.1 h
      split at h
      · cases h
        exact RemovedBelow.refl t loc
      · next node hnode =>
          obtain ⟨props, hprops, h⟩ := bind_eq_ok.1 h
          split at h
          · split at h
            · next secret hsecret =>
                exact removeFileChunks_ok (i := 0) (fun i => .fileChunk hnode hprops hsecret i)
                  (RemovedBelow.refl t loc) h
            · cases h
              exact (RemovedBelow.refl t loc).removeEntry (.self loc)
          · exact removeDirChunks_ok (fun t loc t' h => ih h) hnode (fun k hk => hk)
              (RemovedBelow.refl t loc) h

/-! ## The directory in a tree -/

/-- The directory is there, no chunk is too full, and its links are those of the map. -/
def HoldsDirectory (maxLinks : ℕ) (dirCap : AbsoluteCapability)
    (m : String → Option NamedRelativeCapability) (t : Tree) : Prop :=
  ∃ chunks tail, ListsFrom t dirCap.rBaseKey dirCap.mapKey chunks tail ∧ chunks ≠ [] ∧
    (∀ c ∈ chunks, c.2.length ≤ maxLinks) ∧
    Represents (·.name) m (chunks.flatMap Prod.snd)

variable {dirCap : AbsoluteCapability} {m m' : String → Option NamedRelativeCapability}
  {net net' : Network} {entrySigner : Option SigningPrivateKeyAndPublicHash}
  {mirrorBat : Option BatId} {ctx : DirWriteContext} {fuel : ℕ} {u : String}

theorem beginDirWrite_dirNode (h : beginDirWrite net dirCap entrySigner mirrorBat = .ok ctx) :
    (fetchChunkNode ctx.champ dirCap.rBaseKey dirCap.mapKey).filter (·.isDirectory) =
      some ctx.dirNode := by
  refine Option.filter_eq_some_iff.2 ⟨(beginDirWrite_ok h).2, ?_⟩
  unfold beginDirWrite at h
  obtain ⟨champ, -, h⟩ := bind_eq_ok.1 h
  split at h
  · cases h
  · split at h
    · cases h
    · next hdir =>
        obtain ⟨signer, -, h⟩ := bind_eq_ok.1 h
        obtain ⟨base, -, h⟩ := bind_eq_ok.1 h
        cases h
        simpa using hdir

theorem commitTree_eq_ok {writer : PublicKeyHash} {signer : SigningPrivateKeyAndPublicHash}
    {rejected : String} (h : commitTree writer signer t rejected net = (.ok (), net')) :
    net' = Function.update net writer (some t) := by
  unfold commitTree at h
  split at h
  · cases h
    rfl
  · cases h

theorem linksOf_eq (ds : List DirChunk) :
    (ds.map DirChunk.contents).flatMap Prod.snd = linksOf ds := by
  rw [List.flatMap_map]
  rfl

theorem keys_eq (ds : List DirChunk) :
    (ds.map DirChunk.contents).map Prod.fst = ds.map (·.mapKey) := by
  rw [List.map_map]
  rfl

/-- What a walk over the directory gives a change to start from. -/
theorem HoldsDirectory.walk (h : HoldsDirectory maxLinks dirCap m t)
    {node : CryptreeNode}
    (hnode : (fetchChunkNode t dirCap.rBaseKey dirCap.mapKey).filter (·.isDirectory) = some node)
    (hwalk : walkDirChunks u t dirCap.rBaseKey fuel dirCap.mapKey node = .ok ds) :
    ∃ tail, ChainFrom dirCap.mapKey ds tail ∧ ds ≠ [] ∧ (ds.map (·.mapKey) ++ [tail]).Nodup ∧
      ¬IsDirAt t dirCap.rBaseKey tail ∧
      (∀ c ∈ ds, c.Prepared t dirCap.rBaseKey ∧ c.children.length ≤ maxLinks) ∧
      Represents (·.name) m (linksOf ds) ∧
      ListsFrom t dirCap.rBaseKey dirCap.mapKey (ds.map DirChunk.contents) tail := by
  obtain ⟨chunks, tail, hlists, hne, hroom, hrep⟩ := h
  obtain ⟨rfl, hchain, hprep⟩ := hlists.walk hnode hwalk
  refine ⟨tail, hchain, fun hnil => hne (hnil ▸ rfl), ?_, hlists.not_isDirAt_tail, fun c hc => ⟨hprep c hc, ?_⟩,
    linksOf_eq ds ▸ hrep, hlists⟩
  · have hnodup := hlists.nodup_keys
    have hnot := hlists.tail_not_mem
    rw [keys_eq] at hnodup hnot
    rw [List.nodup_append]
    refine ⟨hnodup, List.nodup_singleton _, fun a ha b hb heq => hnot ?_⟩
    rwa [← List.mem_singleton.1 hb, ← heq]
  · exact hroom c.contents (List.mem_map_of_mem hc)

/-- The directory after a commit of its chunks. -/
theorem HoldsDirectory.of_commit (hchain : ChainFrom dirCap.mapKey ds tail) (hne : ds ≠ [])
    (hnodup : (ds.map (·.mapKey) ++ [tail]).Nodup)
    (hall : ∀ c ∈ ds, c.Prepared t dirCap.rBaseKey ∧ c.children.length ≤ maxLinks)
    (htail : ¬IsDirAt t dirCap.rBaseKey tail) (hrep : Represents (·.name) m (linksOf ds))
    (h : ds.foldlM (commitChunk dirCap.rBaseKey) t = .ok t') :
    HoldsDirectory maxLinks dirCap m t' := by
  obtain ⟨hlists, -⟩ := hchain.commit hnodup (fun c hc => (hall c hc).1) htail h
  refine ⟨_, tail, hlists, fun hnil => hne (List.map_eq_nil_iff.1 hnil), fun c hc => ?_,
    (linksOf_eq ds).symm ▸ hrep⟩
  obtain ⟨d, hd, rfl⟩ := List.mem_map.1 hc
  exact (hall d hd).2

/-! ## The four changes -/

/-- A change to a directory from the outside: `begin_dir_write`, `put_child_chunk` for each new
node, and `finish_dir_write_multi`. -/
def addChildren (fuel maxLinks : ℕ) (fresh : List (Bytes × Bat))
    (nodes : List (Bytes × CryptreeBlock)) (dirCap : AbsoluteCapability)
    (links : List NamedRelativeCapability) (entrySigner : Option SigningPrivateKeyAndPublicHash)
    (mirrorBat : Option BatId) : Exec Network Fault Unit := do
  let ctx ← Exec.query fun net => beginDirWrite net dirCap entrySigner mirrorBat
  let ctx ← Exec.lift (nodes.foldlM (fun ctx e => putChildChunk ctx e.1 e.2) ctx)
  finishDirWriteMulti fuel maxLinks fresh ctx dirCap links

/-- Locations drawn at random: all different, no node is there and none leads there. -/
structure DrawnFresh (t : Tree) (keys : List Bytes) : Prop where
  nodup : keys.Nodup
  absent : ∀ k ∈ keys, t k = none
  unled : ∀ k ∈ keys, ∀ k' b, t k' = some b → b.fromBaseKey.secret.nextChunk.mapKey ≠ k

/-- The end of a directory is where one of its nodes leads. -/
theorem ListsFrom.tail_led {chunks : List (Bytes × List NamedRelativeCapability)}
    (h : ListsFrom t rk key chunks tail) (hne : chunks ≠ []) :
    ∃ k b, t k = some b ∧ b.fromBaseKey.secret.nextChunk.mapKey = tail := by
  induction chunks generalizing key with
  | nil => exact absurd rfl hne
  | cons c rest ih =>
      obtain ⟨-, next, ⟨node, base, hnode, -, hbase, hnext⟩, hrest⟩ := h
      cases rest with
      | nil =>
          obtain ⟨block, hblock, rfl⟩ :=
            Option.map_eq_some_iff.1 (Option.filter_eq_some_iff.1 hnode).1
          refine ⟨key, block, hblock, ?_⟩
          unfold CryptreeNode.baseBlock CipherText.decrypt at hbase
          split at hbase
          · rw [← hrest.1, ← hnext, ← Except.ok.inj hbase]
            rfl
          · cases hbase
      | cons c' rest => exact ih hrest (List.cons_ne_nil _ _)

/-- Putting new nodes leaves everything else. -/
theorem foldlM_putChildChunk_ok {nodes : List (Bytes × CryptreeBlock)} {ctx' : DirWriteContext}
    (h : nodes.foldlM (fun ctx e => putChildChunk ctx e.1 e.2) ctx = .ok ctx') :
    (∀ k ∉ nodes.map Prod.fst, ctx'.champ k = ctx.champ k) ∧
      ctx' = { ctx with champ := ctx'.champ } := by
  induction nodes generalizing ctx with
  | nil =>
      cases h
      exact ⟨fun _ _ => rfl, rfl⟩
  | cons e nodes ih =>
      rw [List.foldlM_cons] at h
      obtain ⟨ctx₁, hput, h⟩ := bind_eq_ok.1 h
      unfold putChildChunk at hput
      obtain ⟨champ, hchamp, hput⟩ := bind_eq_ok.1 hput
      cases hput
      obtain ⟨hframe, hctx⟩ := ih h
      refine ⟨fun k hk => ?_, hctx⟩
      rw [List.map_cons, List.mem_cons, not_or] at hk
      rw [hframe k hk.2, Tree.put_eq_ok hchamp]
      exact Function.update_of_ne hk.1 _ _

/-- The chunks with a batch of links of different names, at fresh locations where there is no
room. -/
theorem linkedChamp_ok (hmax : 0 < maxLinks) {fresh : List (Bytes × Bat)}
    (h : HoldsDirectory maxLinks dirCap m ctx.champ)
    (hnode : (fetchChunkNode ctx.champ dirCap.rBaseKey dirCap.mapKey).filter (·.isDirectory) =
      some ctx.dirNode)
    (hnames : (links.map (·.name)).Nodup) (hnodup : (fresh.map Prod.fst).Nodup)
    (habsent : ∀ k ∈ fresh.map Prod.fst, ctx.champ k = none)
    (htail : ∀ chunks tail, ListsFrom ctx.champ dirCap.rBaseKey dirCap.mapKey chunks tail →
      tail ∉ fresh.map Prod.fst)
    (hlinked : linkedChamp fuel maxLinks fresh ctx dirCap links = .ok t') :
    HoldsDirectory maxLinks dirCap (insertAll (·.name) m links) t' := by
  unfold linkedChamp at hlinked
  obtain ⟨ds, hds, hlinked⟩ := bind_eq_ok.1 hlinked
  obtain ⟨base, -, hlinked⟩ := bind_eq_ok.1 hlinked
  obtain ⟨parentLink, -, hlinked⟩ := bind_eq_ok.1 hlinked
  obtain ⟨ds', hadd, hcommit⟩ := bind_eq_ok.1 hlinked
  rw [collectDirChunks_eq] at hds
  obtain ⟨tail, hchain, hne, hkeys, hend, hall, hrep, hlists⟩ := h.walk hnode hds
  have hfree : ∀ k ∈ fresh.map Prod.fst, ¬IsDirAt ctx.champ dirCap.rBaseKey k := by
    intro k hk
    rw [IsDirAt, fetchChunkNode, habsent k hk]
    exact Bool.false_ne_true
  -- the fresh locations are none of the directory's
  have hdistinct : (ds.map (·.mapKey) ++ tail :: fresh.map Prod.fst).Nodup := by
    rw [← List.singleton_append, ← List.append_assoc, List.nodup_append]
    refine ⟨hkeys, hnodup, ?_⟩
    rintro a ha b hb rfl
    rcases List.mem_append.1 ha with ha | ha
    · exact hfree a hb (hlists.isDirAt_of_mem ((keys_eq ds).symm ▸ ha))
    · exact htail _ _ hlists (List.mem_singleton.1 ha ▸ hb)
  have hchain₁ : ChainFrom dirCap.mapKey (ds.map (DirChunk.dedup (links.map (·.name)))) tail :=
    hchain.map fun c => ⟨rfl, rfl⟩
  have hkeys₁ : (ds.map (DirChunk.dedup (links.map (·.name)))).map (·.mapKey) =
      ds.map (·.mapKey) := by
    rw [List.map_map]
    rfl
  have hall₁ : ∀ c ∈ ds.map (DirChunk.dedup (links.map (·.name))),
      c.Prepared ctx.champ dirCap.rBaseKey ∧ c.children.length ≤ maxLinks := by
    intro c hc
    obtain ⟨d, hd, rfl⟩ := List.mem_map.1 hc
    exact ⟨(hall d hd).1.dedup _, (List.length_filter_le _ _).trans (hall d hd).2⟩
  obtain ⟨tail', htail', hchain', hnodup', hlen, hperm, hall'⟩ :=
    addLinks_ok hmax hchain₁ (hkeys₁.symm ▸ hdistinct) hall₁ hadd
  have hne' : ds' ≠ [] := by
    rintro rfl
    rw [List.length_map] at hlen
    exact hne (List.length_eq_zero_iff.1 (Nat.le_zero.1 hlen))
  refine HoldsDirectory.of_commit hchain' hne' hnodup' hall' ?_ ?_ hcommit
  · rcases List.mem_cons.1 htail' with rfl | hmem
    · exact hend
    · exact hfree tail' hmem
  · rw [linksOf_dedup] at hperm
    exact (hrep.overwrite hnames).perm hperm.symm

/-- Links committed on a tree with new nodes in `new`, places where nothing is and nothing leads. -/
theorem finishDirWriteMulti_holds (new : Bytes → Prop) (hmax : 0 < maxLinks)
    {fresh : List (Bytes × Bat)} {u : Tree} (h : HoldsDirectory maxLinks dirCap m t)
    (hnode : (fetchChunkNode t dirCap.rBaseKey dirCap.mapKey).filter (·.isDirectory) =
      some ctx.dirNode)
    (hnames : (links.map (·.name)).Nodup) (hframe : ∀ k, ¬new k → u k = t k)
    (habsent : ∀ k, new k → t k = none)
    (hunled : ∀ k, new k → ∀ k' b, t k' = some b → b.fromBaseKey.secret.nextChunk.mapKey ≠ k)
    (hfresh : DrawnFresh t (fresh.map Prod.fst)) (hapart : ∀ k ∈ fresh.map Prod.fst, ¬new k)
    (hrun : finishDirWriteMulti fuel maxLinks fresh { ctx with champ := u } dirCap links net =
      (.ok (), net')) :
    ∃ t', net' = Function.update net dirCap.writer (some t') ∧
      HoldsDirectory maxLinks dirCap (insertAll (·.name) m links) t' := by
  unfold finishDirWriteMulti at hrun
  obtain ⟨t', hlinked, hrun⟩ := Exec.lift_bind_eq_ok hrun
  refine ⟨t', commitTree_eq_ok hrun, ?_⟩
  -- the new nodes are elsewhere: the directory is still there
  obtain ⟨chunks, tail, hlists, hne, hroom, hrep⟩ := h
  have hold : ∀ k, IsDirAt t dirCap.rBaseKey k → u k = t k := by
    intro k hk
    refine hframe k fun hnew => ?_
    rw [IsDirAt, fetchChunkNode, habsent k hnew] at hk
    cases hk
  have hdir : IsDirAt t dirCap.rBaseKey dirCap.mapKey := by
    rw [IsDirAt, hnode]
    rfl
  obtain ⟨k, b, hb, hled⟩ := hlists.tail_led hne
  have hend : ¬IsDirAt u dirCap.rBaseKey tail := by
    rw [IsDirAt, fetchChunkNode, hframe tail fun hnew => hunled tail hnew k b hb hled]
    exact hlists.not_isDirAt_tail
  have hlists' := hlists.congr (fun k hk => hold k (hlists.isDirAt_of_mem hk)) hend
  refine linkedChamp_ok hmax ⟨chunks, tail, hlists', hne, hroom, hrep⟩ ?_ hnames hfresh.nodup ?_ ?_
    hlinked
  · show (fetchChunkNode u dirCap.rBaseKey dirCap.mapKey).filter _ = some ctx.dirNode
    rw [← hnode, fetchChunkNode, fetchChunkNode, hold dirCap.mapKey hdir]
  · exact fun k hk => (hframe k (hapart k hk)).trans (hfresh.absent k hk)
  · intro chunks' tail' hlists''
    obtain ⟨-, rfl⟩ := hlists''.unique hlists'
    exact fun hmem => hfresh.unled _ hmem k b hb hled

/-- An addition of a batch of links with different names. -/
theorem addChildren_ok (hmax : 0 < maxLinks) {fresh : List (Bytes × Bat)}
    {nodes : List (Bytes × CryptreeBlock)} (hnet : net dirCap.writer = some t)
    (h : HoldsDirectory maxLinks dirCap m t) (hnames : (links.map (·.name)).Nodup)
    (hfresh : DrawnFresh t (nodes.map Prod.fst ++ fresh.map Prod.fst))
    (hrun : addChildren fuel maxLinks fresh nodes dirCap links entrySigner mirrorBat net =
      (.ok (), net')) :
    ∃ t', net' = Function.update net dirCap.writer (some t') ∧
      HoldsDirectory maxLinks dirCap (insertAll (·.name) m links) t' := by
  unfold addChildren at hrun
  obtain ⟨ctx, hctx, hrun⟩ := Exec.query_bind_eq_ok hrun
  obtain ⟨ctx', hctx', hrun⟩ := Exec.lift_bind_eq_ok hrun
  obtain rfl : t = ctx.champ := Option.some.inj (hnet.symm.trans (beginDirWrite_ok hctx).1)
  obtain ⟨hframe, hsame⟩ := foldlM_putChildChunk_ok hctx'
  have hnodup := List.nodup_append.1 hfresh.nodup
  rw [hsame] at hrun
  refine finishDirWriteMulti_holds (· ∈ nodes.map Prod.fst) hmax h
    (beginDirWrite_dirNode hctx) hnames hframe
    (fun k hk => hfresh.absent k (List.mem_append_left _ hk))
    (fun k hk => hfresh.unled k (List.mem_append_left _ hk)) ⟨hnodup.2.1, ?_, ?_⟩ ?_ hrun
  · exact fun k hk => hfresh.absent k (List.mem_append_right _ hk)
  · exact fun k hk => hfresh.unled k (List.mem_append_right _ hk)
  · exact fun k hk hmem => hnodup.2.2 k hmem k hk rfl

/-- A link of the directory replaced and the chunks committed, on a tree that has the same
directories. -/
theorem HoldsDirectory.replace (h : HoldsDirectory maxLinks dirCap m t) {node : CryptreeNode}
    (hnode : (fetchChunkNode t dirCap.rBaseKey dirCap.mapKey).filter (·.isDirectory) = some node)
    (hwalk : walkDirChunks u t dirCap.rBaseKey fuel dirCap.mapKey node = .ok ds)
    (hreplace : replaceFirst name repl ds = some (link, ds')) (hrepl : ∀ l, (repl l).length ≤ 1)
    {t₁ : Tree} (hkeep : ∀ key children next, DirChunkAt t dirCap.rBaseKey key children next →
      DirChunkAt t₁ dirCap.rBaseKey key children next)
    (hend : ∀ k, IsDirAt t₁ dirCap.rBaseKey k → IsDirAt t dirCap.rBaseKey k)
    (hrep : link.name = name → ∀ others, Represents (·.name) m (link :: others) →
      Represents (·.name) m' (repl link ++ others))
    (hcommit : ds'.foldlM (commitChunk dirCap.rBaseKey) t₁ = .ok t') :
    link ∈ linksOf ds ∧ link.name = name ∧ HoldsDirectory maxLinks dirCap m' t' ∧
      ∃ chunks tail, ListsFrom t dirCap.rBaseKey dirCap.mapKey chunks tail ∧
        (∀ k ∉ chunks.map Prod.fst, t' k = t₁ k) ∧
        ∀ chunks' tail', ListsFrom t' dirCap.rBaseKey dirCap.mapKey chunks' tail' →
          chunks'.map Prod.fst = chunks.map Prod.fst := by
  obtain ⟨tail, hchain, hne, hnodup, htail, hall, hrepr, hlists⟩ := h.walk hnode hwalk
  obtain ⟨hname, hkeys, hchains, ⟨others, hperm, hperm'⟩, hall'⟩ :=
    replaceFirst_ok hreplace hrepl hall
  have hall₁ : ∀ c ∈ ds', c.Prepared t₁ dirCap.rBaseKey ∧ c.children.length ≤ maxLinks :=
    fun c hc => ⟨⟨(hall' c hc).1.isDir, (hall' c hc).1.next,
      fun hmod => hkeep _ _ _ ((hall' c hc).1.stored hmod)⟩, (hall' c hc).2⟩
  have hnodup' : (ds'.map (·.mapKey) ++ [tail]).Nodup := hkeys.symm ▸ hnodup
  obtain ⟨hlists', hframe⟩ := (hchains _ _ hchain).commit hnodup' (fun c hc => (hall₁ c hc).1)
    (fun hdir => htail (hend tail hdir)) hcommit
  refine ⟨hperm.mem_iff.2 List.mem_cons_self, hname, ?_, ds.map DirChunk.contents, tail, hlists, ?_,
    ?_⟩
  · have hne' : ds' ≠ [] := by
      rintro rfl
      exact hne (List.map_eq_nil_iff.1 hkeys.symm)
    exact HoldsDirectory.of_commit (hchains _ _ hchain) hne' hnodup' hall₁
      (fun hdir => htail (hend tail hdir)) ((hrep hname others (hrepr.perm hperm)).perm hperm'.symm) hcommit
  · rwa [keys_eq, ← hkeys]
  · intro chunks' tail' hlists''
    rw [(hlists''.unique hlists').1, keys_eq, keys_eq, hkeys]

/-- Removing nodes that are not the directory's own. -/
theorem HoldsDirectory.removed (h : HoldsDirectory maxLinks dirCap m t)
    (hremoved : RemovedBelow H t t' loc)
    (hown : ∀ chunks tail, ListsFrom t dirCap.rBaseKey dirCap.mapKey chunks tail →
      ∀ k ∈ chunks.map Prod.fst, ¬Below H t loc k) : HoldsDirectory maxLinks dirCap m t' := by
  obtain ⟨chunks, tail, hlists, hne, hroom, hrep⟩ := h
  refine ⟨chunks, tail, hlists.congr (fun k hk => ?_) fun hdir => ?_, hne, hroom, hrep⟩
  · rcases hremoved k with heq | ⟨-, hbelow⟩
    · exact heq
    · exact absurd hbelow (hown chunks tail hlists k hk)
  · refine hlists.not_isDirAt_tail ?_
    unfold IsDirAt at hdir ⊢
    obtain ⟨node, hnode⟩ := Option.isSome_iff_exists.1 hdir
    obtain ⟨hfetch, hisDir⟩ := Option.filter_eq_some_iff.1 hnode
    rw [Option.filter_eq_some_iff.2 ⟨hremoved.fetch hfetch, hisDir⟩]
    rfl

/-- A removal of a link. -/
theorem removeChildLink_ok (hnet : net dirCap.writer = some t)
    (h : HoldsDirectory maxLinks dirCap m t)
    (hrun : removeChildLink fuel dirCap name entrySigner mirrorBat net = (.ok (), net')) :
    ∃ t', net' = Function.update net dirCap.writer (some t') ∧
      HoldsDirectory maxLinks dirCap (Function.update m name none) t' := by
  unfold removeChildLink at hrun
  obtain ⟨ctx, hctx, hrun⟩ := Exec.query_bind_eq_ok hrun
  obtain ⟨ds, hds, hrun⟩ := Exec.lift_bind_eq_ok hrun
  obtain rfl : t = ctx.champ := Option.some.inj (hnet.symm.trans (beginDirWrite_ok hctx).1)
  have hnode := beginDirWrite_dirNode hctx
  cases hreplace : replaceFirst name (fun _ => []) ds with
  | none =>
      rw [hreplace] at hrun
      -- there is no such link: the same directory is committed again
      refine ⟨ctx.champ, commitTree_eq_ok hrun, ?_⟩
      obtain ⟨tail, -, -, -, -, -, hrep, -⟩ := h.walk hnode hds
      have habsent := hrep.eq_none (replaceFirst_eq_none hreplace)
      rwa [← habsent, Function.update_eq_self]
  | some r =>
      obtain ⟨link, ds'⟩ := r
      rw [hreplace] at hrun
      obtain ⟨t', hcommit, hrun⟩ := Exec.lift_bind_eq_ok hrun
      refine ⟨t', commitTree_eq_ok hrun, ?_⟩
      exact (h.replace hnode hds hreplace (fun _ => Nat.zero_le 1) (fun _ _ _ hc => hc)
        (fun _ hc => hc) (fun hname others hrep => hname ▸ hrep.erase) hcommit).2.2.1

theorem CipherText.decrypt_eq_ok {α : Type} {c : CipherText α} {key : SymmetricKey} {a : α}
    (h : c.decrypt key = .ok a) : c.key = key.key ∧ c.secret = a := by
  unfold decrypt at h
  split at h
  · next hkey => exact ⟨hkey, Except.ok.inj h⟩
  · cases h

/-- New properties of the same kind: to every reader the node is a directory or not as before. -/
theorem isDirectory_updateProperties {node newNode : CryptreeNode} {props newProps : FileProperties}
    {baseKey : SymmetricKey} (rk : SymmetricKey) (hprops : node.getProperties baseKey = .ok props)
    (hnew : node.updateProperties baseKey newProps = .ok newNode)
    (hdir : newProps.isDirectory = props.isDirectory) :
    (CryptreeNode.fromCbor newNode.toCbor rk).isDirectory =
      (CryptreeNode.fromCbor node.toCbor rk).isDirectory := by
  obtain ⟨parent, hparent, hprops⟩ := bind_eq_ok.1 hprops
  cases hprops
  obtain ⟨hkey, hsecret⟩ := CipherText.decrypt_eq_ok hparent
  obtain ⟨link, -, hnew⟩ := bind_eq_ok.1 hnew
  cases hnew
  rw [CryptreeNode.isDirectory_fromCbor, CryptreeNode.isDirectory_fromCbor]
  simp only [CryptreeNode.toCbor, CipherText.build, hkey, hsecret, hdir]

/-- A child's new name in its properties changes no directory. -/
theorem renameNode_ok {child : RelativeCapability} {newName : String} (rk : SymmetricKey)
    (h : renameNode t dirCap child newName = .ok t') :
    (∀ key children next, DirChunkAt t rk key children next → DirChunkAt t' rk key children next) ∧
      ∀ k, IsDirAt t' rk k → IsDirAt t rk k := by
  unfold renameNode at h
  obtain ⟨_, -, h⟩ := bind_eq_ok.1 h
  split at h
  · cases h
  · next node hfetch =>
      obtain ⟨props, hprops, h⟩ := bind_eq_ok.1 h
      obtain ⟨newNode, hnew, h⟩ := bind_eq_ok.1 h
      obtain rfl := Tree.put_eq_ok h
      obtain ⟨block, hblock, hcbor⟩ := Option.map_eq_some_iff.1 hfetch
      have hdir := isDirectory_updateProperties rk hprops hnew rfl
      obtain ⟨link, -, hnew⟩ := bind_eq_ok.1 hnew
      cases hnew
      subst hcbor
      constructor
      · rintro key children next ⟨n, base, hn, hchildren, hbase, hnext⟩
        by_cases hkey : key = child.mapKey
        · subst hkey
          obtain ⟨hn, hisDir⟩ := Option.filter_eq_some_iff.1 hn
          rw [fetchChunkNode, hblock] at hn
          cases hn
          refine ⟨_, base, Option.filter_eq_some_iff.2 ⟨?_, hdir.trans hisDir⟩, hchildren, hbase,
            hnext⟩
          rw [fetchChunkNode, Function.update_self]
          rfl
        · exact DirChunkAt.congr ⟨n, base, hn, hchildren, hbase, hnext⟩
            (Function.update_of_ne hkey _ _)
      · intro k hk
        unfold IsDirAt fetchChunkNode at hk ⊢
        by_cases hkey : k = child.mapKey
        · subst hkey
          rw [Function.update_self] at hk
          rw [hblock]
          simp only [Option.map_some, Option.isSome_filter, Option.any_some] at hk ⊢
          exact hdir.symm.trans hk
        · rwa [Function.update_of_ne hkey] at hk

/-- A renaming. -/
theorem renameChild_ok {oldName newName : String} (hnet : net dirCap.writer = some t)
    (h : HoldsDirectory maxLinks dirCap m t)
    (hrun : renameChild fuel dirCap oldName newName entrySigner mirrorBat net = (.ok (), net')) :
    ∃ t', net' = Function.update net dirCap.writer (some t') ∧
      HoldsDirectory maxLinks dirCap (Function.update (Function.update m oldName none) newName
        ((m oldName).map fun link => { link with name := newName })) t' := by
  unfold renameChild at hrun
  split at hrun
  · cases hrun
  · obtain ⟨ctx, hctx, hrun⟩ := Exec.query_bind_eq_ok hrun
    obtain ⟨ds, hds, hrun⟩ := Exec.lift_bind_eq_ok hrun
    obtain rfl : t = ctx.champ := Option.some.inj (hnet.symm.trans (beginDirWrite_ok hctx).1)
    have hnode := beginDirWrite_dirNode hctx
    split at hrun
    · cases hrun
    · next hfree =>
        have hfree' : m newName = none := by
          obtain ⟨tail, -, -, -, -, -, hrep, -⟩ := h.walk hnode hds
          refine hrep.eq_none fun hmem => hfree ?_
          obtain ⟨l, hl, hname⟩ := List.mem_map.1 hmem
          obtain ⟨c, hc, hl⟩ := List.mem_flatMap.1 hl
          exact List.any_eq_true.2 ⟨c, hc, List.any_eq_true.2 ⟨l, hl, decide_eq_true hname⟩⟩
        cases hreplace : replaceFirst oldName (fun link => [{ link with name := newName }]) ds with
        | none =>
            rw [hreplace] at hrun
            cases hrun
        | some r =>
            obtain ⟨link, ds'⟩ := r
            rw [hreplace] at hrun
            obtain ⟨t₁, hrename, hrun⟩ := Exec.lift_bind_eq_ok hrun
            obtain ⟨t', hcommit, hrun⟩ := Exec.lift_bind_eq_ok hrun
            refine ⟨t', commitTree_eq_ok hrun, ?_⟩
            obtain ⟨hkeep, hend⟩ := renameNode_ok dirCap.rBaseKey hrename
            refine (h.replace hnode hds hreplace (fun _ => le_rfl) hkeep hend
              (fun hname others hrep => ?_) hcommit).2.2.1
            have hold : m oldName = some link :=
              hname ▸ (hrep.some_iff link.name link).2 ⟨List.mem_cons_self, rfl⟩
            rw [hold, Option.map_some]
            -- the new name is none of the others'
            have hnew : newName ∉ others.map (·.name) := by
              intro hmem
              obtain ⟨o, ho, hname'⟩ := List.mem_map.1 hmem
              have hsome := (hrep.some_iff newName o).2 ⟨List.mem_cons_of_mem _ ho, hname'⟩
              rw [hfree'] at hsome
              cases hsome
            exact (hname ▸ hrep.erase).insert (a := { link with name := newName }) hnew

/-- A deletion of a child that is not made of the directory's own nodes. -/
theorem unlinkAndRemove_ok (hnet : net dirCap.writer = some t)
    (h : HoldsDirectory maxLinks dirCap m t)
    (hown : ∀ chunks tail, ListsFrom t dirCap.rBaseKey dirCap.mapKey chunks tail →
      ∀ l ∈ chunks.flatMap Prod.snd, l.name = name →
        ∀ k ∈ chunks.map Prod.fst, ¬Below H t l.cap.loc k)
    (hrun : unlinkAndRemove H fuel dirCap name entrySigner mirrorBat net = (.ok (), net')) :
    ∃ t', net' = Function.update net dirCap.writer (some t') ∧
      HoldsDirectory maxLinks dirCap (Function.update m name none) t' := by
  unfold unlinkAndRemove at hrun
  obtain ⟨ctx, hctx, hrun⟩ := Exec.query_bind_eq_ok hrun
  obtain ⟨ds, hds, hrun⟩ := Exec.lift_bind_eq_ok hrun
  obtain rfl : t = ctx.champ := Option.some.inj (hnet.symm.trans (beginDirWrite_ok hctx).1)
  have hnode := beginDirWrite_dirNode hctx
  cases hreplace : replaceFirst name (fun _ => []) ds with
  | none =>
      rw [hreplace] at hrun
      cases hrun
  | some r =>
      obtain ⟨link, ds'⟩ := r
      rw [hreplace] at hrun
      obtain ⟨t₁, hcommit, hrun⟩ := Exec.lift_bind_eq_ok hrun
      obtain ⟨t', hremove, hrun⟩ := Exec.lift_bind_eq_ok hrun
      refine ⟨t', commitTree_eq_ok hrun, ?_⟩
      obtain ⟨hlink, hname, hholds, chunks, tail, hlists, hframe, hkeys⟩ := h.replace hnode hds
        hreplace (fun _ => Nat.zero_le 1) (fun _ _ _ hc => hc) (fun _ hc => hc)
        (fun hname others hrep => hname ▸ hrep.erase) hcommit
      obtain ⟨hchunks, -⟩ := (hlists.walk hnode hds)
      have hown' := hown chunks tail hlists link (hchunks ▸ (linksOf_eq ds).symm ▸ hlink) hname
      refine hholds.removed (removeAllChunks_ok hremove) fun chunks' tail' hlists' k hk hbelow => ?_
      rw [hkeys chunks' tail' hlists'] at hk
      -- what is below the child is below it in the tree before, for it is not the directory's
      refine hown' k hk (hbelow.of_agree fun k hk => Or.inr (hframe k fun hmem => ?_))
      exact hown' k hmem hk

/-! ## Whole writing spaces -/

@[simp] theorem network_withNetwork (net : Network) (s : Spaces) :
    (Spaces.withNetwork net s).network = net := by
  funext w
  simp only [Spaces.network, Spaces.withNetwork, Option.map_map]
  exact Option.map_id'

theorem onTrees_eq_ok {α : Type} {x : Exec Network Fault α} {s s' : Spaces} {a : α}
    (h : onTrees x s = (.ok a, s')) : x s.network = (.ok a, s'.network) := by
  have hfst : (x s.network).1 = .ok a := congrArg Prod.fst h
  have hsnd : Spaces.withNetwork (x s.network).2 s = s' := congrArg Prod.snd h
  rw [← hsnd, network_withNetwork, ← hfst]

theorem withNetwork_network (s : Spaces) : Spaces.withNetwork s.network s = s := by
  funext w
  unfold Spaces.withNetwork Spaces.network
  cases s w <;> rfl

theorem onTrees_of_ok {α : Type} {x : Exec Network Fault α} {s : Spaces} {a : α} {net : Network}
    (h : x s.network = (.ok a, net)) : onTrees x s = (.ok a, Spaces.withNetwork net s) := by
  unfold onTrees Exec.zoom
  rw [h]

theorem onTrees_of_error {α : Type} {x : Exec Network Fault α} {s : Spaces} {e : Fault}
    (h : x s.network = (.error e, s.network)) : onTrees x s = (.error e, s) := by
  unfold onTrees Exec.zoom
  rw [h, withNetwork_network]

/-- Deauthorising a writer changes no node. -/
theorem deauthorizeWriter_ok {w : PublicKeyHash} {s s' : Spaces}
    (h : deauthorizeWriter dirCap w entrySigner s = (.ok (), s')) : s'.network = s.network := by
  unfold deauthorizeWriter at h
  obtain ⟨signer, -, h⟩ := Exec.query_bind_eq_ok h
  obtain ⟨space, s₁, hread, h⟩ := Exec.bind_eq_ok h
  cases hread
  beta_reduce at h
  cases hspace : s signer.publicKeyHash with
  | none =>
      rw [hspace] at h
      cases h
  | some space =>
      rw [hspace] at h
      cases howned : space.owned with
      | none =>
          simp only [howned] at h
          cases h
      | some owned =>
          simp only [howned] at h
          split at h
          · cases h
            funext w'
            beta_reduce
            by_cases hw : w' = signer.publicKeyHash
            · rw [hw, Spaces.network, Spaces.network, Function.update_self, hspace]
              rfl
            · rw [Spaces.network, Spaces.network, Function.update_of_ne hw]
          · cases h
            rfl

theorem deleteChild_ok {s s' : Spaces} (hnet : s.network dirCap.writer = some t)
    (h : HoldsDirectory maxLinks dirCap m t)
    (hown : ∀ chunks tail, ListsFrom t dirCap.rBaseKey dirCap.mapKey chunks tail →
      ∀ l ∈ chunks.flatMap Prod.snd, l.name = name →
        ∀ k ∈ chunks.map Prod.fst, ¬Below H t l.cap.loc k)
    (hrun : deleteChild H fuel dirCap name entrySigner mirrorBat s = (.ok (), s')) :
    ∃ t', s'.network dirCap.writer = some t' ∧
      HoldsDirectory maxLinks dirCap (Function.update m name none) t' := by
  unfold deleteChild at hrun
  obtain ⟨entries, -, hrun⟩ := Exec.query_bind_eq_ok hrun
  obtain ⟨targets, -, hrun⟩ := Exec.query_bind_eq_ok hrun
  obtain ⟨_, s₁, hnull, hrun⟩ := Exec.bind_eq_ok hrun
  obtain ⟨_, s₂, htrees, hrun⟩ := Exec.bind_eq_ok hrun
  -- the directory's own space is as it was, or gone
  have hspace : s₁.network dirCap.writer = some t ∨ s₁.network dirCap.writer = none := by
    refine Exec.forEach_invariant (fun s : Spaces => s.network dirCap.writer = some t ∨
      s.network dirCap.writer = none) (fun target s s' hs hstep => ?_) (Or.inl hnet) hnull
    obtain ⟨signer, -, hstep⟩ := Exec.query_bind_eq_ok hstep
    cases hstep
    beta_reduce
    by_cases hw : dirCap.writer = signer.publicKeyHash
    · right
      rw [hw, Spaces.network, Function.update_self]
      rfl
    · rw [Spaces.network, Function.update_of_ne hw]
      exact hs
  have htrees' := onTrees_eq_ok htrees
  have hnet₁ : s₁.network dirCap.writer = some t := by
    refine hspace.resolve_right fun hnone => ?_
    unfold unlinkAndRemove at htrees'
    obtain ⟨ctx, hctx, -⟩ := Exec.query_bind_eq_ok htrees'
    rw [(beginDirWrite_ok hctx).1] at hnone
    cases hnone
  obtain ⟨t', hnet₂, hholds⟩ := unlinkAndRemove_ok hnet₁ h hown htrees'
  refine ⟨t', ?_, hholds⟩
  refine Exec.forEach_invariant (fun s : Spaces => s.network dirCap.writer = some t')
    (fun w s s' hs hstep => ?_) ?_ hrun
  · rw [deauthorizeWriter_ok hstep]
    exact hs
  · rw [hnet₂, Function.update_self]

/-! ## Runs -/

/-- A change to a directory. -/
inductive DirOp where
  | add (fresh : List (Bytes × Bat)) (nodes : List (Bytes × CryptreeBlock))
      (links : List NamedRelativeCapability)
  | delete (name : String)
  | rename (oldName newName : String)
  | removeLink (name : String)

namespace DirOp

/-- The change, as it is made. -/
def run (H : ContentHasher) (fuel maxLinks : ℕ) (dirCap : AbsoluteCapability)
    (entrySigner : Option SigningPrivateKeyAndPublicHash) (mirrorBat : Option BatId) :
    DirOp → Exec Spaces Fault Unit
  | add fresh nodes links =>
      onTrees (addChildren fuel maxLinks fresh nodes dirCap links entrySigner mirrorBat)
  | delete name => deleteChild H fuel dirCap name entrySigner mirrorBat
  | rename oldName newName =>
      onTrees (renameChild fuel dirCap oldName newName entrySigner mirrorBat)
  | removeLink name => onTrees (removeChildLink fuel dirCap name entrySigner mirrorBat)

/-- The change to a map from names to links. -/
def apply (m : String → Option NamedRelativeCapability) :
    DirOp → String → Option NamedRelativeCapability
  | add _ _ links => insertAll (·.name) m links
  | delete name => Function.update m name none
  | rename oldName newName => Function.update (Function.update m oldName none) newName
      ((m oldName).map fun link => { link with name := newName })
  | removeLink name => Function.update m name none

/-- The names a change is about. -/
def names : DirOp → List String
  | add _ _ links => links.map (·.name)
  | delete name => [name]
  | rename oldName newName => [oldName, newName]
  | removeLink name => [name]

theorem apply_of_not_mem (op : DirOp) {name : String} (h : name ∉ op.names) :
    op.apply m name = m name := by
  cases op with
  | add fresh nodes links => exact insertAll_of_not_mem h
  | delete n => exact Function.update_of_ne (fun heq => h (List.mem_singleton.2 heq)) _ _
  | removeLink n => exact Function.update_of_ne (fun heq => h (List.mem_singleton.2 heq)) _ _
  | rename o n =>
      rw [names, List.mem_cons, List.mem_singleton, not_or] at h
      rw [apply, Function.update_of_ne h.2, Function.update_of_ne h.1]

/-- A name that no change is about. -/
theorem foldl_apply_of_not_mem {ops : List DirOp} {name : String}
    (h : ∀ op ∈ ops, name ∉ op.names) : ops.foldl apply m name = m name := by
  induction ops generalizing m with
  | nil => rfl
  | cons op ops ih =>
      rw [List.foldl_cons, ih fun op hop => h op (List.mem_cons_of_mem _ hop)]
      exact op.apply_of_not_mem (h op List.mem_cons_self)

/-- The locations a change draws at random are new. -/
def Drawn (dirCap : AbsoluteCapability) (s : Spaces) : DirOp → Prop
  | add fresh nodes _ => ∀ t, s.network dirCap.writer = some t →
      DrawnFresh t (nodes.map Prod.fst ++ fresh.map Prod.fst)
  | _ => True

/-- A batch of links has no two of one name, and a deleted child has nodes of its own: none of them
is a chunk of the directory. -/
def Proper (H : ContentHasher) (dirCap : AbsoluteCapability) (s : Spaces) : DirOp → Prop
  | add _ _ links => (links.map (·.name)).Nodup
  | delete name => ∀ t chunks tail, s.network dirCap.writer = some t →
      ListsFrom t dirCap.rBaseKey dirCap.mapKey chunks tail →
      ∀ l ∈ chunks.flatMap Prod.snd, l.name = name →
        ∀ k ∈ chunks.map Prod.fst, ¬Below H t l.cap.loc k
  | _ => True

/-- One change that succeeded. -/
theorem run_ok (hmax : 0 < maxLinks) {op : DirOp} {s s' : Spaces}
    (hnet : s.network dirCap.writer = some t) (h : HoldsDirectory maxLinks dirCap m t)
    (hdrawn : op.Drawn dirCap s) (hproper : op.Proper H dirCap s)
    (hrun : op.run H fuel maxLinks dirCap entrySigner mirrorBat s = (.ok (), s')) :
    ∃ t', s'.network dirCap.writer = some t' ∧ HoldsDirectory maxLinks dirCap (op.apply m) t' := by
  cases op with
  | add fresh nodes links =>
      obtain ⟨t', hnet', hholds⟩ :=
        addChildren_ok hmax hnet h hproper (hdrawn t hnet) (onTrees_eq_ok hrun)
      exact ⟨t', by rw [hnet', Function.update_self], hholds⟩
  | delete name => exact deleteChild_ok hnet h (fun chunks tail => hproper t chunks tail hnet) hrun
  | rename oldName newName =>
      obtain ⟨t', hnet', hholds⟩ := renameChild_ok hnet h (onTrees_eq_ok hrun)
      exact ⟨t', by rw [hnet', Function.update_self], hholds⟩
  | removeLink name =>
      obtain ⟨t', hnet', hholds⟩ := removeChildLink_ok hnet h (onTrees_eq_ok hrun)
      exact ⟨t', by rw [hnet', Function.update_self], hholds⟩

end DirOp

/-- Changes that all succeed, each with its own signer and mirror BAT, in states that satisfy
`cond`. -/
inductive DirRun (H : ContentHasher) (maxLinks : ℕ) (dirCap : AbsoluteCapability)
    (cond : Spaces → DirOp → Prop) : Spaces → List DirOp → Spaces → Prop
  | done (s : Spaces) : DirRun H maxLinks dirCap cond s [] s
  | step {s s₁ s₂ : Spaces} {op : DirOp} {ops : List DirOp} (fuel : ℕ)
      (entrySigner : Option SigningPrivateKeyAndPublicHash) (mirrorBat : Option BatId) :
      cond s op → op.run H fuel maxLinks dirCap entrySigner mirrorBat s = (.ok (), s₁) →
      DirRun H maxLinks dirCap cond s₁ ops s₂ → DirRun H maxLinks dirCap cond s (op :: ops) s₂

/-- The directory through a run. -/
theorem DirRun.holds (hmax : 0 < maxLinks) {s s' : Spaces} {ops : List DirOp}
    (hrun : DirRun H maxLinks dirCap (fun s op => op.Drawn dirCap s ∧ op.Proper H dirCap s) s ops s')
    (hnet : s.network dirCap.writer = some t) (h : HoldsDirectory maxLinks dirCap m t) :
    ∃ t', s'.network dirCap.writer = some t' ∧
      HoldsDirectory maxLinks dirCap (ops.foldl DirOp.apply m) t' := by
  induction hrun generalizing t m with
  | done s => exact ⟨t, hnet, h⟩
  | step fuel entrySigner mirrorBat hcond hstep _ ih =>
      obtain ⟨t₁, hnet₁, h₁⟩ := DirOp.run_ok hmax hnet h hcond.1 hcond.2 hstep
      exact ih hnet₁ h₁

/-! ## Listing -/

/-- The loop of `list_directory` at a chunk. -/
theorem listChunks_succ {cap : AbsoluteCapability} {children : List NamedRelativeCapability}
    {next : Bytes} {node : CryptreeNode} {seen : List Bytes}
    (h : DirChunkAt t cap.rBaseKey key children next)
    (hnode : (fetchChunkNode t cap.rBaseKey key).filter (·.isDirectory) = some node) :
    listChunks t cap (fuel + 1) seen node = (do
      let entries ← children.mapM (·.toEntry cap)
      if next ∈ seen then pure entries
      else
        match (fetchChunkNode t cap.rBaseKey next).filter (·.isDirectory) with
        | some node => do
            let rest ← listChunks t cap fuel (next :: seen) node
            pure (entries ++ rest)
        | none => pure entries) := by
  obtain ⟨n, base, hn, hchildren, hbase, rfl⟩ := h
  rw [hnode] at hn
  cases hn
  rw [listChunks, chunkEntries, hchildren, hbase]
  rfl

/-- `list_directory` resolves the links of the chunks, in their order. -/
theorem listChunks_eq {cap : AbsoluteCapability} {c : Bytes × List NamedRelativeCapability}
    {rest : List (Bytes × List NamedRelativeCapability)} {node : CryptreeNode} {seen : List Bytes}
    (h : ListsFrom t cap.rBaseKey key (c :: rest) tail)
    (hnode : (fetchChunkNode t cap.rBaseKey key).filter (·.isDirectory) = some node)
    (hseen : ∀ k ∈ rest.map Prod.fst, k ∉ seen) (hfuel : rest.length < fuel) :
    listChunks t cap fuel seen node =
      ((c :: rest).flatMap Prod.snd).mapM (·.toEntry cap) := by
  induction rest generalizing key c node seen fuel with
  | nil =>
      obtain ⟨fuel, rfl⟩ := Nat.exists_eq_succ_of_ne_zero (Nat.ne_of_gt hfuel)
      obtain ⟨-, next, hchunk, -, hend⟩ := h
      rw [IsDirAt, Option.not_isSome_iff_eq_none] at hend
      rw [listChunks_succ hchunk hnode, hend, List.flatMap_singleton]
      simp only [ite_self, bind_pure]
  | cons c' rest ih =>
      obtain ⟨fuel, rfl⟩ := Nat.exists_eq_succ_of_ne_zero (Nat.ne_of_gt (Nat.zero_lt_of_lt hfuel))
      have hnodup := h.nodup_keys
      obtain ⟨-, next, hchunk, hrest⟩ := h
      have hmem : next ∈ (c' :: rest).map Prod.fst := List.mem_cons.2 (Or.inl hrest.1.symm)
      obtain ⟨node', hnode'⟩ := Option.isSome_iff_exists.1 (hrest.isDirAt_of_mem hmem)
      have hnext : next ∉ seen := hseen next hmem
      rw [List.map_cons, List.map_cons, List.nodup_cons, List.nodup_cons] at hnodup
      have hseen' : ∀ k ∈ rest.map Prod.fst, k ∉ next :: seen := by
        intro k hk hmem
        rcases List.mem_cons.1 hmem with rfl | hmem
        · exact hnodup.2.1 (hrest.1.symm ▸ hk)
        · exact hseen k (List.mem_cons_of_mem _ hk) hmem
      rw [listChunks_succ hchunk hnode, hnode', List.flatMap_cons, List.mapM_append]
      simp only [if_neg hnext, ih hrest hnode' hseen' (Nat.lt_of_succ_lt_succ hfuel)]

/-- The listing of a directory. -/
theorem ListsFrom.listDirectory_eq {chunks : List (Bytes × List NamedRelativeCapability)}
    (h : ListsFrom t dirCap.rBaseKey dirCap.mapKey chunks tail) (hne : chunks ≠ [])
    (hnet : net dirCap.writer = some t) (hfuel : chunks.length ≤ fuel) :
    listDirectory fuel net dirCap = (chunks.flatMap Prod.snd).mapM (·.toEntry dirCap) := by
  cases chunks with
  | nil => exact absurd rfl hne
  | cons c rest =>
      have hnodup := h.nodup_keys
      rw [List.map_cons, List.nodup_cons, h.1] at hnodup
      have hmem : dirCap.mapKey ∈ (c :: rest).map Prod.fst := List.mem_cons.2 (Or.inl h.1.symm)
      obtain ⟨node, hnode⟩ := Option.isSome_iff_exists.1 (h.isDirAt_of_mem hmem)
      obtain ⟨hfetch, hdir⟩ := Option.filter_eq_some_iff.1 hnode
      have hseen : ∀ k ∈ rest.map Prod.fst, k ∉ [dirCap.mapKey] :=
        fun k hk hmem => hnodup.1 (List.mem_singleton.1 hmem ▸ hk)
      rw [listDirectory, openWriterRoot, hnet, ← listChunks_eq h hnode hseen hfuel]
      simp only [ok_bind, hfetch, hdir, Bool.not_true, Bool.false_eq_true, if_false]

/-- The names of a listing are those of the links. -/
theorem names_of_mapM_toEntry {cap : AbsoluteCapability} {entries : List DirEntry}
    (h : links.mapM (·.toEntry cap) = .ok entries) :
    entries.map (·.name) = links.map (·.name) := by
  induction links generalizing entries with
  | nil =>
      cases h
      rfl
  | cons l links ih =>
      rw [List.mapM_cons] at h
      obtain ⟨e, he, h⟩ := bind_eq_ok.1 h
      obtain ⟨es, hes, h⟩ := bind_eq_ok.1 h
      cases h
      obtain ⟨target, -, he⟩ := bind_eq_ok.1 he
      cases he
      rw [List.map_cons, List.map_cons, ih hes]

/-! ## Directories refine maps -/

/-- The listing of a directory is a map: over all its chunks no name comes twice, the links are those
of the map, and no chunk has more than `maxLinks` of them. -/
def ListsMap (maxLinks : ℕ) (dirCap : AbsoluteCapability)
    (m : String → Option NamedRelativeCapability) (s : Spaces) : Prop :=
  ∃ t chunks tail, s.network dirCap.writer = some t ∧
    ListsFrom t dirCap.rBaseKey dirCap.mapKey chunks tail ∧
    (∀ c ∈ chunks, c.2.length ≤ maxLinks) ∧
    ((chunks.flatMap Prod.snd).map (·.name)).Nodup ∧
    (∀ name link, m name = some link ↔ link ∈ chunks.flatMap Prod.snd ∧ link.name = name) ∧
    ∀ fuel, chunks.length ≤ fuel → listDirectory fuel s.network dirCap =
      (chunks.flatMap Prod.snd).mapM (·.toEntry dirCap)

/-- Whatever changes to a directory succeed, its listing is the map after the same changes, and a
child that no change names keeps its link. -/
theorem directory_refines_map (hmax : 0 < maxLinks) {s s' : Spaces} {ops : List DirOp}
    (hnet : s.network dirCap.writer = some t) (hstart : HoldsDirectory maxLinks dirCap m t)
    (hrun : DirRun H maxLinks dirCap (fun s op => op.Drawn dirCap s ∧ op.Proper H dirCap s) s ops
      s') :
    ListsMap maxLinks dirCap (ops.foldl DirOp.apply m) s' ∧
      ∀ name, (∀ op ∈ ops, name ∉ op.names) → ops.foldl DirOp.apply m name = m name := by
  obtain ⟨t', hnet', chunks, tail, hlists, hne, hroom, hrep⟩ := hrun.holds hmax hnet hstart
  refine ⟨⟨t', chunks, tail, hnet', hlists, hroom, hrep.nodup, hrep.some_iff,
    fun fuel hfuel => hlists.listDirectory_eq hne hnet' hfuel⟩, fun name hname => ?_⟩
  exact DirOp.foldl_apply_of_not_mem hname

/-! ## An empty directory, and changes to it -/

/-- The writing space with the empty directory. -/
def rootSpaces : Spaces := fun w => (rootNetwork w).map fun t => ⟨t, none⟩

/-- A link to a location of the same writer. -/
def byteLink (name : String) (n : UInt8) : NamedRelativeCapability :=
  ⟨name, ⟨none, List.replicate 32 n, none, byteSymmetricKey 8, none⟩, some false, none, none⟩

/-- The node of an empty file. -/
def emptyFile : CryptreeBlock :=
  ⟨[], .build (byteSymmetricKey 8) ⟨byteSymmetricKey 9, none,
      .subsequentChunk (List.replicate 32 12) none (byteSymmetricKey 8)⟩,
    .build (byteSymmetricKey 8)
      ⟨none, ⟨"a", false, false, "", 0, false, 0, 0, none, none, none, legacyChunkSize⟩⟩,
    .build (byteSymmetricKey 9) (.data [])⟩

/-- A file is added with its node. -/
def addFile : DirOp := .add [] [(List.replicate 32 7, emptyFile)] [byteLink "a" 7]

/-- The state a change of the directory leaves. -/
def afterChange (op : DirOp) (s : Spaces) : Spaces :=
  (op.run legacyHasher 2 500 rootCap (some (byteSigner 2)) none s).2

theorem holdsDirectory_root : HoldsDirectory 500 rootCap (fun _ => none)
    (fun k => if k = List.replicate 32 3 then some rootBlock else none) := by
  refine ⟨[(List.replicate 32 3, [])], List.replicate 32 6, ?_, List.cons_ne_nil _ _, ?_, ?_⟩
  · refine ⟨rfl, List.replicate 32 6, ⟨_, _, rfl, rfl, rfl, rfl⟩, rfl, ?_⟩
    exact Bool.false_ne_true
  · intro c hc
    rw [List.mem_singleton.1 hc]
    exact Nat.zero_le _
  · exact ⟨List.nodup_nil, fun k a => iff_of_false (by simp) fun h => (nomatch h.1)⟩

theorem drawn_addFile : addFile.Drawn rootCap rootSpaces := by
  intro t ht
  obtain rfl : (fun k => if k = List.replicate 32 3 then some rootBlock else none) = t :=
    Option.some.inj ht
  refine ⟨List.nodup_singleton _, ?_, ?_⟩
  · intro k hk
    rw [List.mem_singleton.1 hk]
    rfl
  · intro k hk k' b hb
    rw [List.mem_singleton.1 hk]
    split at hb
    · cases hb
      decide +kernel
    · cases hb

theorem directory_refines_map_threeChanges :
    ListsMap 500 rootCap
      ([addFile, .rename "a" "b", .removeLink "c"].foldl DirOp.apply fun _ => none)
      (afterChange (.removeLink "c") (afterChange (.rename "a" "b") (afterChange addFile
        rootSpaces))) := by
  refine (directory_refines_map (s := rootSpaces) (H := legacyHasher) (by decide) rfl holdsDirectory_root ?_).1
  refine .step 2 (some (byteSigner 2)) none ⟨drawn_addFile, List.nodup_singleton _⟩ rfl ?_
  refine .step 2 (some (byteSigner 2)) none ⟨trivial, trivial⟩ (Prod.ext ?_ rfl) ?_
  · decide +kernel
  refine .step 2 (some (byteSigner 2)) none ⟨trivial, trivial⟩ (Prod.ext ?_ rfl) (.done _)
  decide +kernel

/-- Two links of one name in a batch: the directory lists both. -/
theorem batch_duplicates_name :
    HoldsDirectory 500 rootCap (fun _ => none)
        (fun k => if k = List.replicate 32 3 then some rootBlock else none) ∧
      ∃ s, DirRun legacyHasher 500 rootCap (fun s op => op.Drawn rootCap s) rootSpaces
          [.add [] [] [byteLink "a" 7, byteLink "a" 8]] s ∧
        ∃ entries, listDirectory 1 s.network rootCap = .ok entries ∧
          entries.map (·.name) = ["a", "a"] ∧
          ¬ListsMap 500 rootCap
            ([DirOp.add [] [] [byteLink "a" 7, byteLink "a" 8]].foldl DirOp.apply fun _ => none)
            s := by
  refine ⟨holdsDirectory_root, _, .step 2 (some (byteSigner 2)) none ?_ rfl (.done _), _, rfl, rfl,
    ?_⟩
  · intro t ht
    exact ⟨List.nodup_nil, fun k hk => absurd hk List.not_mem_nil,
      fun k hk => absurd hk List.not_mem_nil⟩
  · rintro ⟨t, chunks, tail, -, -, -, hnodup, -, hlisting⟩
    have hnames := names_of_mapM_toEntry (hlisting (chunks.length + 1) (Nat.le_succ _)).symm
    rw [← hnames] at hnodup
    exact absurd hnodup (by decide)

end Peergos
