import PeergosClient.Fs.DirectoryUpload

/-!
# Transaction records

The record of an upload is a file in the `.transactions` directory of the user's home directory.  It
is removed as any child of a directory is, after the file has been linked.  The removal looks at the
two directories and at the record, and changes nothing but the chunks of `.transactions` and those
of the record.
-/

namespace Peergos

open KeyedMap

/-- `TRANSACTIONS_DIR`. -/
def transactionsDirName : String := ".transactions"

/-- `transactions_dir`: the directory of the records, and the signer of the home directory. -/
def transactionsDir (fuel : ℕ) (net : Network) (homeCap : AbsoluteCapability) :
    Result (AbsoluteCapability × SigningPrivateKeyAndPublicHash) := do
  let signer ← recoverSigner net homeCap
  let entries ← listDirectory fuel net homeCap
  match entries.find? (·.name = transactionsDirName) with
  | some e => pure (e.cap, signer)
  | none => protocolErr "no .transactions directory"

/-- `close_transaction_record`. -/
def closeTransactionRecord (H : ContentHasher) (fuel : ℕ) (homeCap : AbsoluteCapability)
    (name : String) : Exec Spaces Fault Unit := do
  let found ← Exec.query fun s : Spaces => transactionsDir fuel s.network homeCap
  let entries ← Exec.query fun s : Spaces => listDirectory fuel s.network found.1
  if entries.any (·.name = name) then deleteChild H fuel found.1 name (some found.2) none
  else pure ()

variable {H : ContentHasher} {S : Bytes → Prop} {t t' : Tree} {rk : SymmetricKey}
  {key tail : Bytes} {chunks : List (Bytes × List NamedRelativeCapability)} {ds ds' : List DirChunk}
  {name : String} {fuel : ℕ} {net : Network}

/-! ## Operations that succeed -/

/-- The walk over a directory that is there. -/
theorem ListsFrom.exists_walk {u : String} {node : CryptreeNode}
    (h : ListsFrom t rk key chunks tail)
    (hnode : (fetchChunkNode t rk key).filter (·.isDirectory) = some node)
    (hfuel : chunks.length ≤ fuel) :
    ∃ ds, walkDirChunks u t rk fuel key node = .ok ds ∧ ∀ c ∈ ds, c.champValue = t c.mapKey := by
  induction chunks generalizing key node fuel with
  | nil =>
      refine absurd ?_ h.2
      rw [IsDirAt, hnode]
      rfl
  | cons c rest ih =>
      obtain ⟨-, next, ⟨node', base, hnode', hchildren, hbase, rfl⟩, hrest⟩ := h
      obtain rfl : node' = node := Option.some.inj (hnode'.symm.trans hnode)
      obtain ⟨fuel, rfl⟩ := Nat.exists_eq_add_of_le' (Nat.one_le_of_lt hfuel)
      have hnamed : decryptNamed u node'.childrenOrData rk = .ok c.2 := by
        rw [decryptNamed, hchildren]
        rfl
      unfold walkDirChunks
      rw [hnamed, ok_bind, hbase, ok_bind]
      dsimp only
      cases hnext : (fetchChunkNode t rk base.nextChunk.mapKey).filter (·.isDirectory) with
      | none => exact ⟨_, rfl, by simp⟩
      | some n =>
          obtain ⟨ds, hds, hvalues⟩ := ih hrest hnext (by simpa using hfuel)
          exact ⟨_, by simp only [hds, ok_bind]; rfl, by simpa using hvalues⟩

/-- A commit of chunks at different places, each over what is there. -/
theorem exists_foldlM_commitChunk (hnodup : (ds.map (·.mapKey)).Nodup)
    (hvalues : ∀ c ∈ ds, c.champValue = t c.mapKey) :
    ∃ t', ds.foldlM (commitChunk rk) t = .ok t' ∧ ∀ k ∉ ds.map (·.mapKey), t' k = t k := by
  induction ds generalizing t with
  | nil => exact ⟨t, rfl, fun _ _ => rfl⟩
  | cons c rest ih =>
      rw [List.map_cons, List.nodup_cons] at hnodup
      obtain ⟨t₁, hcommit, hframe⟩ : ∃ t₁, commitChunk rk t c = .ok t₁ ∧
          ∀ k, k ≠ c.mapKey → t₁ k = t k := by
        unfold commitChunk
        split
        · rw [hvalues c List.mem_cons_self, Tree.put_current]
          exact ⟨_, rfl, fun k hk => Function.update_of_ne hk _ _⟩
        · exact ⟨t, rfl, fun _ _ => rfl⟩
      have hkept : ∀ d ∈ rest, d.champValue = t₁ d.mapKey := fun d hd => by
        have hne : d.mapKey ≠ c.mapKey := fun heq => hnodup.1 (heq ▸ List.mem_map_of_mem hd)
        rw [hframe _ hne]
        exact hvalues d (List.mem_cons_of_mem _ hd)
      obtain ⟨t', hrest, hframe'⟩ := ih hnodup.2 hkept
      refine ⟨t', by rw [List.foldlM_cons, hcommit, ok_bind, hrest], fun k hk => ?_⟩
      rw [List.map_cons, List.mem_cons, not_or] at hk
      rw [hframe' k hk.2, hframe k hk.1]

/-- The link that is replaced, and the chunks in their places. -/
theorem replaceFirst_places {repl : NamedRelativeCapability → List NamedRelativeCapability}
    {link : NamedRelativeCapability} (h : replaceFirst name repl ds = some (link, ds')) :
    link.name = name ∧ link ∈ linksOf ds ∧
      ds'.map (fun c => (c.mapKey, c.champValue)) = ds.map fun c => (c.mapKey, c.champValue) := by
  induction ds generalizing ds' with
  | nil => cases h
  | cons c rest ih =>
      rw [linksOf, List.flatMap_cons, List.mem_append]
      unfold replaceFirst at h
      split at h
      · next l children hin =>
          cases h
          obtain ⟨hname, others, hperm, -⟩ := replaceIn_ok hin
          exact ⟨hname, Or.inl (hperm.mem_iff.2 List.mem_cons_self), rfl⟩
      · obtain ⟨⟨l, rest'⟩, hr, heq⟩ := Option.map_eq_some_iff.1 h
        cases heq
        obtain ⟨hname, hmem, hplaces⟩ := ih hr
        exact ⟨hname, Or.inr hmem, by rw [List.map_cons, List.map_cons, hplaces]⟩

/-- The removal of the chunks of a file. -/
theorem exists_removeFileChunks (H : ContentHasher) (secret mapKey : Bytes) (bat : Option Bat)
    (n i : ℕ) (t : Tree) :
    ∃ t', removeFileChunks H secret n t (chunkKey H secret mapKey i) (chunkBat H secret bat i) =
        .ok t' ∧ ∀ k, (∀ j < n, k ≠ chunkKey H secret mapKey (i + j)) → t' k = t k := by
  induction n generalizing i t with
  | zero => exact ⟨t, rfl, fun _ _ => rfl⟩
  | succ n ih =>
      have hfirst : ∀ k, (∀ j < n + 1, k ≠ chunkKey H secret mapKey (i + j)) →
          t.removeEntry (chunkKey H secret mapKey i) k = t k := fun k hk =>
        Function.update_of_ne (hk 0 (Nat.succ_pos n)) _ _
      cases n with
      | zero => exact ⟨_, rfl, hfirst⟩
      | succ n =>
          obtain ⟨t', hrun, hframe⟩ := ih (i + 1) (t.removeEntry (chunkKey H secret mapKey i))
          refine ⟨t', ?_, fun k hk => ?_⟩
          · unfold removeFileChunks
            rw [calculateNextMapKey_chunk, ok_bind]
            exact hrun
          · rw [hframe k fun j hj => ?_, hfirst k hk]
            rw [Nat.add_right_comm]
            exact hk (j + 1) (by omega)

/-! ## The home directory -/

/-- A block with the same keys, parent and properties. -/
def SameHead (b b' : CryptreeBlock) : Prop :=
  b'.fromBaseKey = b.fromBaseKey ∧ b'.fromParentKey = b.fromParentKey

/-- The signer in a node is in its base block. -/
theorem recoverSigner_congr {net' : Network} {cap : AbsoluteCapability}
    {b b' : CryptreeBlock} (hnet : net cap.writer = some t) (hnet' : net' cap.writer = some t')
    (hb : t cap.mapKey = some b) (hb' : t' cap.mapKey = some b') (hhead : SameHead b b') :
    recoverSigner net' cap = recoverSigner net cap := by
  obtain ⟨bats, fromBase, fromParent, children⟩ := b
  obtain ⟨bats', fromBase', fromParent', children'⟩ := b'
  obtain ⟨rfl, rfl⟩ : fromBase' = fromBase ∧ fromParent' = fromParent := hhead
  set node := CryptreeNode.fromCbor ⟨bats, fromBase', fromParent', children⟩ cap.rBaseKey with hnode
  set node' := CryptreeNode.fromCbor ⟨bats', fromBase', fromParent', children'⟩ cap.rBaseKey
    with hnode'
  have hprops : node'.getProperties cap.rBaseKey = node.getProperties cap.rBaseKey := rfl
  unfold recoverSigner
  cases cap.wBaseKey with
  | none => rfl
  | some wBaseKey =>
      simp only [retrieveFileMetadata, openWriterRoot, hnet, hnet', ok_bind, fetchChunkNode, hb, hb',
        Option.map_some, ← hnode, ← hnode', hprops]
      cases node.getProperties cap.rBaseKey <;> rfl

/-- The chunks at hand have the heads of the blocks they are going to replace. -/
def KeepsHeads (ds : List DirChunk) : Prop :=
  ∀ c ∈ ds, ∀ b, c.champValue = some b → SameHead b c.node.toCbor

theorem keepsHeads_walk {u : String} {node : CryptreeNode}
    (hnode : fetchChunkNode t rk key = some node)
    (h : walkDirChunks u t rk fuel key node = .ok ds) : KeepsHeads ds := by
  induction fuel generalizing key node ds with
  | zero => cases h
  | succ fuel ih =>
      unfold walkDirChunks at h
      obtain ⟨children, -, h⟩ := bind_eq_ok.1 h
      obtain ⟨base, -, h⟩ := bind_eq_ok.1 h
      have hhead : ∀ b, t key = some b → SameHead b node.toCbor := fun b hb => by
        rw [fetchChunkNode, hb] at hnode
        cases hnode
        exact ⟨rfl, rfl⟩
      dsimp only at h
      split at h
      · next next hnext =>
          obtain ⟨rest, hrest, h⟩ := bind_eq_ok.1 h
          cases h
          intro c hc
          rcases List.mem_cons.1 hc with rfl | hc
          · exact hhead
          · exact ih (Option.filter_eq_some_iff.1 hnext).1 hrest c hc
      · cases h
        intro c hc
        rw [List.mem_singleton.1 hc]
        exact hhead

theorem KeepsHeads.addToFirst {maxLinks : ℕ} {link : NamedRelativeCapability} (h : KeepsHeads ds)
    (hadd : addToFirst maxLinks link ds = some ds') : KeepsHeads ds' := by
  induction ds generalizing ds' with
  | nil => cases hadd
  | cons c rest ih =>
      have hc := h c List.mem_cons_self
      unfold Peergos.addToFirst at hadd
      split at hadd
      · cases hadd
        intro d hd
        rcases List.mem_cons.1 hd with rfl | hd
        · exact hc
        · exact h d (List.mem_cons_of_mem _ hd)
      · obtain ⟨rest', hrest, rfl⟩ := Option.map_eq_some_iff.1 hadd
        intro d hd
        rcases List.mem_cons.1 hd with rfl | hd
        · exact hc
        · exact ih (fun d hd => h d (List.mem_cons_of_mem _ hd)) hrest d hd

theorem KeepsHeads.addLinks {dirCap : AbsoluteCapability} {parentKey : SymmetricKey}
    {parentLink : Option RelativeCapability} {mirrorBat : Option BatId} {maxLinks : ℕ}
    {fresh : List (Bytes × Bat)} {links : List NamedRelativeCapability} (h : KeepsHeads ds)
    (hadd : addLinks dirCap parentKey parentLink mirrorBat maxLinks fresh ds links = .ok ds') :
    KeepsHeads ds' := by
  induction links generalizing fresh ds with
  | nil =>
      rw [Peergos.addLinks] at hadd
      cases hadd
      exact h
  | cons link links ih =>
      unfold Peergos.addLinks at hadd
      split at hadd
      · next ds₁ hfirst => exact ih (h.addToFirst hfirst) hadd
      · split at hadd
        · obtain ⟨chunk, hchunk, hadd⟩ := bind_eq_ok.1 hadd
          refine ih ?_ hadd
          -- a new chunk replaces nothing
          have hnew : chunk.champValue = none := by
            unfold overflowChunk at hchunk
            obtain ⟨bats, -, hchunk⟩ := bind_eq_ok.1 hchunk
            cases hchunk
            rfl
          intro c hc
          rcases List.mem_append.1 hc with hc | hc
          · exact h c hc
          · rw [List.mem_singleton.1 hc]
            intro b hb
            rw [hnew] at hb
            cases hb
        · cases hadd

/-- A commit of such chunks keeps the heads of all blocks. -/
theorem KeepsHeads.commit (h : KeepsHeads ds) (hrun : ds.foldlM (commitChunk rk) t = .ok t')
    {k : Bytes} {b : CryptreeBlock} (hb : t k = some b) : ∃ b', t' k = some b' ∧ SameHead b b' := by
  induction ds generalizing t b with
  | nil =>
      cases hrun
      exact ⟨b, hb, rfl, rfl⟩
  | cons c rest ih =>
      rw [List.foldlM_cons] at hrun
      obtain ⟨t₁, hcommit, hrun⟩ := bind_eq_ok.1 hrun
      obtain ⟨b₁, hb₁, hhead⟩ : ∃ b₁, t₁ k = some b₁ ∧ SameHead b b₁ := by
        unfold commitChunk at hcommit
        split at hcommit
        · rw [Tree.put_eq_ok hcommit]
          by_cases hk : k = c.mapKey
          · subst hk
            rw [Function.update_self]
            have hvalue : c.champValue = some b := by
              unfold Tree.put at hcommit
              rw [hb] at hcommit
              dsimp only at hcommit
              split at hcommit
              · next heq => exact heq
              · cases hcommit
            exact ⟨_, rfl, h c List.mem_cons_self b hvalue⟩
          · rw [Function.update_of_ne hk]
            exact ⟨b, hb, rfl, rfl⟩
        · cases hcommit
          exact ⟨b, hb, rfl, rfl⟩
      obtain ⟨b', hb', hhead'⟩ := ih (fun d hd => h d (List.mem_cons_of_mem _ hd)) hrun hb₁
      exact ⟨b', hb', hhead'.1.trans hhead.1, hhead'.2.trans hhead.2⟩

/-- New links leave the heads of all blocks. -/
theorem linkedChamp_head {maxLinks : ℕ} {fresh : List (Bytes × Bat)} {ctx : DirWriteContext}
    {dirCap : AbsoluteCapability} {links : List NamedRelativeCapability}
    (hnode : fetchChunkNode ctx.champ dirCap.rBaseKey dirCap.mapKey = some ctx.dirNode)
    (h : linkedChamp fuel maxLinks fresh ctx dirCap links = .ok t') {k : Bytes} {b : CryptreeBlock}
    (hb : ctx.champ k = some b) : ∃ b', t' k = some b' ∧ SameHead b b' := by
  unfold linkedChamp at h
  obtain ⟨ds, hds, h⟩ := bind_eq_ok.1 h
  obtain ⟨base, -, h⟩ := bind_eq_ok.1 h
  obtain ⟨parentLink, -, h⟩ := bind_eq_ok.1 h
  obtain ⟨ds', hadd, hcommit⟩ := bind_eq_ok.1 h
  rw [collectDirChunks_eq] at hds
  have hwalk := keepsHeads_walk hnode hds
  refine KeepsHeads.commit (KeepsHeads.addLinks (fun c hc => ?_) hadd) hcommit hb
  obtain ⟨d, hd, rfl⟩ := List.mem_map.1 hc
  exact hwalk d hd

theorem transactionsDir_mono {fuel' : ℕ} (hle : fuel ≤ fuel') {homeCap : AbsoluteCapability}
    {found : AbsoluteCapability × SigningPrivateKeyAndPublicHash}
    (h : transactionsDir fuel net homeCap = .ok found) :
    transactionsDir fuel' net homeCap = .ok found := by
  unfold transactionsDir at h ⊢
  obtain ⟨signer, hsigner, h⟩ := bind_eq_ok.1 h
  obtain ⟨entries, hentries, h⟩ := bind_eq_ok.1 h
  rw [hsigner, ok_bind, listDirectory_mono hle hentries, ok_bind]
  exact h

/-- The directory of the records is looked for in the chunks of the home directory. -/
theorem transactionsDir_congr {homeCap : AbsoluteCapability} {net' : Network}
    (h : ListsFrom t homeCap.rBaseKey homeCap.mapKey chunks tail)
    (hnet : net homeCap.writer = some t) (hnet' : net' homeCap.writer = some t')
    (heq : ∀ k ∈ chunks.map Prod.fst ++ [tail], t' k = t k) (fuel : ℕ) :
    transactionsDir fuel net' homeCap = transactionsDir fuel net homeCap := by
  have hfirst : t' homeCap.mapKey = t homeCap.mapKey := by
    refine heq _ ?_
    cases chunks with
    | nil => simp [h.1]
    | cons c rest => simp [h.1]
  have hsigner : recoverSigner net' homeCap = recoverSigner net homeCap := by
    unfold recoverSigner retrieveFileMetadata
    rw [openWriterRoot, openWriterRoot, hnet, hnet']
    simp only [ok_bind, fetchChunkNode, hfirst]
  unfold transactionsDir
  rw [hsigner, listDirectory_congr h hnet hnet' heq]

/-! ## A record -/

/-- The directory of the records and the file of one of them. -/
structure RecordFile where
  chunks : List (Bytes × List NamedRelativeCapability)
  tail : Bytes
  link : NamedRelativeCapability
  node : CryptreeNode
  props : FileProperties

/-- The links of the directory. -/
def RecordFile.links (r : RecordFile) : List NamedRelativeCapability := r.chunks.flatMap Prod.snd

/-- A record is stored: the directory `tdir` lists its file, and all that its removal looks at or
changes is in `S`. -/
structure RecordStored (H : ContentHasher) (S : Bytes → Prop) (tdir : AbsoluteCapability)
    (signer : SigningPrivateKeyAndPublicHash) (name : String) (t : Tree) (r : RecordFile) : Prop where
  lists : ListsFrom t tdir.rBaseKey tdir.mapKey r.chunks r.tail
  names : (r.links.map (·.name)).Nodup
  resolves : ∀ l ∈ r.links, ∃ e, l.toEntry tdir = .ok e
  listed : r.link ∈ r.links
  named : r.link.name = name
  space : r.link.cap.writer.getD tdir.writer = tdir.writer
  node : fetchChunkNode t r.link.cap.rBaseKey r.link.cap.mapKey = some r.node
  properties : r.node.getProperties r.link.cap.rBaseKey = .ok r.props
  plain : r.node.isDirectory = false ∧ r.props.isDirectory = false ∧ r.props.isLink = false
  signed : ∀ dirNode own, fetchChunkNode t tdir.rBaseKey tdir.mapKey = some dirNode →
    dirSigner tdir dirNode (some signer) = .ok own → own.publicKeyHash = tdir.writer
  apart : r.link.cap.mapKey ∉ r.chunks.map Prod.fst
  dirPlaces : ∀ k ∈ r.chunks.map Prod.fst ++ [r.tail], S k
  place : S r.link.cap.mapKey
  places : ∀ secret, r.props.streamSecret = some secret →
    ∀ i < chunkCount r.props.size r.props.chunkSize, S (chunkKey H secret r.link.cap.mapKey i)

namespace RecordStored

variable {tdir homeCap : AbsoluteCapability} {signer : SigningPrivateKeyAndPublicHash}
  {r : RecordFile}

theorem chunks_ne (h : RecordStored H S tdir signer name t r) : r.chunks ≠ [] := by
  intro hnil
  have := h.listed
  rw [RecordFile.links, hnil] at this
  cases this

theorem dirPlace (h : RecordStored H S tdir signer name t r) : S tdir.mapKey := by
  have hlists := h.lists
  have hplaces := h.dirPlaces
  cases hchunks : r.chunks with
  | nil => exact absurd hchunks h.chunks_ne
  | cons c rest =>
      rw [hchunks] at hlists hplaces
      exact hplaces _ (by simp [hlists.1])

/-- A change elsewhere leaves the record. -/
theorem congr (h : RecordStored H S tdir signer name t r) (heq : ∀ k, S k → t' k = t k) :
    RecordStored H S tdir signer name t' r := by
  have hfetch : ∀ rk k, S k → fetchChunkNode t' rk k = fetchChunkNode t rk k := fun rk k hk => by
    rw [fetchChunkNode, fetchChunkNode, heq k hk]
  have htail : S r.tail := h.dirPlaces _ (by simp)
  refine { h with lists := ?_, node := (hfetch _ _ h.place).trans h.node, signed := ?_ }
  · refine h.lists.congr (fun k hk => heq k (h.dirPlaces k (List.mem_append_left _ hk))) ?_
    rw [IsDirAt, hfetch _ _ htail]
    exact h.lists.not_isDirAt_tail
  · intro dirNode own hnode
    rw [hfetch _ _ h.dirPlace] at hnode
    exact h.signed dirNode own hnode

/-- The listing of the records. -/
theorem exists_listing (h : RecordStored H S tdir signer name t r)
    (hnet : net tdir.writer = some t) (hfuel : r.chunks.length ≤ fuel) :
    ∃ entries e, listDirectory fuel net tdir = .ok entries ∧ r.link.toEntry tdir = .ok e ∧
      entries.find? (·.name = name) = some e := by
  obtain ⟨entries, hentries⟩ := exists_mapM_toEntry h.resolves
  obtain ⟨e, he⟩ := h.resolves _ h.listed
  refine ⟨entries, e, (h.lists.listDirectory_eq h.chunks_ne hnet hfuel).trans hentries, he, ?_⟩
  rw [← h.named]
  exact find_of_mapM_toEntry hentries h.names h.listed he

/-- A write to the directory can be begun. -/
theorem exists_beginDirWrite (h : RecordStored H S tdir signer name t r)
    (hnet : net tdir.writer = some t) :
    ∃ ctx, beginDirWrite net tdir (some signer) none = .ok ctx ∧ ctx.champ = t ∧
      ctx.signer.publicKeyHash = tdir.writer := by
  obtain ⟨node, base, hnode, hbase⟩ : ∃ node base,
      (fetchChunkNode t tdir.rBaseKey tdir.mapKey).filter (·.isDirectory) = some node ∧
        node.baseBlock tdir.rBaseKey = .ok base := by
    have hlists := h.lists
    cases hchunks : r.chunks with
    | nil => exact absurd hchunks h.chunks_ne
    | cons c rest =>
        rw [hchunks] at hlists
        obtain ⟨-, next, ⟨node, base, hnode, -, hbase, -⟩, -⟩ := hlists
        exact ⟨node, base, hnode, hbase⟩
  obtain ⟨hfetch, hdir⟩ := Option.filter_eq_some_iff.1 hnode
  obtain ⟨own, hown⟩ : ∃ own, dirSigner tdir node (some signer) = .ok own := by
    unfold dirSigner
    cases tdir.wBaseKey.bind fun wb => (node.getSigner tdir.rBaseKey wb).toOption with
    | none => exact ⟨signer, rfl⟩
    | some own => exact ⟨own, rfl⟩
  refine ⟨⟨t, own, node, base.parentOrData, none⟩, ?_, rfl, h.signed node own hfetch hown⟩
  unfold beginDirWrite
  rw [openWriterRoot, hnet]
  simp only [ok_bind, hfetch, hdir, hown, hbase]
  rfl

/-- The nodes of the record are removed, once the directory has been committed without it. -/
theorem exists_removeAllChunks (h : RecordStored H S tdir signer name t r) {t₁ : Tree}
    (hkept : t₁ r.link.cap.mapKey = t r.link.cap.mapKey) :
    ∃ t', removeAllChunks H tdir (fuel + 1) t₁ r.link.cap.loc = .ok t' ∧
      ∀ k, ¬S k → t' k = t₁ k := by
  obtain ⟨e, he⟩ := h.resolves _ h.listed
  obtain ⟨hlen, -⟩ := toEntry_ok he
  have hnew : ∃ cap, AbsoluteCapability.new tdir.owner tdir.writer r.link.cap.loc.mapKey
      r.link.cap.loc.bat r.link.cap.loc.rBaseKey none = .ok cap := ⟨_, dif_pos hlen⟩
  obtain ⟨cap, hcap⟩ := hnew
  have hnode : fetchChunkNode t₁ r.link.cap.loc.rBaseKey r.link.cap.loc.mapKey = some r.node := by
    rw [← h.node, fetchChunkNode, fetchChunkNode]
    exact congrArg _ hkept
  unfold removeAllChunks
  rw [hcap, ok_bind, hnode]
  dsimp only
  rw [show r.node.getProperties r.link.cap.loc.rBaseKey = .ok r.props from h.properties, ok_bind,
    h.plain.1]
  simp only [Bool.not_false, if_true]
  cases hsecret : r.props.streamSecret with
  | none =>
      refine ⟨_, rfl, fun k hk => Function.update_of_ne ?_ _ _⟩
      rintro rfl
      exact hk h.place
  | some secret =>
      obtain ⟨t', hrun, hframe⟩ := exists_removeFileChunks H secret r.link.cap.mapKey
        r.link.cap.bat (chunkCount r.props.size r.props.chunkSize) 0 t₁
      refine ⟨t', hrun, fun k hk => hframe k fun j hj heq => hk ?_⟩
      rw [heq, Nat.zero_add]
      exact h.places secret hsecret j hj

/-- The link and the nodes of the record are removed, and nothing else. -/
theorem unlinkAndRemove_run (h : RecordStored H S tdir signer name t r)
    (hnet : net tdir.writer = some t) (hfuel : r.chunks.length ≤ fuel) :
    ∃ t', unlinkAndRemove H fuel tdir name (some signer) none net =
        (.ok (), Function.update net tdir.writer (some t')) ∧ ∀ k, ¬S k → t' k = t k := by
  obtain ⟨ctx, hctx, rfl, hsigner⟩ := h.exists_beginDirWrite hnet
  obtain ⟨ds, hds, hvalues⟩ :=
    h.lists.exists_walk (u := "legacy directory format not supported for deletes")
      (beginDirWrite_dirNode hctx) hfuel
  obtain ⟨hcontents, -, -⟩ := h.lists.walk (beginDirWrite_dirNode hctx) hds
  have hlinks : linksOf ds = r.links := by rw [← linksOf_eq, hcontents, RecordFile.links]
  have hkeys : ds.map (·.mapKey) = r.chunks.map Prod.fst := by rw [← keys_eq, hcontents]
  -- the first link of the name is that of the record
  cases hreplace : replaceFirst name (fun _ => []) ds with
  | none =>
      refine absurd ?_ (replaceFirst_eq_none hreplace)
      rw [hlinks, ← h.named]
      exact List.mem_map_of_mem h.listed
  | some found =>
      obtain ⟨hname, hmem, hplaces⟩ := replaceFirst_places hreplace
      have hlink : found.1 = r.link := List.inj_on_of_nodup_map h.names (hlinks ▸ hmem) h.listed
        (hname.trans h.named.symm)
      have hkeys' : found.2.map (·.mapKey) = r.chunks.map Prod.fst := by
        have := congrArg (List.map Prod.fst) hplaces
        rw [List.map_map, List.map_map] at this
        exact this.trans hkeys
      have hvalues' : ∀ c ∈ found.2, c.champValue = ctx.champ c.mapKey := fun c hc => by
        have hc' : (c.mapKey, c.champValue) ∈ ds.map fun c => (c.mapKey, c.champValue) :=
          hplaces ▸ List.mem_map_of_mem hc
        obtain ⟨d, hd, heq⟩ := List.mem_map.1 hc'
        obtain ⟨hkey, hvalue⟩ := Prod.mk.inj heq
        rw [← hkey, ← hvalue]
        exact hvalues d hd
      obtain ⟨t₁, hcommit, hframe⟩ : ∃ t₁, found.2.foldlM (commitChunk tdir.rBaseKey) ctx.champ =
          .ok t₁ ∧ ∀ k ∉ found.2.map (·.mapKey), t₁ k = ctx.champ k :=
        exists_foldlM_commitChunk (hkeys' ▸ h.lists.nodup_keys) hvalues'
      obtain ⟨fuel, rfl⟩ := Nat.exists_eq_add_of_le' (show 1 ≤ fuel from
        (List.length_pos_iff.2 h.chunks_ne).trans_le hfuel)
      obtain ⟨t', hremove, hframe'⟩ : ∃ t', removeAllChunks H tdir (fuel + 1) t₁ r.link.cap.loc =
          .ok t' ∧ ∀ k, ¬S k → t' k = t₁ k :=
        h.exists_removeAllChunks (hframe _ (hkeys' ▸ h.apart))
      refine ⟨t', ?_, fun k hk => ?_⟩
      · unfold unlinkAndRemove
        rw [Exec.bind_of_ok (by rw [Exec.query_run, hctx]),
          Exec.bind_of_ok (by rw [Exec.lift_run, hds]), hreplace]
        dsimp only
        rw [Exec.bind_of_ok (by rw [Exec.lift_run, hcommit]), hlink,
          Exec.bind_of_ok (by rw [Exec.lift_run, hremove]), commitTree, if_pos hsigner]
      · rw [hframe' k hk, hframe k fun hmem => hk ?_]
        exact h.dirPlaces k (List.mem_append_left _ (hkeys' ▸ hmem))

/-- The record is a file: there are no writing spaces below it. -/
theorem deleteChild_run (h : RecordStored H S tdir signer name t r) {s : Spaces}
    (hnet : s.network tdir.writer = some t) (hfuel : r.chunks.length ≤ fuel) :
    ∃ s' t', deleteChild H fuel tdir name (some signer) none s = (.ok (), s') ∧
      s'.network = Function.update s.network tdir.writer (some t') ∧ ∀ k, ¬S k → t' k = t k := by
  obtain ⟨entries, e, hentries, he, hfind⟩ := h.exists_listing hnet hfuel
  obtain ⟨t', hunlink, hframe⟩ := h.unlinkAndRemove_run hnet hfuel
  have htargets : collectOwnWriterTargets s.network fuel e.cap true = .ok ([], []) := by
    obtain ⟨fuel, rfl⟩ := Nat.exists_eq_add_of_le' (show 1 ≤ fuel from
      (List.length_pos_iff.2 h.chunks_ne).trans_le hfuel)
    have hmeta : retrieveFileMetadata s.network e.cap = .ok (r.node, r.props) := by
      obtain ⟨-, -, hwriter, hkey, -, hbase⟩ := toEntry_ok he
      unfold retrieveFileMetadata
      rw [hwriter, h.space, hkey, hbase, openWriterRoot, hnet]
      simp only [ok_bind, h.node, h.properties]
      rfl
    unfold collectOwnWriterTargets
    rw [hmeta, ok_bind]
    simp only [h.plain.2.1, h.plain.2.2]
    rfl
  refine ⟨Spaces.withNetwork (Function.update s.network tdir.writer (some t')) s, t', ?_,
    network_withNetwork _ _, hframe⟩
  unfold deleteChild
  rw [Exec.bind_of_ok (by rw [Exec.query_run, hentries]),
    Exec.bind_of_ok (a := ([], [])) (by rw [Exec.query_run, hfind]; exact congrArg (·, s) htargets)]
  exact Exec.bind_of_ok (onTrees_of_ok hunlink)

/-- **The record is closed**, and the writing space is as before outside `S`. -/
theorem close_run (h : RecordStored H S tdir signer name t r) {s : Spaces}
    (hfound : transactionsDir fuel s.network homeCap = .ok (tdir, signer))
    (hnet : s.network tdir.writer = some t) (hfuel : r.chunks.length ≤ fuel) :
    ∃ s' t', closeTransactionRecord H fuel homeCap name s = (.ok (), s') ∧
      s'.network = Function.update s.network tdir.writer (some t') ∧ ∀ k, ¬S k → t' k = t k := by
  obtain ⟨entries, e, hentries, -, hfind⟩ := h.exists_listing hnet hfuel
  have hany : (entries.any (·.name = name)) = true := by
    rw [List.any_eq_true]
    exact ⟨e, List.mem_of_find?_eq_some hfind, by simpa using List.find?_some hfind⟩
  obtain ⟨s', t', hrun, hrest⟩ := h.deleteChild_run hnet hfuel
  refine ⟨s', t', ?_, hrest⟩
  unfold closeTransactionRecord
  rw [Exec.bind_of_ok (by rw [Exec.query_run, hfound]),
    Exec.bind_of_ok (by rw [Exec.query_run, hentries]), if_pos hany]
  exact hrun

end RecordStored

end Peergos
