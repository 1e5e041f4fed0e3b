import PeergosClient.Fs.DirectoryMap

/-!
# Uploads and other directories

An upload changes the directory it goes into and nothing else: the link of the new file is put in
place of any other of its name, and a directory whose chunks nothing else leads to is listed as
before.
-/

namespace Peergos

open KeyedMap Chunks

variable {t t' : Tree} {rk : SymmetricKey} {key tail : Bytes}
  {chunks : List (Bytes × List NamedRelativeCapability)} {cap : AbsoluteCapability}
  {net net' : Network} {fuel : ℕ}

/-! ## Listing -/

/-- More fuel lists the same. -/
theorem listChunks_mono {fuel' : ℕ} (hle : fuel ≤ fuel') {seen : List Bytes} {node : CryptreeNode}
    {entries : List DirEntry} (h : listChunks t cap fuel seen node = .ok entries) :
    listChunks t cap fuel' seen node = .ok entries := by
  induction fuel generalizing fuel' seen node entries with
  | zero => cases h
  | succ fuel ih =>
      obtain ⟨fuel', rfl⟩ := Nat.exists_eq_add_of_le' (Nat.one_le_iff_ne_zero.2 (by omega : fuel' ≠ 0))
      unfold listChunks at h ⊢
      obtain ⟨here, hhere, h⟩ := bind_eq_ok.1 h
      obtain ⟨base, hbase, h⟩ := bind_eq_ok.1 h
      rw [hhere, hbase]
      simp only [ok_bind]
      dsimp only at h
      by_cases hseen : base.nextChunk.mapKey ∈ seen
      · rwa [if_pos hseen] at h ⊢
      · rw [if_neg hseen] at h ⊢
        split at h
        · next next hnext =>
            obtain ⟨rest, hrest, h⟩ := bind_eq_ok.1 h
            rw [ih (by omega) hrest]
            exact h
        · exact h

theorem listDirectory_mono {fuel' : ℕ} (hle : fuel ≤ fuel') {entries : List DirEntry}
    (h : listDirectory fuel net cap = .ok entries) : listDirectory fuel' net cap = .ok entries := by
  unfold listDirectory at h ⊢
  obtain ⟨root, hroot, h⟩ := bind_eq_ok.1 h
  rw [hroot]
  simp only [ok_bind]
  split at h
  · cases h
  · split at h
    · cases h
    · next hdir =>
        rw [if_neg hdir]
        exact listChunks_mono hle h

/-- The walk over a directory reads its own chunks and the place after the last. -/
theorem listChunks_congr (h : ListsFrom t cap.rBaseKey key chunks tail)
    (heq : ∀ k ∈ chunks.map Prod.fst ++ [tail], t' k = t k) {seen : List Bytes} {node : CryptreeNode}
    (hnode : (fetchChunkNode t cap.rBaseKey key).filter (·.isDirectory) = some node) :
    listChunks t' cap fuel seen node = listChunks t cap fuel seen node := by
  induction fuel generalizing key chunks seen node with
  | zero => rfl
  | succ fuel ih =>
      cases chunks with
      | nil =>
          refine absurd ?_ h.2
          rw [IsDirAt, hnode]
          rfl
      | cons c rest =>
          obtain ⟨hkey, next, hchunk, hrest⟩ := h
          have hhere : t' key = t key := heq key (by simp [hkey])
          have hnext : t' next = t next := by
            refine heq next ?_
            cases rest with
            | nil => simp [hrest.1]
            | cons c' rest => simp [hrest.1]
          have hnode' : (fetchChunkNode t' cap.rBaseKey key).filter (·.isDirectory) = some node := by
            rw [← hnode, fetchChunkNode, fetchChunkNode, hhere]
          have hfetch : fetchChunkNode t' cap.rBaseKey next = fetchChunkNode t cap.rBaseKey next := by
            rw [fetchChunkNode, fetchChunkNode, hnext]
          rw [listChunks_succ hchunk hnode, listChunks_succ (hchunk.congr hhere) hnode', hfetch]
          cases hnn : (fetchChunkNode t cap.rBaseKey next).filter (·.isDirectory) with
          | none => rfl
          | some n =>
              have hsame : ∀ seen, listChunks t' cap fuel seen n = listChunks t cap fuel seen n :=
                fun seen => ih hrest (fun k hk => heq k (List.mem_cons_of_mem _ hk)) hnn
              simp only [hsame]

/-- A directory whose chunks are as they were is listed as it was. -/
theorem listDirectory_congr (h : ListsFrom t cap.rBaseKey cap.mapKey chunks tail)
    (hnet : net cap.writer = some t) (hnet' : net' cap.writer = some t')
    (heq : ∀ k ∈ chunks.map Prod.fst ++ [tail], t' k = t k) (fuel : ℕ) :
    listDirectory fuel net' cap = listDirectory fuel net cap := by
  have hfirst : cap.mapKey ∈ chunks.map Prod.fst ++ [tail] := by
    cases chunks with
    | nil => simp [h.1]
    | cons c rest => simp [h.1]
  have hfetch : fetchChunkNode t' cap.rBaseKey cap.mapKey =
      fetchChunkNode t cap.rBaseKey cap.mapKey := by
    rw [fetchChunkNode, fetchChunkNode, heq _ hfirst]
  simp only [listDirectory, openWriterRoot, hnet, hnet', ok_bind, hfetch]
  cases hnode : fetchChunkNode t cap.rBaseKey cap.mapKey with
  | none => rfl
  | some node =>
      cases hdir : node.isDirectory with
      | false => simp [hdir]
      | true =>
          simp only [hdir, Bool.not_true, Bool.false_eq_true, if_false]
          exact listChunks_congr h heq (Option.filter_eq_some_iff.2 ⟨hnode, hdir⟩)

/-- The entry of a link, in a listing of links with different names. -/
theorem find_of_mapM_toEntry {links : List NamedRelativeCapability} {entries : List DirEntry}
    (h : links.mapM (·.toEntry cap) = .ok entries) (hnodup : (links.map (·.name)).Nodup)
    {link : NamedRelativeCapability} (hlink : link ∈ links) {e : DirEntry}
    (he : link.toEntry cap = .ok e) : entries.find? (·.name = link.name) = some e := by
  induction links generalizing entries with
  | nil => cases hlink
  | cons l links ih =>
      rw [List.mapM_cons] at h
      obtain ⟨e', he', h⟩ := bind_eq_ok.1 h
      obtain ⟨es, hes, h⟩ := bind_eq_ok.1 h
      cases h
      have hname : e'.name = l.name := by
        obtain ⟨target, -, htarget⟩ := bind_eq_ok.1 he'
        cases htarget
        rfl
      rw [List.map_cons, List.nodup_cons] at hnodup
      rcases List.mem_cons.1 hlink with rfl | hlink
      · rw [he] at he'
        cases he'
        rw [List.find?_cons_of_pos (by simp [hname])]
      · have hne : l.name ≠ link.name := fun heq => hnodup.1 (heq ▸ List.mem_map_of_mem hlink)
        rw [List.find?_cons_of_neg (by simp [hname, hne])]
        exact ih hes hnodup.2 hlink

/-- Links that can each be resolved can be listed. -/
theorem exists_mapM_toEntry {links : List NamedRelativeCapability}
    (h : ∀ link ∈ links, ∃ e, link.toEntry cap = .ok e) :
    ∃ entries, links.mapM (·.toEntry cap) = .ok entries := by
  induction links with
  | nil => exact ⟨[], rfl⟩
  | cons l links ih =>
      obtain ⟨e, he⟩ := h l List.mem_cons_self
      obtain ⟨es, hes⟩ := ih fun link hlink => h link (List.mem_cons_of_mem _ hlink)
      exact ⟨e :: es, by rw [List.mapM_cons, he, ok_bind, hes]; rfl⟩

theorem toEntry_of_mapM {links : List NamedRelativeCapability} {entries : List DirEntry}
    (h : links.mapM (·.toEntry cap) = .ok entries) :
    ∀ link ∈ links, ∃ e, link.toEntry cap = .ok e := by
  induction links generalizing entries with
  | nil => exact fun link hlink => absurd hlink List.not_mem_nil
  | cons l links ih =>
      rw [List.mapM_cons] at h
      obtain ⟨e, he, h⟩ := bind_eq_ok.1 h
      obtain ⟨es, hes, -⟩ := bind_eq_ok.1 h
      intro link hlink
      rcases List.mem_cons.1 hlink with rfl | hlink
      · exact ⟨e, he⟩
      · exact ih hes link hlink

/-- The entry of a link leads where the link leads. -/
theorem toEntry_ok {cap : AbsoluteCapability} {link : NamedRelativeCapability} {e : DirEntry}
    (h : link.toEntry cap = .ok e) :
    link.cap.mapKey.length = 32 ∧ e.name = link.name ∧
      e.cap.writer = link.cap.writer.getD cap.writer ∧ e.cap.mapKey = link.cap.mapKey ∧
      e.cap.bat = link.cap.bat ∧ e.cap.rBaseKey = link.cap.rBaseKey := by
  obtain ⟨target, htarget, h⟩ := bind_eq_ok.1 h
  cases h
  have hnew : ∃ wBaseKey, AbsoluteCapability.new cap.owner (link.cap.writer.getD cap.writer)
      link.cap.mapKey link.cap.bat link.cap.rBaseKey wBaseKey = .ok target := by
    unfold RelativeCapability.toAbsolute at htarget
    split at htarget
    · obtain ⟨wBaseKey, -, hnew⟩ := bind_eq_ok.1 htarget
      exact ⟨wBaseKey, hnew⟩
    · exact ⟨none, htarget⟩
  obtain ⟨wBaseKey, hnew⟩ := hnew
  unfold AbsoluteCapability.new at hnew
  split at hnew
  · next hlen =>
      cases hnew
      exact ⟨hlen, rfl, rfl, rfl, rfl, rfl⟩
  · cases hnew

/-- The entry of the link an upload adds. -/
theorem exists_toEntry_fileChildLink (d : AbsoluteCapability) (name mime : String) (epoch : ℤ)
    {keys : FileKeys} (wBaseKey : SymmetricKey) (hlen : keys.mapKey.length = 32) :
    ∃ c, (fileChildLink d name mime epoch keys wBaseKey).toEntry d =
        .ok ⟨name, some false, some mime, c⟩ ∧
      c.writer = d.writer ∧ c.mapKey = keys.mapKey ∧ c.bat = keys.bat ∧
      c.rBaseKey = keys.rBaseKey := by
  unfold NamedRelativeCapability.toEntry RelativeCapability.toAbsolute fileChildLink
  cases hkey : d.wBaseKey with
  | none =>
      refine ⟨⟨d.owner, d.writer, keys.mapKey, keys.bat, keys.rBaseKey, none, hlen⟩, ?_, rfl, rfl,
        rfl, rfl⟩
      simp [AbsoluteCapability.new, hlen, bind, Except.bind, pure, Except.pure]
  | some key =>
      refine ⟨⟨d.owner, d.writer, keys.mapKey, keys.bat, keys.rBaseKey, some wBaseKey, hlen⟩, ?_,
        rfl, rfl, rfl, rfl⟩
      simp [AbsoluteCapability.new, hlen, Except.map, bind, Except.bind, pure, Except.pure]

/-- Reading does not look at who may write. -/
theorem readFile_congr (H : ContentHasher) {c c' : AbsoluteCapability} (hwriter : c.writer = c'.writer)
    (hkey : c.mapKey = c'.mapKey) (hbat : c.bat = c'.bat) (hrbase : c.rBaseKey = c'.rBaseKey)
    (fuel : ℕ) (net : Network) : readFile H fuel net c = readFile H fuel net c' := by
  unfold readFile
  rw [hwriter, hkey, hbat, hrbase]

/-- The links of a directory that can be listed. -/
theorem HoldsDirectory.resolves {maxLinks : ℕ} {d : AbsoluteCapability}
    {m : String → Option NamedRelativeCapability} (h : HoldsDirectory maxLinks d m t)
    (hnet : net d.writer = some t) {entries : List DirEntry}
    (hentries : listDirectory fuel net d = .ok entries) {name : String}
    {link : NamedRelativeCapability} (hlink : m name = some link) :
    ∃ e, link.toEntry d = .ok e := by
  obtain ⟨chunks, tail, hlists, hne, -, hrep⟩ := h
  have hlist := listDirectory_mono (le_max_left fuel chunks.length) hentries
  rw [hlists.listDirectory_eq hne hnet (le_max_right _ _)] at hlist
  exact toEntry_of_mapM hlist link ((hrep.some_iff name link).1 hlink).1

/-- A directory whose links can all be resolved can be listed, and each link is found by its
name. -/
theorem HoldsDirectory.exists_listing {maxLinks : ℕ} {d : AbsoluteCapability}
    {m : String → Option NamedRelativeCapability} (h : HoldsDirectory maxLinks d m t)
    (hnet : net d.writer = some t)
    (hresolves : ∀ name link, m name = some link → ∃ e, link.toEntry d = .ok e) :
    ∃ n entries, (∀ fuel, n ≤ fuel → listDirectory fuel net d = .ok entries) ∧
      ∀ name link e, m name = some link → link.toEntry d = .ok e →
        entries.find? (·.name = name) = some e := by
  obtain ⟨chunks, tail, hlists, hne, -, hrep⟩ := h
  obtain ⟨entries, hentries⟩ : ∃ entries, (chunks.flatMap Prod.snd).mapM (·.toEntry d) =
      .ok entries := exists_mapM_toEntry fun link hlink =>
    hresolves link.name link ((hrep.some_iff link.name link).2 ⟨hlink, rfl⟩)
  refine ⟨chunks.length, entries, fun fuel hfuel => ?_, fun name link e hlink he => ?_⟩
  · rw [hlists.listDirectory_eq hne hnet hfuel, hentries]
  · obtain ⟨hmem, rfl⟩ := (hrep.some_iff name link).1 hlink
    exact find_of_mapM_toEntry hentries hrep.nodup hmem he

theorem exists_link_of_mem {links : List NamedRelativeCapability} {entries : List DirEntry}
    (h : links.mapM (·.toEntry cap) = .ok entries) {e : DirEntry} (he : e ∈ entries) :
    ∃ link ∈ links, link.toEntry cap = .ok e := by
  induction links generalizing entries with
  | nil =>
      cases h
      cases he
  | cons l links ih =>
      rw [List.mapM_cons] at h
      obtain ⟨e', he', h⟩ := bind_eq_ok.1 h
      obtain ⟨es, hes, h⟩ := bind_eq_ok.1 h
      cases h
      rcases List.mem_cons.1 he with rfl | he
      · exact ⟨l, List.mem_cons_self, he'⟩
      · obtain ⟨link, hlink, heq⟩ := ih hes he
        exact ⟨link, List.mem_cons_of_mem _ hlink, heq⟩

/-- A name that is found in a listing is that of a link. -/
theorem HoldsDirectory.link_of_find {maxLinks : ℕ} {d : AbsoluteCapability}
    {m : String → Option NamedRelativeCapability} (h : HoldsDirectory maxLinks d m t)
    (hnet : net d.writer = some t) {entries : List DirEntry}
    (hentries : listDirectory fuel net d = .ok entries) {name : String} {e : DirEntry}
    (hfind : entries.find? (·.name = name) = some e) :
    ∃ link, m name = some link ∧ link.toEntry d = .ok e := by
  obtain ⟨chunks, tail, hlists, hne, -, hrep⟩ := h
  have hlist := listDirectory_mono (le_max_left fuel chunks.length) hentries
  rw [hlists.listDirectory_eq hne hnet (le_max_right _ _)] at hlist
  obtain ⟨link, hmem, he⟩ := exists_link_of_mem hlist (List.mem_of_find?_eq_some hfind)
  have hname : e.name = name := by simpa using List.find?_some hfind
  exact ⟨link, (hrep.some_iff name link).2 ⟨hmem, (toEntry_ok he).2.1.symm.trans hname⟩, he⟩

/-- A directory with a new file can be listed, and each link is found by its name. -/
theorem HoldsDirectory.exists_listing_insert {maxLinks : ℕ} {d : AbsoluteCapability}
    {m : String → Option NamedRelativeCapability} {name mime : String} {epoch : ℤ} {keys : FileKeys}
    {wBaseKey : SymmetricKey} {entries : List DirEntry} (hholds : HoldsDirectory maxLinks d m t)
    (hnet : net d.writer = some t)
    (hentries : listDirectory fuel net d = .ok entries) (hlen : keys.mapKey.length = 32)
    (hnet' : net' d.writer = some t') (hholds' : HoldsDirectory maxLinks d
      (insertAll (·.name) m [fileChildLink d name mime epoch keys wBaseKey]) t') :
    ∃ n entries', (∀ fuel, n ≤ fuel → listDirectory fuel net' d = .ok entries') ∧
      (∃ e, entries'.find? (·.name = name) = some e ∧ e.cap.writer = d.writer ∧
        e.cap.mapKey = keys.mapKey ∧ e.cap.bat = keys.bat ∧ e.cap.rBaseKey = keys.rBaseKey) ∧
      ∀ name', name' ≠ name → ∀ link e, m name' = some link → link.toEntry d = .ok e →
        entries'.find? (·.name = name') = some e := by
  set new := fileChildLink d name mime epoch keys wBaseKey with hnew
  obtain ⟨c, hc, hcap⟩ := exists_toEntry_fileChildLink d name mime epoch wBaseKey hlen
  have hinsert : insertAll (·.name) m [new] name = some new :=
    insertAll_of_mem (by exact List.nodup_singleton _) (List.mem_singleton_self new)
  have hother : ∀ name', name' ≠ name → insertAll (·.name) m [new] name' = m name' :=
    fun name' hne => insertAll_of_not_mem (by simpa [hnew, fileChildLink] using hne)
  -- every link is the new one or an old one
  obtain ⟨n, entries', hlist, hfind⟩ := hholds'.exists_listing hnet' fun name' link hlink => by
    by_cases hname : name' = name
    · rw [hname, hinsert] at hlink
      obtain rfl := Option.some.inj hlink
      exact ⟨_, hc⟩
    · rw [hother name' hname] at hlink
      exact hholds.resolves hnet hentries hlink
  exact ⟨n, entries', hlist, ⟨_, hfind name new _ hinsert hc, hcap⟩,
    fun name' hne link e hlink => hfind name' link e ((hother name' hne).trans hlink)⟩

/-! ## Changes elsewhere -/

/-- The chunks of a directory keep out of places that nothing else leads to. -/
theorem ListsFrom.outside {S : Bytes → Prop} (h : ListsFrom t rk key chunks tail) (hS : Apart S t)
    (hkey : ¬S key) : ∀ k ∈ chunks.map Prod.fst ++ [tail], ¬S k := by
  induction chunks generalizing key with
  | nil =>
      intro k hk
      rwa [List.mem_singleton.1 hk, ← h.1]
  | cons c rest ih =>
      obtain ⟨hc, next, ⟨node, base, hnode, -, hbase, rfl⟩, hrest⟩ := h
      intro k hk
      rcases List.mem_cons.1 hk with rfl | hk
      · rwa [hc]
      · exact ih hrest (hS.next hkey (Option.filter_eq_some_iff.1 hnode).1 hbase) k hk

/-- A directory that links have been added to, on any tree that differs from it at places the
directory does not lead to. -/
theorem HoldsDirectory.of_linked {S : Bytes → Prop} {maxLinks : ℕ} {dirCap : AbsoluteCapability}
    {m : String → Option NamedRelativeCapability} {fresh : List (Bytes × Bat)}
    {ctx : DirWriteContext} {links : List NamedRelativeCapability} {t₁ : Tree}
    (h : HoldsDirectory maxLinks dirCap m ctx.champ) (hmax : 0 < maxLinks)
    (hnode : (fetchChunkNode ctx.champ dirCap.rBaseKey dirCap.mapKey).filter (·.isDirectory) =
      some ctx.dirNode)
    (hnames : (links.map (·.name)).Nodup) (hfresh : DrawnFresh ctx.champ (fresh.map Prod.fst))
    (hS : Apart S ctx.champ) (hdir : ¬S dirCap.mapKey) (hSfresh : ∀ e ∈ fresh, ¬S e.1)
    (hlinked : linkedChamp fuel maxLinks fresh ctx dirCap links = .ok t')
    (hframe : ∀ k, ¬S k → t₁ k = t' k) :
    HoldsDirectory maxLinks dirCap (insertAll (·.name) m links) t₁ := by
  obtain ⟨chunks, tail, hlists, hne, hroom, hrep⟩ := h
  have hout := hlists.outside hS hdir
  obtain ⟨k, b, hb, hled⟩ := hlists.tail_led hne
  -- the same links are added where the other tree differs
  have hsame : linkedChamp fuel maxLinks fresh
      { ctx with champ := Tree.overlay S t₁ ctx.champ } dirCap links = .ok t₁ := by
    rw [linkedChamp_overlay hS hdir (Option.filter_eq_some_iff.1 hnode).1 hSfresh, hlinked]
    exact congrArg Except.ok (Tree.eq_overlay hframe).symm
  have hlists' : ListsFrom (Tree.overlay S t₁ ctx.champ) dirCap.rBaseKey dirCap.mapKey chunks
      tail := by
    refine hlists.congr (fun k hk => ?_) ?_
    · exact Tree.overlay_of_not_mem (hout k (List.mem_append_left _ hk))
    · rw [IsDirAt, fetchChunkNode_overlay (hout tail (by simp))]
      exact hlists.not_isDirAt_tail
  refine linkedChamp_ok hmax ⟨chunks, tail, hlists', hne, hroom, hrep⟩ ?_ hnames hfresh.nodup ?_ ?_
    hsame
  · rw [← hnode]
    exact congrArg _ (fetchChunkNode_overlay hdir _)
  · intro k hk
    obtain ⟨e, he, rfl⟩ := List.mem_map.1 hk
    exact (Tree.overlay_of_not_mem (hSfresh e he)).trans (hfresh.absent _ hk)
  · intro chunks' tail' hlists''
    obtain ⟨-, rfl⟩ := hlists''.unique hlists'
    exact fun hmem => hfresh.unled _ hmem k b hb hled

/-! ## The upload -/

section Upload

variable {H : ContentHasher} {limit : ℕ} {media : Media} {dir : DirParams} {r : UploadRequest}
  {reader : Bytes} {m : String → Option NamedRelativeCapability}

/-- The commit an upload ends with: the champ differs in the locations of the new file. -/
theorem uploadFileStreamingInner_commit (hc : 0 < r.chunkSize)
    (hnew : ∀ t, net r.dirCap.writer = some t → NewKeys H limit r.keys dir.fresh t)
    (hlimit : chunkCount r.size r.chunkSize ≤ limit)
    (hrun : uploadFileStreamingInner H media dir r reader net = (.ok cap, net')) :
    ∃ ctx u mime, beginDirWrite net r.dirCap r.entrySigner r.mirrorBat = .ok ctx ∧
      (∀ k, ¬(r.handle cap hc).Location H limit k → u k = ctx.champ k) ∧
      finishDirWriteMulti dir.fuel dir.maxLinks dir.fresh { ctx with champ := u } r.dirCap
        [fileChildLink r.dirCap r.name mime r.epoch r.keys r.wBaseKey] net = (.ok (), net') := by
  unfold uploadFileStreamingInner at hrun
  obtain ⟨fileCap, hcap, hrun⟩ := Exec.lift_bind_eq_ok hrun
  obtain ⟨chunks, hchunks, hrun⟩ := Exec.lift_bind_eq_ok hrun
  obtain ⟨tree, htree, hrun⟩ := Exec.lift_bind_eq_ok hrun
  obtain ⟨ctx, hctx, hrun⟩ := Exec.query_bind_eq_ok hrun
  obtain ⟨ctx', hctx', hrun⟩ := Exec.lift_bind_eq_ok hrun
  obtain ⟨⟨⟩, net₁, hfinish, hrun⟩ := Exec.bind_eq_ok hrun
  cases hrun
  obtain ⟨hkeys, -⟩ := r.keys_eq_of_new hc hcap
  obtain ⟨hsize, rfl⟩ := readPass_ok hc hchunks
  obtain ⟨hnet, -⟩ := beginDirWrite_ok hctx
  have hnew := hkeys ▸ hnew ctx.champ hnet
  obtain ⟨q, -, -, hloop⟩ := uploadChunks_eq (f := r.handle cap hc) hkeys rfl hnew.distinctKeys hlimit
    hsize (toParentLink r.dirCap ctx.dirParentKey) _ _ tree
  have hloop := hloop (chunkCount r.size r.chunkSize) 0 ctx (Nat.zero_add _)
    fun j hj _ => hnew.absent j hj
  rw [Nat.zero_mul, List.drop_zero] at hloop
  have hkeys' : (r.handle cap hc).key H 0 = r.keys.mapKey ∧
      chunkBat H (r.handle cap hc).streamSecret (r.handle cap hc).cap.bat 0 = r.keys.bat := by
    rw [hkeys]
    exact ⟨rfl, rfl⟩
  rw [hkeys'.1, hkeys'.2] at hloop
  obtain rfl := Except.ok.inj (hctx'.symm.trans hloop)
  exact ⟨ctx, _, _, hctx, fun k hk => writeAll_of_not_location hlimit _ hk, hfinish⟩

/-- A new file in a directory: its link is there, and places that nothing else leads to are as they
were. -/
theorem uploadFileStreamingInner_into (hc : 0 < r.chunkSize) (hmax : 0 < dir.maxLinks)
    (hnet : net r.dirCap.writer = some t) (hholds : HoldsDirectory dir.maxLinks r.dirCap m t)
    (hnew : NewKeys H limit r.keys dir.fresh t) (hfresh : DrawnFresh t (dir.fresh.map Prod.fst))
    (hlimit : chunkCount r.size r.chunkSize ≤ limit)
    (hrun : uploadFileStreamingInner H media dir r reader net = (.ok cap, net')) :
    ∃ t' mime, net' = Function.update net r.dirCap.writer (some t') ∧
      HoldsDirectory dir.maxLinks r.dirCap
        (insertAll (·.name) m [fileChildLink r.dirCap r.name mime r.epoch r.keys r.wBaseKey]) t' ∧
      ∀ S : Bytes → Prop, Apart S t → ¬S r.dirCap.mapKey → (∀ e ∈ dir.fresh, ¬S e.1) →
        (∀ k, S k → ¬(r.handle cap hc).Location H limit k) → ∀ k, S k → t' k = t k := by
  have hnew' : ∀ t, net r.dirCap.writer = some t → NewKeys H limit r.keys dir.fresh t :=
    fun t₁ ht₁ => Option.some.inj (hnet.symm.trans ht₁) ▸ hnew
  obtain ⟨ctx, u, mime, hctx, hframe, hfinish⟩ :=
    uploadFileStreamingInner_commit hc hnew' hlimit hrun
  obtain ⟨hkeys, -, -, -⟩ := uploadFileStreamingInner_ok hc hnew'
    ((chunkCount_mono (List.length_take_le _ _)).trans hlimit) hrun
  obtain rfl : t = ctx.champ := Option.some.inj (hnet.symm.trans (beginDirWrite_ok hctx).1)
  have hnode := beginDirWrite_dirNode hctx
  obtain ⟨hfetch, -⟩ := Option.filter_eq_some_iff.1 hnode
  obtain ⟨b, hb, -⟩ := Option.map_eq_some_iff.1 hfetch
  have hnew : NewKeys H limit (r.handle cap hc).keys dir.fresh ctx.champ := hkeys ▸ hnew
  obtain ⟨t', hnet', hholds'⟩ := finishDirWriteMulti_holds ((r.handle cap hc).Location H limit)
    hmax hholds hnode (by exact List.nodup_singleton _) hframe
    (fun k ⟨i, hi, hk⟩ => hk ▸ hnew.absent i hi)
    (fun k ⟨i, hi, hk⟩ k' b' hb' => hk ▸ hnew.unlinked k' b' hb' i hi) hfresh
    (fun k hk => by
      obtain ⟨e, he, rfl⟩ := List.mem_map.1 hk
      exact hnew.not_location_fresh e he) hfinish
  refine ⟨t', mime, hnet', hholds', fun S hS hdir hSfresh hSnew k hk => ?_⟩
  -- the commit leaves these places and those of the new file as it found them
  obtain ⟨t'', hnet'', hkept⟩ := finishDirWriteMulti_ok
    (S := fun k => S k ∨ (r.handle cap hc).Location H limit k)
    (fun k b hk hb hnext => hnext.elim (hS k b (fun h => hk (Or.inl h)) hb)
      (hnew.apart k b (fun h => hk (Or.inr h)) hb))
    (fun h => h.elim hdir (hnew.not_location hb)) hfetch
    (fun e he h => h.elim (hSfresh e he) (hnew.not_location_fresh e he))
    (fun k hk => hframe k fun h => hk (Or.inr h)) hfinish
  have hsame : t' = t'' := by
    have := congrFun (hnet'.symm.trans hnet'') r.dirCap.writer
    rw [Function.update_self, Function.update_self] at this
    exact Option.some.inj this
  rw [hsame, hkept k (Or.inl hk), hframe k (hSnew k hk)]

end Upload

end Peergos
