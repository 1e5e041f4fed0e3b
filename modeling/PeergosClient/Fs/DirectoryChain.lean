import PeergosClient.Fs.Children
import PeergosClient.Fs.Linking

/-!
# The chunks of a directory as a linked list

`ListsFrom t rk key chunks tail` says that the nodes of `t` from `key` on are the chunks of a
directory with these links, and that the directory would grow at `tail`.  Walking and listing a
directory read this list off, and a commit of changed chunks writes it.
-/

namespace Peergos

/-- The node at a location, read with a directory's key, is a directory. -/
def IsDirAt (t : Tree) (rk : SymmetricKey) (key : Bytes) : Prop :=
  ((fetchChunkNode t rk key).filter (·.isDirectory)).isSome = true

/-- One chunk of a directory: its links, and the location of the next. -/
def DirChunkAt (t : Tree) (rk : SymmetricKey) (key : Bytes) (children : List NamedRelativeCapability)
    (next : Bytes) : Prop :=
  ∃ node base, (fetchChunkNode t rk key).filter (·.isDirectory) = some node ∧
    node.childrenOrData.decrypt rk = .ok (.named children) ∧ node.baseBlock rk = .ok base ∧
    base.nextChunk.mapKey = next

/-- The chunks from `key` on, up to where the directory would grow. -/
def ListsFrom (t : Tree) (rk : SymmetricKey) :
    Bytes → List (Bytes × List NamedRelativeCapability) → Bytes → Prop
  | key, [], tail => key = tail ∧ ¬IsDirAt t rk key
  | key, chunk :: rest, tail =>
      chunk.1 = key ∧ ∃ next, DirChunkAt t rk key chunk.2 next ∧ ListsFrom t rk next rest tail

variable {t t' : Tree} {rk : SymmetricKey} {key tail : Bytes}
  {chunks : List (Bytes × List NamedRelativeCapability)}

theorem DirChunkAt.isDirAt {children : List NamedRelativeCapability} {next : Bytes}
    (h : DirChunkAt t rk key children next) : IsDirAt t rk key := by
  obtain ⟨node, base, hnode, -⟩ := h
  rw [IsDirAt, hnode]
  rfl

/-- A chunk is what is stored there. -/
theorem DirChunkAt.unique {c c' : List NamedRelativeCapability} {next next' : Bytes}
    (h : DirChunkAt t rk key c next) (h' : DirChunkAt t rk key c' next') : c = c' ∧ next = next' := by
  obtain ⟨node, base, hnode, hchildren, hbase, hnext⟩ := h
  obtain ⟨node', base', hnode', hchildren', hbase', hnext'⟩ := h'
  rw [hnode] at hnode'
  cases hnode'
  rw [hchildren] at hchildren'
  cases hchildren'
  rw [hbase] at hbase'
  cases hbase'
  exact ⟨rfl, hnext.symm.trans hnext'⟩

theorem DirChunkAt.congr {children : List NamedRelativeCapability} {next : Bytes}
    (h : DirChunkAt t rk key children next) (heq : t' key = t key) :
    DirChunkAt t' rk key children next := by
  unfold DirChunkAt fetchChunkNode at h ⊢
  rwa [heq]

namespace ListsFrom

/-- A tree is the list of one directory at most. -/
theorem unique {chunks' : List (Bytes × List NamedRelativeCapability)} {tail' : Bytes}
    (h : ListsFrom t rk key chunks tail) (h' : ListsFrom t rk key chunks' tail') :
    chunks = chunks' ∧ tail = tail' := by
  induction chunks generalizing key chunks' with
  | nil =>
      obtain ⟨rfl, hnot⟩ := h
      cases chunks' with
      | nil => exact ⟨rfl, h'.1⟩
      | cons c' rest' =>
          obtain ⟨-, next, hchunk, -⟩ := h'
          exact absurd hchunk.isDirAt hnot
  | cons c rest ih =>
      obtain ⟨hkey, next, hchunk, hrest⟩ := h
      cases chunks' with
      | nil => exact absurd hchunk.isDirAt h'.2
      | cons c' rest' =>
          obtain ⟨hkey', next', hchunk', hrest'⟩ := h'
          obtain ⟨hchildren, rfl⟩ := hchunk.unique hchunk'
          obtain ⟨rfl, rfl⟩ := ih hrest hrest'
          have hc : c = c' := Prod.ext (hkey.trans hkey'.symm) hchildren
          exact ⟨by rw [hc], rfl⟩

theorem not_isDirAt_tail (h : ListsFrom t rk key chunks tail) : ¬IsDirAt t rk tail := by
  induction chunks generalizing key with
  | nil => exact h.1 ▸ h.2
  | cons c rest ih =>
      obtain ⟨-, next, -, hrest⟩ := h
      exact ih hrest

/-- From every chunk on there is a list of its own. -/
theorem of_mem (h : ListsFrom t rk key chunks tail) {k : Bytes} (hk : k ∈ chunks.map Prod.fst) :
    ∃ rest, rest.length ≤ chunks.length ∧ rest ≠ [] ∧ ListsFrom t rk k rest tail := by
  induction chunks generalizing key with
  | nil => cases hk
  | cons c rest ih =>
      obtain ⟨hkey, next, hchunk, hrest⟩ := h
      rw [List.map_cons, List.mem_cons] at hk
      rcases hk with rfl | hk
      · exact ⟨c :: rest, le_rfl, List.cons_ne_nil _ _, rfl, next, hkey ▸ hchunk, hrest⟩
      · obtain ⟨rest', hlen, hne, hlists⟩ := ih hrest hk
        exact ⟨rest', hlen.trans (Nat.le_succ _), hne, hlists⟩

theorem isDirAt_of_mem (h : ListsFrom t rk key chunks tail) {k : Bytes}
    (hk : k ∈ chunks.map Prod.fst) : IsDirAt t rk k := by
  obtain ⟨rest, -, hne, hlists⟩ := h.of_mem hk
  cases rest with
  | nil => exact absurd rfl hne
  | cons c rest =>
      obtain ⟨-, next, hchunk, -⟩ := hlists
      exact hchunk.isDirAt

/-- A finite chain comes to no location twice: from there it would go on for ever. -/
theorem nodup_keys (h : ListsFrom t rk key chunks tail) : (chunks.map Prod.fst).Nodup := by
  induction chunks generalizing key with
  | nil => exact List.nodup_nil
  | cons c rest ih =>
      have hall := h
      obtain ⟨hkey, next, hchunk, hrest⟩ := h
      rw [List.map_cons, List.nodup_cons]
      refine ⟨fun hmem => ?_, ih hrest⟩
      obtain ⟨rest', hlen, -, hlists⟩ := hrest.of_mem hmem
      rw [hkey] at hlists
      have heq := (hall.unique hlists).1
      rw [← heq, List.length_cons] at hlen
      omega

theorem tail_not_mem (h : ListsFrom t rk key chunks tail) : tail ∉ chunks.map Prod.fst :=
  fun hmem => h.not_isDirAt_tail (h.isDirAt_of_mem hmem)

/-- Changes elsewhere leave a directory alone, as long as none puts a directory at its end. -/
theorem congr (h : ListsFrom t rk key chunks tail)
    (heq : ∀ k ∈ chunks.map Prod.fst, t' k = t k) (htail : ¬IsDirAt t' rk tail) :
    ListsFrom t' rk key chunks tail := by
  induction chunks generalizing key with
  | nil => exact ⟨h.1, h.1 ▸ htail⟩
  | cons c rest ih =>
      obtain ⟨hkey, next, hchunk, hrest⟩ := h
      refine ⟨hkey, next, hchunk.congr (heq key ?_), ih hrest fun k hk => heq k ?_⟩
      · exact hkey ▸ List.mem_cons_self
      · exact List.mem_cons_of_mem _ hk

end ListsFrom

/-! ## The chunks at hand -/

/-- The location and the links of a chunk. -/
def DirChunk.contents (c : DirChunk) : Bytes × List NamedRelativeCapability := (c.mapKey, c.children)

/-- Each chunk leads to the next. -/
def ChainFrom : Bytes → List DirChunk → Bytes → Prop
  | key, [], tail => key = tail
  | key, c :: rest, tail => c.mapKey = key ∧ ChainFrom c.nextMapKey rest tail

/-- A chunk that has what is stored, or is going to be. -/
structure DirChunk.Prepared (t : Tree) (rk : SymmetricKey) (c : DirChunk) : Prop where
  isDir : (CryptreeNode.fromCbor c.node.toCbor rk).isDirectory = true
  next : ∃ base, c.node.baseBlock rk = .ok base ∧ base.nextChunk.mapKey = c.nextMapKey
  stored : c.modified = false → DirChunkAt t rk c.mapKey c.children c.nextMapKey

variable {ds ds' : List DirChunk}

theorem ChainFrom.listsFrom (h : ChainFrom key ds tail)
    (hstored : ∀ c ∈ ds, DirChunkAt t rk c.mapKey c.children c.nextMapKey)
    (htail : ¬IsDirAt t rk tail) : ListsFrom t rk key (ds.map DirChunk.contents) tail := by
  induction ds generalizing key with
  | nil => exact ⟨h, h.symm ▸ htail⟩
  | cons c rest ih =>
      obtain ⟨rfl, hrest⟩ := h
      exact ⟨rfl, c.nextMapKey, hstored c List.mem_cons_self,
        ih hrest fun c hc => hstored c (List.mem_cons_of_mem _ hc)⟩

/-- Edits of chunks that keep their places. -/
theorem ChainFrom.map (h : ChainFrom key ds tail) {f : DirChunk → DirChunk}
    (hf : ∀ c, (f c).mapKey = c.mapKey ∧ (f c).nextMapKey = c.nextMapKey) :
    ChainFrom key (ds.map f) tail := by
  induction ds generalizing key with
  | nil => exact h
  | cons c rest ih =>
      obtain ⟨hkey, hrest⟩ := h
      refine ⟨(hf c).1.trans hkey, ?_⟩
      rw [(hf c).2]
      exact ih hrest

theorem ChainFrom.concat (h : ChainFrom key ds tail) {c : DirChunk} (hc : c.mapKey = tail) :
    ChainFrom key (ds ++ [c]) c.nextMapKey := by
  induction ds generalizing key with
  | nil => exact ⟨hc.trans h.symm, rfl⟩
  | cons d rest ih => exact ⟨h.1, ih h.2⟩

theorem ChainFrom.getLast (h : ChainFrom key ds tail) {last : DirChunk}
    (hlast : ds.getLast? = some last) : last.nextMapKey = tail := by
  induction ds generalizing key with
  | nil => cases hlast
  | cons d rest ih =>
      obtain ⟨-, hrest⟩ := h
      cases rest with
      | nil =>
          cases hlast
          exact hrest
      | cons d' rest =>
          rw [List.getLast?_cons_cons] at hlast
          exact ih hrest hlast

/-! ## Walking -/

theorem decryptNamed_ok {u : String} {c : CipherText ChildrenOrData}
    {links : List NamedRelativeCapability} (h : decryptNamed u c rk = .ok links) :
    c.decrypt rk = .ok (.named links) := by
  unfold decryptNamed at h
  obtain ⟨d, hd, h⟩ := bind_eq_ok.1 h
  cases d with
  | named l =>
      cases h
      exact hd
  | legacy l => cases h
  | data b => cases h

/-- The walk of `finish_dir_write_multi` is the same as the others. -/
theorem collectDirChunks_eq (t : Tree) (rk : SymmetricKey) (fuel : ℕ) (key : Bytes)
    (node : CryptreeNode) :
    collectDirChunks t rk fuel key node =
      walkDirChunks "legacy directory format not supported for writes" t rk fuel key node := by
  induction fuel generalizing key node with
  | zero => rfl
  | succ fuel ih =>
      unfold collectDirChunks walkDirChunks
      simp only [ih]
      rfl

/-- What a walk that came to its end has seen. -/
theorem walkDirChunks_ok {u : String} {fuel : ℕ} {node : CryptreeNode}
    (hnode : (fetchChunkNode t rk key).filter (·.isDirectory) = some node)
    (h : walkDirChunks u t rk fuel key node = .ok ds) :
    ∃ tail, ChainFrom key ds tail ∧ (∀ c ∈ ds, c.Prepared t rk ∧ c.modified = false) ∧
      ¬IsDirAt t rk tail := by
  induction fuel generalizing key node ds with
  | zero => cases h
  | succ fuel ih =>
      unfold walkDirChunks at h
      obtain ⟨children, hchildren, h⟩ := bind_eq_ok.1 h
      obtain ⟨base, hbase, h⟩ := bind_eq_ok.1 h
      have hprepared : DirChunk.Prepared t rk ⟨key, node, children, t key, base.nextChunk.mapKey,
          base.nextChunk.bat, false⟩ := by
        obtain ⟨hfetch, hdir⟩ := Option.filter_eq_some_iff.1 hnode
        obtain ⟨block, -, rfl⟩ := Option.map_eq_some_iff.1 hfetch
        exact ⟨hdir, ⟨base, hbase, rfl⟩,
          fun _ => ⟨_, base, hnode, decryptNamed_ok hchildren, hbase, rfl⟩⟩
      dsimp only at h
      split at h
      · next next hnext =>
          obtain ⟨rest, hrest, h⟩ := bind_eq_ok.1 h
          cases h
          obtain ⟨tail, hchain, hall, htail⟩ := ih hnext hrest
          refine ⟨tail, ⟨rfl, hchain⟩, fun c hc => ?_, htail⟩
          rcases List.mem_cons.1 hc with rfl | hc
          · exact ⟨hprepared, rfl⟩
          · exact hall c hc
      · next hnext =>
          cases h
          refine ⟨base.nextChunk.mapKey, ⟨rfl, rfl⟩, fun c hc => ?_, ?_⟩
          · rw [List.mem_singleton.1 hc]
            exact ⟨hprepared, rfl⟩
          · rw [IsDirAt, hnext]
            exact Bool.false_ne_true

/-- The walk reads off the list. -/
theorem ListsFrom.walk {u : String} {fuel : ℕ} {node : CryptreeNode}
    (hlists : ListsFrom t rk key chunks tail)
    (hnode : (fetchChunkNode t rk key).filter (·.isDirectory) = some node)
    (h : walkDirChunks u t rk fuel key node = .ok ds) :
    ds.map DirChunk.contents = chunks ∧ ChainFrom key ds tail ∧ ∀ c ∈ ds, c.Prepared t rk := by
  obtain ⟨tail', hchain, hall, htail⟩ := walkDirChunks_ok hnode h
  have hlists' := hchain.listsFrom (fun c hc => (hall c hc).1.stored (hall c hc).2) htail
  obtain ⟨heq, rfl⟩ := hlists'.unique hlists
  exact ⟨heq, hchain, fun c hc => (hall c hc).1⟩

/-! ## Committing -/

/-- The block of a chunk with its links. -/
theorem dirChunkAt_of_block {c : DirChunk} (h : c.Prepared t rk)
    (hblock : t' c.mapKey = some { c.node.toCbor with
      childrenOrData := .build rk (.named c.children) }) :
    DirChunkAt t' rk c.mapKey c.children c.nextMapKey := by
  obtain ⟨base, hbase, hnext⟩ := h.next
  refine ⟨CryptreeNode.fromCbor { c.node.toCbor with
    childrenOrData := .build rk (.named c.children) } rk, base, ?_, ?_, hbase, hnext⟩
  · rw [Option.filter_eq_some_iff, fetchChunkNode, hblock]
    exact ⟨rfl, h.isDir⟩
  · exact CipherText.decrypt_build rk _

theorem Tree.put_eq_ok {t : Tree} {k : Bytes} {expected : Option CryptreeBlock}
    {value : CryptreeBlock} (h : t.put k expected value = .ok t') :
    t' = Function.update t k (some value) := by
  unfold put at h
  split at h
  · split at h
    · exact (Except.ok.inj h).symm
    · cases h
  · exact (Except.ok.inj h).symm

/-- A commit of one chunk stores it and touches nothing else. -/
theorem commitChunk_ok {c : DirChunk} (hc : c.Prepared t rk) (h : commitChunk rk t c = .ok t') :
    DirChunkAt t' rk c.mapKey c.children c.nextMapKey ∧ ∀ k, k ≠ c.mapKey → t' k = t k := by
  unfold commitChunk at h
  split at h
  · have heq := Tree.put_eq_ok h
    refine ⟨dirChunkAt_of_block hc ?_, fun k hk => ?_⟩
    · rw [heq, Function.update_self]
    · rw [heq, Function.update_of_ne hk]
  · next hmod =>
      cases h
      exact ⟨hc.stored (by simpa using hmod), fun _ _ => rfl⟩

theorem DirChunk.Prepared.congr {c : DirChunk} (hc : c.Prepared t rk)
    (heq : t' c.mapKey = t c.mapKey) : c.Prepared t' rk :=
  ⟨hc.isDir, hc.next, fun h => (hc.stored h).congr heq⟩

/-- A commit stores all chunks and touches nothing else. -/
theorem foldlM_commitChunk_ok (hnodup : (ds.map (·.mapKey)).Nodup)
    (hall : ∀ c ∈ ds, c.Prepared t rk) (h : ds.foldlM (commitChunk rk) t = .ok t') :
    (∀ c ∈ ds, DirChunkAt t' rk c.mapKey c.children c.nextMapKey) ∧
      ∀ k ∉ ds.map (·.mapKey), t' k = t k := by
  induction ds generalizing t with
  | nil =>
      cases h
      exact ⟨fun c hc => absurd hc List.not_mem_nil, fun _ _ => rfl⟩
  | cons c rest ih =>
      rw [List.foldlM_cons] at h
      obtain ⟨t₁, hcommit, h⟩ := bind_eq_ok.1 h
      rw [List.map_cons, List.nodup_cons] at hnodup
      obtain ⟨hstored, hother⟩ := commitChunk_ok (hall c List.mem_cons_self) hcommit
      have hne : ∀ d ∈ rest, d.mapKey ≠ c.mapKey := fun d hd heq =>
        hnodup.1 (heq ▸ List.mem_map_of_mem hd)
      obtain ⟨hrest, hframe⟩ := ih hnodup.2 (fun d hd =>
        (hall d (List.mem_cons_of_mem _ hd)).congr (hother _ (hne d hd))) h
      constructor
      · intro d hd
        rcases List.mem_cons.1 hd with rfl | hd
        · exact hstored.congr (hframe _ hnodup.1)
        · exact hrest d hd
      · intro k hk
        rw [List.map_cons, List.mem_cons, not_or] at hk
        rw [hframe k hk.2, hother k hk.1]

/-- The directory after a commit. -/
theorem ChainFrom.commit (hchain : ChainFrom key ds tail)
    (hnodup : (ds.map (·.mapKey) ++ [tail]).Nodup) (hall : ∀ c ∈ ds, c.Prepared t rk)
    (htail : ¬IsDirAt t rk tail) (h : ds.foldlM (commitChunk rk) t = .ok t') :
    ListsFrom t' rk key (ds.map DirChunk.contents) tail ∧
      ∀ k ∉ ds.map (·.mapKey), t' k = t k := by
  rw [List.nodup_append] at hnodup
  obtain ⟨hstored, hframe⟩ := foldlM_commitChunk_ok hnodup.1 hall h
  have hnot : tail ∉ ds.map (·.mapKey) := fun hmem =>
    hnodup.2.2 tail hmem tail List.mem_cons_self rfl
  refine ⟨hchain.listsFrom hstored ?_, hframe⟩
  rwa [IsDirAt, fetchChunkNode, hframe tail hnot]

end Peergos
