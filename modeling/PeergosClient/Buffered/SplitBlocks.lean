import PeergosClient.Buffered.CommitSize
import PeergosClient.Lib.Search

/-!
# A split loses no block

A commit too big for one call goes as several.  Each block goes out once, in some call, the last
call keeps the pointers and the hashes of the blocks written ahead, and what it takes of a writer's
tree hangs together from the root.  The calls before it keep to the limits and sign their blocks in
the order they carry them.

A block its root does not reach comes last in the order, so it is in the last call only if all its
root reaches is.
-/

namespace Peergos

open Search (Reach Path)

/-! ## The order of one writer's blocks -/

section Order

/-- A writer's inline blocks as a graph. -/
def inlineGraph (blocks : List InlineBlock) : List (Cid × List Cid) :=
  blocks.map fun b => (b.cid, blockLinks b.data b.isRaw)

/-- The root reaches the block with this hash through the blocks. -/
def RootReaches (blocks : List InlineBlock) (root : Option Cid) (cid : Cid) : Prop :=
  Reach (inlineGraph blocks) (fun c => root = some c) cid

/-- Each of these blocks hangs off the root by way of these blocks. -/
def HangTogether (blocks : List InlineBlock) (root : Option Cid) (part : List InlineBlock) : Prop :=
  ∀ b ∈ part, Path (inlineGraph blocks) (fun c => c ∈ part.map (·.cid)) (fun c => root = some c) b.cid

variable {blocks : List InlineBlock} {root : Option Cid}

theorem successors_inlineGraph (h : (blocks.map (·.cid)).Nodup) {b : InlineBlock} (hb : b ∈ blocks) :
    Search.successors (inlineGraph blocks) b.cid = some (blockLinks b.data b.isRaw) := by
  unfold Search.successors inlineGraph
  rw [List.find?_map, Option.map_map]
  cases hfind : blocks.find? ((fun e : Cid × List Cid => decide (e.1 = b.cid)) ∘
      fun b => (b.cid, blockLinks b.data b.isRaw)) with
  | none => simpa using List.find?_eq_none.1 hfind b hb
  | some b' =>
      have hcid : b'.cid = b.cid := by simpa using List.find?_some hfind
      have heq := List.inj_on_of_nodup_map h (List.mem_of_find?_eq_some hfind) hb hcid
      rw [heq]
      rfl

theorem exists_of_isSome_successors {cid : Cid}
    (h : (Search.successors (inlineGraph blocks) cid).isSome) : ∃ b ∈ blocks, b.cid = cid := by
  unfold Search.successors inlineGraph at h
  rw [List.find?_map, Option.map_map, Option.isSome_map, List.find?_isSome] at h
  obtain ⟨b, hb, hcid⟩ := h
  exact ⟨b, hb, of_decide_eq_true hcid⟩

/-- The search for a writer's blocks after `done`, with `left` not found yet. -/
structure Finding (blocks : List InlineBlock) (root : Option Cid) (done left : List InlineBlock)
    (queue : List Cid) : Prop where
  perm : (done ++ left).Perm blocks
  prefixes : ∀ n, HangTogether blocks root (done.take n)
  queued : ∀ c ∈ queue, root = some c ∨ ∃ b ∈ done, c ∈ blockLinks b.data b.isRaw
  started : ∀ c, root = some c → c ∈ queue ∨ c ∉ left.map (·.cid)
  linked : ∀ b ∈ done, ∀ c ∈ blockLinks b.data b.isRaw, c ∈ queue ∨ c ∉ left.map (·.cid)

namespace Finding

variable {done left : List InlineBlock} {queue : List Cid}

/-- The search before its first step. -/
theorem start (blocks : List InlineBlock) (root : Option Cid) :
    Finding blocks root [] blocks root.toList where
  perm := .refl _
  prefixes := by
    intro n b hb
    rw [List.take_nil] at hb
    cases hb
  queued := by
    intro c hc
    exact Or.inl (Option.mem_toList.1 hc)
  started := by
    intro c hc
    exact Or.inl (Option.mem_toList.2 hc)
  linked := by
    intro b hb
    cases hb

/-- A hash that is no block left to find is passed over. -/
theorem skip {next : Cid} (h : Finding blocks root done left (next :: queue))
    (hnext : next ∉ left.map (·.cid)) : Finding blocks root done left queue where
  perm := h.perm
  prefixes := h.prefixes
  queued := fun c hc => h.queued c (List.mem_cons_of_mem _ hc)
  started := by
    intro c hc
    rcases h.started c hc with hq | hl
    · rcases List.mem_cons.1 hq with rfl | hq
      · exact Or.inr hnext
      · exact Or.inl hq
    · exact Or.inr hl
  linked := by
    intro b hb c hc
    rcases h.linked b hb c hc with hq | hl
    · rcases List.mem_cons.1 hq with rfl | hq
      · exact Or.inr hnext
      · exact Or.inl hq
    · exact Or.inr hl

/-- A block found hangs off the root by way of the blocks found before it. -/
theorem path {next : Cid} (h : Finding blocks root done left (next :: queue))
    (hnodup : (blocks.map (·.cid)).Nodup) {b : InlineBlock} (hb : b ∈ left) (hcid : b.cid = next) :
    Path (inlineGraph blocks) (fun c => c ∈ (done ++ [b]).map (·.cid)) (fun c => root = some c)
      b.cid := by
  have hmem : b ∈ blocks := h.perm.mem_iff.1 (List.mem_append_right _ hb)
  have hnode : (Search.successors (inlineGraph blocks) b.cid).isSome := by
    rw [successors_inlineGraph hnodup hmem]
    rfl
  have hin : b.cid ∈ (done ++ [b]).map (·.cid) := List.mem_map_of_mem (by simp)
  rcases h.queued next List.mem_cons_self with hroot | ⟨b', hb', hlink⟩
  · exact .start (hcid ▸ hroot) hnode hin
  · have hall := h.prefixes done.length
    rw [List.take_length] at hall
    have hgrow : ∀ c, c ∈ done.map (·.cid) → c ∈ (done ++ [b]).map (·.cid) := by
      intro c hc
      rw [List.map_append]
      exact List.mem_append_left _ hc
    have hpath := (hall b' hb').mono hgrow
    have hsucc := successors_inlineGraph hnodup (h.perm.mem_iff.1 (List.mem_append_left _ hb'))
    exact .step hpath hsucc (hcid ▸ hlink) hnode hin

/-- A block is found. -/
theorem found {next : Cid} (h : Finding blocks root done left (next :: queue))
    (hnodup : (blocks.map (·.cid)).Nodup) {b : InlineBlock} (hb : b ∈ left) (hcid : b.cid = next) :
    Finding blocks root (done ++ [b]) (left.filter fun x => x.cid ≠ next)
      (queue ++ blockLinks b.data b.isRaw) := by
  have hleft : (left.map (·.cid)).Nodup :=
    ((h.perm.map _).nodup_iff.2 hnodup).sublist ((List.sublist_append_right done left).map _)
  have hfilter : ∀ c, c ∉ left.map (·.cid) → c ∉ (left.filter fun x => x.cid ≠ next).map (·.cid) :=
    fun c hc hc' => hc ((List.filter_sublist.map _).subset hc')
  have hnext : next ∉ (left.filter fun x => x.cid ≠ next).map (·.cid) := by
    intro hmem
    obtain ⟨x, hx, hx'⟩ := List.mem_map.1 hmem
    exact absurd hx' (by simpa using (List.mem_filter.1 hx).2)
  have hmove : ∀ c, c ∈ next :: queue ∨ c ∉ left.map (·.cid) →
      c ∈ queue ++ blockLinks b.data b.isRaw ∨
        c ∉ (left.filter fun x => x.cid ≠ next).map (·.cid) := by
    rintro c (hq | hl)
    · rcases List.mem_cons.1 hq with rfl | hq
      · exact Or.inr hnext
      · exact Or.inl (List.mem_append_left _ hq)
    · exact Or.inr (hfilter c hl)
  refine ⟨?_, ?_, ?_, fun c hc => hmove c (h.started c hc), ?_⟩
  · rw [List.append_assoc]
    refine List.Perm.trans ?_ h.perm
    rw [← hcid]
    exact (cons_filter_perm hleft hb).append_left done
  · intro n
    rcases le_or_gt n done.length with hn | hn
    · rw [List.take_append_of_le_length hn]
      exact h.prefixes n
    · rw [List.take_of_length_le (by simp; omega)]
      intro b' hb'
      rcases List.mem_append.1 hb' with hb' | hb'
      · have hall := h.prefixes done.length
        rw [List.take_length] at hall
        refine (hall b' hb').mono fun c hc => ?_
        rw [List.map_append]
        exact List.mem_append_left _ hc
      · rw [List.mem_singleton.1 hb']
        exact h.path hnodup hb hcid
  · intro c hc
    rcases List.mem_append.1 hc with hc | hc
    · rcases h.queued c (List.mem_cons_of_mem _ hc) with hroot | ⟨b', hb', hlink⟩
      · exact Or.inl hroot
      · exact Or.inr ⟨b', List.mem_append_left _ hb', hlink⟩
    · exact Or.inr ⟨b, by simp, hc⟩
  · intro b' hb' c hc
    rcases List.mem_append.1 hb' with hb' | hb'
    · exact hmove c (h.linked b' hb' c hc)
    · rw [List.mem_singleton.1 hb'] at hc
      exact Or.inl (List.mem_append_right _ hc)

/-- When the queue is empty all that is left is out of reach. -/
theorem not_reaches (h : Finding blocks root done left []) (hnodup : (blocks.map (·.cid)).Nodup)
    {cid : Cid} (hreach : RootReaches blocks root cid) : cid ∉ left.map (·.cid) := by
  induction hreach with
  | start hs _ => exact (h.started _ hs).resolve_left List.not_mem_nil
  | @step x y ys hx hys hy _ ih =>
      obtain ⟨b, hb, rfl⟩ := exists_of_isSome_successors hx.isSome
      rw [successors_inlineGraph hnodup hb] at hys
      cases hys
      have hdone : b ∈ done := by
        refine (List.mem_append.1 (h.perm.mem_iff.2 hb)).resolve_right fun hl => ih ?_
        exact List.mem_map_of_mem hl
      exact (h.linked b hdone y hy).resolve_left List.not_mem_nil

/-- The search finds what the root reaches, each block after one it hangs off, and puts the rest
behind. -/
theorem loop (hnodup : (blocks.map (·.cid)).Nodup) {pops : ℕ}
    (h : Finding blocks root done left queue)
    (hpops : queue.length + (left.map fun b => (blockLinks b.data b.isRaw).length).sum ≤ pops) :
    ∃ more rest, fromRootFirstLoop pops left queue = more ++ rest ∧
      Finding blocks root (done ++ more) rest [] := by
  induction pops generalizing done left queue with
  | zero =>
      obtain rfl : queue = [] := List.length_eq_zero_iff.1 (by omega)
      exact ⟨[], left, rfl, by simpa using h⟩
  | succ pops ih =>
      cases queue with
      | nil => exact ⟨[], left, rfl, by simpa using h⟩
      | cons next queue =>
          rw [List.length_cons] at hpops
          rw [fromRootFirstLoop]
          cases hfind : left.find? fun b => b.cid = next with
          | none =>
              have hnext : next ∉ left.map (·.cid) := by
                intro hmem
                obtain ⟨b, hb, hcid⟩ := List.mem_map.1 hmem
                simpa [hcid] using List.find?_eq_none.1 hfind b hb
              exact ih (h.skip hnext) (by omega)
          | some b =>
              have hcid : b.cid = next := by simpa using List.find?_some hfind
              have hb := List.mem_of_find?_eq_some hfind
              have hleft : (left.map (·.cid)).Nodup := ((h.perm.map _).nodup_iff.2 hnodup).sublist
                ((List.sublist_append_right done left).map _)
              have hsum := ((cons_filter_perm hleft hb).map
                fun b => (blockLinks b.data b.isRaw).length).sum_eq
              rw [hcid, List.map_cons, List.sum_cons] at hsum
              obtain ⟨more, rest, heq, hrest⟩ := ih (h.found hnodup hb hcid) (by
                rw [List.length_append]
                omega)
              refine ⟨b :: more, rest, congrArg (b :: ·) heq, ?_⟩
              rwa [List.append_assoc] at hrest

end Finding

/-- What the last call takes of a writer's blocks: those the root reaches hang off it by way of
those taken, and the others are taken only behind all of these. -/
structure TopOf (blocks : List InlineBlock) (root : Option Cid) (taken : List InlineBlock) :
    Prop where
  hangs : ∀ b ∈ taken, RootReaches blocks root b.cid →
    Path (inlineGraph blocks) (fun c => c ∈ taken.map (·.cid)) (fun c => root = some c) b.cid
  behind : ∀ b ∈ taken, ¬ RootReaches blocks root b.cid →
    ∀ b' ∈ blocks, RootReaches blocks root b'.cid → b' ∈ taken

/-- Whatever is taken from the front of the order is the top of the tree. -/
theorem Finding.topOf {found rest taken deferred : List InlineBlock}
    (h : Finding blocks root found rest []) (hnodup : (blocks.map (·.cid)).Nodup)
    (happ : taken ++ deferred = found ++ rest) : TopOf blocks root taken := by
  have hall := h.prefixes found.length
  rw [List.take_length] at hall
  have hrest : ∀ b ∈ rest, ¬ RootReaches blocks root b.cid := fun b hb hreach =>
    h.not_reaches hnodup hreach (List.mem_map_of_mem hb)
  rcases List.append_eq_append_iff.1 happ with ⟨more, hfound, -⟩ | ⟨more, htaken, hmore⟩
  · have hpart := h.prefixes taken.length
    rw [hfound, List.take_left'] at hpart
    · exact ⟨fun b hb _ => hpart b hb, fun b hb hreach => absurd (hpart b hb).reach hreach⟩
    · rfl
  · have hfound : ∀ b ∈ blocks, RootReaches blocks root b.cid → b ∈ found := by
      intro b hb hreach
      exact (List.mem_append.1 (h.perm.mem_iff.2 hb)).resolve_right fun hr => hrest b hr hreach
    refine ⟨?_, ?_⟩
    · intro b hb hreach
      rw [htaken] at hb
      have hb' : b ∈ found := by
        refine (List.mem_append.1 hb).resolve_right fun hm => hrest b ?_ hreach
        rw [hmore]
        exact List.mem_append_left _ hm
      refine (hall b hb').mono fun c hc => ?_
      rw [htaken, List.map_append]
      exact List.mem_append_left _ hc
    · intro b _ _ b' hb' hreach
      rw [htaken]
      exact List.mem_append_left _ (hfound b' hb' hreach)

/-- `from_root_first` reorders the distinct blocks, and any start of it is the top of the tree. -/
theorem fromRootFirst_spec (inline : List InlineBlock) (root : Option Cid) :
    (fromRootFirst inline root).Perm (byHash inline) ∧
      ∀ taken deferred, taken ++ deferred = fromRootFirst inline root →
        TopOf (byHash inline) root taken := by
  have hnodup := nodup_byHash inline
  refine ⟨fromRootFirstLoop_perm _ _ hnodup, ?_⟩
  intro taken deferred happ
  have hpops : root.toList.length + ((byHash inline).map fun b =>
      (blockLinks b.data b.isRaw).length).sum ≤
      1 + ((byHash inline).map fun b => (blockLinks b.data b.isRaw).length).sum := by
    cases root <;> simp
  obtain ⟨found, rest, heq, hfound⟩ := (Finding.start _ root).loop hnodup hpops
  rw [fromRootFirst, heq] at happ
  exact hfound.topOf hnodup happ

end Order

/-! ## The blocks of one writer -/

section Writer

variable {sha256 : Bytes → Bytes}

/-- The raw, or the cbor, blocks of a writer. -/
def WriterCommit.blocksOf (w : WriterCommit) : Bool → List Bytes
  | true => w.rawBlocks
  | false => w.cborBlocks

/-- The distinct blocks of a writer: `kept` has each hash of its blocks once. -/
structure DistinctBlocks (sha256 : Bytes → Bytes) (w : WriterCommit) (kept : List InlineBlock) :
    Prop where
  nodup : (kept.map (·.cid)).Nodup
  hash : ∀ b ∈ kept, buildCid (sha256 b.data) b.isRaw = .ok b.cid
  mem : ∀ b ∈ kept, b.data ∈ w.blocksOf b.isRaw
  all : ∀ isRaw, ∀ data ∈ w.blocksOf isRaw,
    ∃ b ∈ kept, buildCid (sha256 data) isRaw = .ok b.cid

theorem exists_mem_byHash {blocks : List InlineBlock} {b : InlineBlock} (h : b ∈ blocks) :
    ∃ b' ∈ byHash blocks, b'.cid = b.cid := by
  have hfold : ∀ (blocks acc : List InlineBlock), b ∈ blocks ∨ (∃ b' ∈ acc, b'.cid = b.cid) →
      ∃ b' ∈ blocks.foldl (fun m b => m.filter (fun x => x.cid ≠ b.cid) ++ [b]) acc,
        b'.cid = b.cid := by
    intro blocks
    induction blocks with
    | nil =>
        rintro acc (h | h)
        · cases h
        · exact h
    | cons c blocks ih =>
        intro acc h
        refine ih _ ?_
        by_cases hc : c.cid = b.cid
        · exact Or.inr ⟨c, by simp, hc⟩
        · rcases h with h | ⟨b', hb', hcid⟩
          · refine Or.inl ((List.mem_cons.1 h).resolve_left ?_)
            rintro rfl
            exact hc rfl
          · refine Or.inr ⟨b', List.mem_append_left _ (List.mem_filter.2 ⟨hb', ?_⟩), hcid⟩
            simpa [hcid] using Ne.symm hc
  exact hfold blocks [] (Or.inl h)

theorem mapM_inlineBlock_hash {isRaw : Bool} {datas : List Bytes} {blocks : List InlineBlock}
    (h : (datas.mapM fun data => do
      let cid ← liftMf (buildCid (sha256 data) isRaw)
      .ok (⟨cid, data, isRaw⟩ : InlineBlock)) = .ok blocks) :
    (∀ b ∈ blocks, buildCid (sha256 b.data) isRaw = .ok b.cid ∧ b.isRaw = isRaw ∧ b.data ∈ datas) ∧
      ∀ data ∈ datas, ∃ b ∈ blocks, buildCid (sha256 data) isRaw = .ok b.cid := by
  induction datas generalizing blocks with
  | nil =>
      cases h
      simp
  | cons data datas ih =>
      rw [List.mapM_cons] at h
      obtain ⟨b, hb, h⟩ := bind_eq_ok.1 h
      obtain ⟨cid, hcid, hb⟩ := bind_eq_ok.1 hb
      obtain ⟨rest, hrest, h⟩ := bind_eq_ok.1 h
      cases hb
      cases h
      obtain ⟨hof, hall⟩ := ih hrest
      have hcid' : buildCid (sha256 data) isRaw = .ok cid := liftMf_eq_ok hcid
      refine ⟨?_, ?_⟩
      · rw [List.forall_mem_cons]
        refine ⟨⟨hcid', rfl, List.mem_cons_self⟩, fun b hb => ?_⟩
        obtain ⟨h₁, h₂, h₃⟩ := hof b hb
        exact ⟨h₁, h₂, List.mem_cons_of_mem _ h₃⟩
      · rw [List.forall_mem_cons]
        refine ⟨⟨_, List.mem_cons_self, hcid'⟩, fun d hd => ?_⟩
        obtain ⟨b, hb, h⟩ := hall d hd
        exact ⟨b, List.mem_cons_of_mem _ hb, h⟩

/-- What `split` does with one writer: its distinct blocks, those the last call takes and the
rest. -/
structure WriterSplit where
  commit : WriterCommit
  root : Option Cid
  kept : List InlineBlock
  taken : List InlineBlock
  rest : List InlineBlock

/-- The writer in the last call. -/
def WriterSplit.last (p : WriterSplit) : WriterCommit :=
  { p.commit with
    cborBlocks := dataOf false p.taken
    rawBlocks := dataOf true p.taken
    blockListSignature := none }

/-- Each distinct block is taken or put off, and the top of the tree is taken. -/
structure WriterSplit.Valid (sha256 : Bytes → Bytes) (p : WriterSplit) : Prop where
  distinct : DistinctBlocks sha256 p.commit p.kept
  perm : (p.taken ++ p.rest).Perm p.kept
  top : TopOf p.kept p.root p.taken

/-- The blocks put off, each with its writer. -/
def deferredBlocks (deferred : List (PublicKeyHash × List InlineBlock)) :
    List (PublicKeyHash × InlineBlock) :=
  deferred.flatMap fun d => d.2.map fun b => (d.1, b)

theorem splitWriter_spec {st st' : SplitLoop} {w : WriterCommit × Option Cid}
    (h : splitWriter sha256 st w = .ok st') :
    ∃ p : WriterSplit, (p.commit, p.root) = w ∧ p.Valid sha256 ∧
      st'.lastWriters = st.lastWriters ++ [p.last] ∧
      deferredBlocks st'.deferred =
        deferredBlocks st.deferred ++ p.rest.map fun b => (p.commit.writer, b) := by
  obtain ⟨cbor, hcbor, h⟩ := bind_eq_ok.1 h
  obtain ⟨raw, hraw, h⟩ := bind_eq_ok.1 h
  obtain ⟨hcborOf, hcborAll⟩ := mapM_inlineBlock_hash hcbor
  obtain ⟨hrawOf, hrawAll⟩ := mapM_inlineBlock_hash hraw
  rcases htake : takeWithin st.budget st.countBudget (fromRootFirst (cbor ++ raw) w.2) with
    ⟨taken, rest, budget, countBudget⟩
  obtain ⟨happ, -, -⟩ := takeWithin_eq htake
  obtain ⟨hperm, htop⟩ := fromRootFirst_spec (cbor ++ raw) w.2
  simp only [htake] at h
  cases h
  have hof : ∀ b ∈ cbor ++ raw, buildCid (sha256 b.data) b.isRaw = .ok b.cid ∧
      b.data ∈ w.1.blocksOf b.isRaw := by
    intro b hb
    rcases List.mem_append.1 hb with hb | hb
    · obtain ⟨h₁, h₂, h₃⟩ := hcborOf b hb
      rw [h₂]
      exact ⟨h₁, h₃⟩
    · obtain ⟨h₁, h₂, h₃⟩ := hrawOf b hb
      rw [h₂]
      exact ⟨h₁, h₃⟩
  have hdistinct : DistinctBlocks sha256 w.1 (byHash (cbor ++ raw)) := by
    refine ⟨nodup_byHash _, fun b hb => (hof b (mem_byHash hb)).1,
      fun b hb => (hof b (mem_byHash hb)).2, ?_⟩
    intro isRaw data hdata
    have hb : ∃ b ∈ cbor ++ raw, buildCid (sha256 data) isRaw = .ok b.cid := by
      cases isRaw with
      | false =>
          obtain ⟨b, hb, hcid⟩ := hcborAll data hdata
          exact ⟨b, List.mem_append_left _ hb, hcid⟩
      | true =>
          obtain ⟨b, hb, hcid⟩ := hrawAll data hdata
          exact ⟨b, List.mem_append_right _ hb, hcid⟩
    obtain ⟨b, hb, hcid⟩ := hb
    obtain ⟨b', hb', heq⟩ := exists_mem_byHash hb
    exact ⟨b', hb', heq ▸ hcid⟩
  refine ⟨⟨w.1, w.2, byHash (cbor ++ raw), taken, rest⟩, rfl,
    ⟨hdistinct, happ ▸ hperm, htop taken rest happ⟩, rfl, ?_⟩
  show deferredBlocks (if rest = [] then st.deferred else st.deferred ++ [(w.1.writer, rest)]) = _
  split
  · rename_i hnil
    simp [hnil]
  · simp [deferredBlocks]

/-- The first loop of `split`. -/
theorem splitLoop_spec {ws : List (WriterCommit × Option Cid)} {st st' : SplitLoop}
    (h : ws.foldlM (splitWriter sha256) st = .ok st') :
    ∃ parts : List WriterSplit, (parts.map fun p => (p.commit, p.root)) = ws ∧
      (∀ p ∈ parts, p.Valid sha256) ∧
      st'.lastWriters = st.lastWriters ++ parts.map WriterSplit.last ∧
      deferredBlocks st'.deferred = deferredBlocks st.deferred ++
        parts.flatMap fun p => p.rest.map fun b => (p.commit.writer, b) := by
  induction ws generalizing st with
  | nil =>
      cases h
      exact ⟨[], rfl, fun p hp => absurd hp List.not_mem_nil, by simp, by simp⟩
  | cons w ws ih =>
      rw [List.foldlM_cons] at h
      obtain ⟨st₁, hstep, hrest⟩ := bind_eq_ok.1 h
      obtain ⟨p, hp, hvalid, hlast, hdeferred⟩ := splitWriter_spec hstep
      obtain ⟨parts, hparts, hvalids, hlasts, hdeferreds⟩ := ih hrest
      refine ⟨p :: parts, by rw [List.map_cons, hp, hparts], ?_, ?_, ?_⟩
      · rw [List.forall_mem_cons]
        exact ⟨hvalid, hvalids⟩
      · rw [hlasts, hlast, List.append_assoc]
        rfl
      · rw [hdeferreds, hdeferred, List.append_assoc]
        rfl

end Writer

/-! ## The calls before the last -/

section Calls

theorem deferredGroups_flatten (blocks group : List InlineBlock) (size : ℕ) :
    (deferredGroups blocks group size).flatten = group ++ blocks := by
  induction blocks generalizing group size with
  | nil =>
      cases group with
      | nil => rfl
      | cons b group => simp [deferredGroups]
  | cons b blocks ih =>
      rw [deferredGroups]
      split
      · rename_i hnil
        rw [ih, hnil]
        rfl
      · split
        · rw [List.flatten_cons, ih]
          rfl
        · rw [ih, List.append_assoc]
          rfl

/-- A group with something in it that a call has room for. -/
structure GroupWithin (group : List InlineBlock) : Prop where
  nonempty : group ≠ []
  bytes : groupSize group ≤ maxBulkInline
  count : group.length ≤ maxBulkCommitBlocks

theorem GroupWithin.single {b : InlineBlock} (h : b.data.length ≤ maxBulkInline) :
    GroupWithin [b] :=
  ⟨List.cons_ne_nil _ _, by simpa [groupSize] using h, by simp [maxBulkCommitBlocks]⟩

theorem deferredGroups_within {blocks : List InlineBlock}
    (hblocks : ∀ b ∈ blocks, b.data.length ≤ maxBulkInline) (group : List InlineBlock)
    (hgroup : group ≠ [] → GroupWithin group) :
    ∀ g ∈ deferredGroups blocks group (groupSize group), GroupWithin g := by
  induction blocks generalizing group with
  | nil =>
      cases group with
      | nil => simp [deferredGroups]
      | cons b group => simpa [deferredGroups] using hgroup
  | cons b blocks ih =>
      rw [List.forall_mem_cons] at hblocks
      have hb : groupSize [b] = b.data.length := by simp [groupSize]
      have hsingle := ih hblocks.2 [b] fun _ => GroupWithin.single hblocks.1
      rw [hb] at hsingle
      rw [deferredGroups]
      split
      · exact hsingle
      · rename_i hne
        split
        · rw [List.forall_mem_cons]
          exact ⟨hgroup hne, hsingle⟩
        · rename_i hroom
          rw [not_or, not_lt, not_le] at hroom
          have hsize : groupSize (group ++ [b]) = groupSize group + b.data.length := by
            rw [groupSize_append, hb]
          rw [← hsize]
          refine ih hblocks.2 (group ++ [b]) fun _ => ⟨by simp, by omega, ?_⟩
          rw [List.length_append, List.length_singleton]
          exact hroom.2

/-- The calls so far keep to the limits, that on the number of blocks if `counted`. -/
structure CallsWithin (counted : Prop) (st : CallsLoop) : Prop where
  nonempty : ∀ call ∈ st.calls, call ≠ []
  bytes : ∀ call ∈ st.calls, (call.map WriterCommit.inlineSize).sum ≤ maxBulkInline
  count : counted → ∀ call ∈ st.calls, (call.map WriterCommit.blockCount).sum ≤ maxBulkCommitBlocks
  used : ∀ call, st.calls.getLast? = some call →
    (call.map WriterCommit.inlineSize).sum = st.used ∧
      (call.map WriterCommit.blockCount).sum = st.count
  pos : counted → st.calls ≠ [] → 0 < st.used

/-- A group adds its part of a writer behind all there are. -/
theorem flatten_addGroup (writer : PublicKeyHash) (seq : Option Int64) (st : CallsLoop)
    (group : List InlineBlock) : (addGroup writer seq st group).calls.flatten =
      st.calls.flatten ++ [groupCommit writer seq group] := by
  rw [addGroup_eq]
  split
  · simp
  · rename_i hcalls
    have hne : st.calls ≠ [] := fun h => hcalls (Or.inl h)
    have hlastD : st.calls.getLastD [] = st.calls.getLast hne := by
      rw [List.getLastD_eq_getLast?, List.getLast?_eq_some_getLast hne, Option.getD_some]
    show (st.calls.dropLast ++ [st.calls.getLastD [] ++ _]).flatten = _
    conv_rhs => rw [← List.dropLast_append_getLast hne]
    rw [hlastD]
    simp

theorem CallsWithin.addGroup {counted : Prop} {st : CallsLoop} (h : CallsWithin counted st)
    (writer : PublicKeyHash) (seq : Option Int64) {group : List InlineBlock}
    (hgroup : GroupWithin group) (hpos : counted → 0 < groupSize group) :
    CallsWithin counted (addGroup writer seq st group) := by
  rw [addGroup_eq]
  split
  · refine ⟨?_, ?_, ?_, ?_, fun hc _ => hpos hc⟩
    · intro call hcall
      rcases List.mem_append.1 hcall with hcall | hcall
      · exact h.nonempty call hcall
      · rw [List.mem_singleton.1 hcall]
        exact List.cons_ne_nil _ _
    · intro call hcall
      rcases List.mem_append.1 hcall with hcall | hcall
      · exact h.bytes call hcall
      · rw [List.mem_singleton.1 hcall]
        simpa [inlineSize_groupCommit] using hgroup.bytes
    · intro hc call hcall
      rcases List.mem_append.1 hcall with hcall | hcall
      · exact h.count hc call hcall
      · rw [List.mem_singleton.1 hcall]
        simpa [blockCount_groupCommit] using hgroup.count
    · intro call hcall
      rw [List.getLast?_concat] at hcall
      cases hcall
      simp [inlineSize_groupCommit, blockCount_groupCommit]
  · rename_i hroom
    rw [not_or, not_and, not_or, not_lt, not_lt] at hroom
    obtain ⟨hne, hroom⟩ := hroom
    have hlast : st.calls.getLast? = some (st.calls.getLast hne) :=
      List.getLast?_eq_some_getLast hne
    have hlastD : st.calls.getLastD [] = st.calls.getLast hne := by
      rw [List.getLastD_eq_getLast?, hlast, Option.getD_some]
    obtain ⟨hused, hcount⟩ := h.used _ hlast
    have hbytes : st.used + groupSize group ≤ maxBulkInline := by
      rcases Nat.eq_zero_or_pos st.used with hzero | hused'
      · rw [hzero, Nat.zero_add]
        exact hgroup.bytes
      · exact (hroom hused').1
    rw [hlastD]
    refine ⟨?_, ?_, ?_, ?_, ?_⟩
    · intro call hcall
      rcases List.mem_append.1 hcall with hcall | hcall
      · exact h.nonempty call (List.mem_of_mem_dropLast hcall)
      · rw [List.mem_singleton.1 hcall]
        simp
    · intro call hcall
      rcases List.mem_append.1 hcall with hcall | hcall
      · exact h.bytes call (List.mem_of_mem_dropLast hcall)
      · rw [List.mem_singleton.1 hcall, List.map_append, List.sum_append, hused]
        simpa [inlineSize_groupCommit] using hbytes
    · intro hc call hcall
      rcases List.mem_append.1 hcall with hcall | hcall
      · exact h.count hc call (List.mem_of_mem_dropLast hcall)
      · rw [List.mem_singleton.1 hcall, List.map_append, List.sum_append, hcount]
        simpa [blockCount_groupCommit] using (hroom (h.pos hc hne)).2
    · intro call hcall
      rw [List.getLast?_concat] at hcall
      cases hcall
      simp [inlineSize_groupCommit, blockCount_groupCommit, hused, hcount]
    · intro hc _
      exact Nat.add_pos_left (h.pos hc hne) _

theorem callsWithin_foldl {counted : Prop} {st : CallsLoop} (h : CallsWithin counted st)
    (writer : PublicKeyHash) (seq : Option Int64) {groups : List (List InlineBlock)}
    (hgroups : ∀ g ∈ groups, GroupWithin g) (hpos : counted → ∀ g ∈ groups, 0 < groupSize g) :
    CallsWithin counted (groups.foldl (addGroup writer seq) st) ∧
      (groups.foldl (addGroup writer seq) st).calls.flatten =
        st.calls.flatten ++ groups.map (groupCommit writer seq) := by
  induction groups generalizing st with
  | nil => exact ⟨h, by simp⟩
  | cons g groups ih =>
      rw [List.forall_mem_cons] at hgroups
      have hstep := h.addGroup writer seq hgroups.1 fun hc => hpos hc g List.mem_cons_self
      obtain ⟨hwithin, hflat⟩ :=
        ih hstep hgroups.2 fun hc g' hg' => hpos hc g' (List.mem_cons_of_mem _ hg')
      refine ⟨hwithin, ?_⟩
      rw [List.foldl_cons, hflat, flatten_addGroup, List.append_assoc]
      rfl

/-- The second loop of `split`. -/
theorem callsLoop_spec (counted : Prop) (nextSequence : PublicKeyHash → Option Int64)
    (deferred : List (PublicKeyHash × List InlineBlock)) (st : CallsLoop)
    (h : CallsWithin counted st)
    (hblocks : ∀ d ∈ deferred, ∀ b ∈ d.2, b.data.length ≤ maxBulkInline)
    (hpos : counted → ∀ d ∈ deferred, ∀ b ∈ d.2, 0 < b.data.length) :
    let st' := deferred.foldl (fun st d =>
      (deferredGroups d.2 [] 0).foldl (addGroup d.1 (nextSequence d.1)) st) st
    CallsWithin counted st' ∧ st'.calls.flatten = st.calls.flatten ++ deferred.flatMap fun d =>
      (deferredGroups d.2 [] 0).map (groupCommit d.1 (nextSequence d.1)) := by
  induction deferred generalizing st with
  | nil => exact ⟨h, by simp⟩
  | cons d deferred ih =>
      rw [List.forall_mem_cons] at hblocks
      have hgroups : ∀ g ∈ deferredGroups d.2 [] 0, GroupWithin g :=
        deferredGroups_within hblocks.1 [] fun hne => absurd rfl hne
      have hsizes : counted → ∀ g ∈ deferredGroups d.2 [] 0, 0 < groupSize g := by
        intro hc g hg
        obtain ⟨b, hb⟩ := List.exists_mem_of_ne_nil g (hgroups g hg).nonempty
        have hmem : b ∈ d.2 := by
          have hflat := deferredGroups_flatten d.2 [] 0
          rw [List.nil_append] at hflat
          rw [← hflat]
          exact List.mem_flatten_of_mem hg hb
        have hle : b.data.length ≤ groupSize g :=
          List.single_le_sum (fun _ _ => Nat.zero_le _) _ (List.mem_map_of_mem hb)
        exact (hpos hc d List.mem_cons_self b hmem).trans_le hle
      obtain ⟨hwithin, hflat⟩ := callsWithin_foldl h d.1 (nextSequence d.1) hgroups hsizes
      obtain ⟨hwithin', hflat'⟩ :=
        ih _ hwithin hblocks.2 fun hc d' hd' => hpos hc d' (List.mem_cons_of_mem _ hd')
      refine ⟨hwithin', ?_⟩
      rw [List.foldl_cons, hflat', hflat, List.append_assoc]
      rfl

end Calls

/-! ## What a split keeps -/

section Conserved

variable {sha256 : Bytes → Bytes} {nextSequence : PublicKeyHash → Option Int64}
  {commit : BulkCommit} {roots : List (Option Cid)} {tid : TransactionId}

/-- A block as it is sent: its writer, whether it is raw, and its bytes. -/
abbrev SentBlock := PublicKeyHash × Bool × Bytes

/-- The blocks of a writer in the order they are sent. -/
def WriterCommit.sent (w : WriterCommit) : List SentBlock :=
  (w.cborBlocks.map fun data => (w.writer, false, data)) ++
    w.rawBlocks.map fun data => (w.writer, true, data)

/-- The blocks of a call. -/
def BulkCommit.sent (c : BulkCommit) : List SentBlock := c.writers.flatMap WriterCommit.sent

/-- A writer's block as it is sent. -/
def InlineBlock.sentBy (writer : PublicKeyHash) (b : InlineBlock) : SentBlock :=
  (writer, b.isRaw, b.data)

/-- A writer's part of a call before the last: no pointer, no blocks written ahead, and its blocks
signed in the order they are sent. -/
structure BlocksOnly (sha256 : Bytes → Bytes) (nextSequence : PublicKeyHash → Option Int64)
    (w : WriterCommit) : Prop where
  preWritten : w.preWritten = []
  pointer : w.pointer = none
  signed : ∃ cids, w.blockListSignature = some (cids, nextSequence w.writer) ∧
    List.Forall₂ (fun block cid => buildCid (sha256 block.2.2) block.2.1 = .ok cid) w.sent cids

/-- The calls conserve the commit, split writer by writer as `parts` says.  `top` is what the blocks
taken from a writer are to satisfy, `counted` when the calls are to keep to the number of blocks. -/
structure SplitsInto (sha256 : Bytes → Bytes) (nextSequence : PublicKeyHash → Option Int64)
    (commit : BulkCommit) (roots : List (Option Cid)) (tid : TransactionId)
    (top : List InlineBlock → Option Cid → List InlineBlock → Prop) (counted : Prop)
    (calls : List BulkCommit × BulkCommit) (parts : List WriterSplit) : Prop where
  writers : (parts.map fun p => (p.commit, p.root)) = commit.writers.zip roots
  distinct : ∀ p ∈ parts, DistinctBlocks sha256 p.commit p.kept
  parted : ∀ p ∈ parts, (p.taken ++ p.rest).Perm p.kept
  once : ((calls.1 ++ [calls.2]).flatMap BulkCommit.sent).Perm
    (parts.flatMap fun p => p.kept.map (InlineBlock.sentBy p.commit.writer))
  last : calls.2 = ⟨commit.tid, parts.map WriterSplit.last⟩
  tops : ∀ p ∈ parts, top p.kept p.root p.taken
  early : ∀ call ∈ calls.1, call.tid = some tid ∧ call.writers ≠ [] ∧
    ∀ w ∈ call.writers, BlocksOnly sha256 nextSequence w
  bytes : ∀ call ∈ calls.1, call.inlineSize ≤ maxBulkInline
  count : counted → ∀ call ∈ calls.1, call.blockCount ≤ maxBulkCommitBlocks

theorem sent_groupCommit (writer : PublicKeyHash) (seq : Option Int64) (group : List InlineBlock) :
    (groupCommit writer seq group).sent =
      ((group.filter fun b => !b.isRaw) ++ (group.filter fun b => b.isRaw)).map
        (InlineBlock.sentBy writer) := by
  unfold WriterCommit.sent groupCommit
  dsimp only
  rw [List.map_map, List.map_map, List.map_append]
  congr 1
  · refine List.map_congr_left fun b hb => ?_
    have hraw : b.isRaw = false := by simpa using (List.mem_filter.1 hb).2
    simp [InlineBlock.sentBy, hraw]
  · refine List.map_congr_left fun b hb => ?_
    have hraw : b.isRaw = true := (List.mem_filter.1 hb).2
    simp [InlineBlock.sentBy, hraw]

theorem sent_groupCommit_perm (writer : PublicKeyHash) (seq : Option Int64)
    (group : List InlineBlock) :
    (groupCommit writer seq group).sent.Perm (group.map (InlineBlock.sentBy writer)) := by
  rw [sent_groupCommit]
  refine List.Perm.map _ ?_
  have hperm := List.filter_append_perm (fun b : InlineBlock => !b.isRaw) group
  simpa using hperm

theorem sent_last_perm (p : WriterSplit) :
    p.last.sent.Perm (p.taken.map (InlineBlock.sentBy p.commit.writer)) := by
  have hsent : p.last.sent = (groupCommit p.commit.writer none p.taken).sent := by
    obtain ⟨hcbor, hraw⟩ := dataOf_filter p.taken
    unfold WriterCommit.sent WriterSplit.last groupCommit
    rw [hcbor, hraw]
  rw [hsent]
  exact sent_groupCommit_perm _ _ _

/-- The groups of some writers hold the blocks put off. -/
theorem sent_deferred_perm (nextSequence : PublicKeyHash → Option Int64)
    (deferred : List (PublicKeyHash × List InlineBlock)) :
    ((deferred.flatMap fun d => (deferredGroups d.2 [] 0).map
      (groupCommit d.1 (nextSequence d.1))).flatMap WriterCommit.sent).Perm
      ((deferredBlocks deferred).map fun e => e.2.sentBy e.1) := by
  have hgroups : ∀ (writer : PublicKeyHash) (groups : List (List InlineBlock)),
      ((groups.map (groupCommit writer (nextSequence writer))).flatMap WriterCommit.sent).Perm
        (groups.flatten.map (InlineBlock.sentBy writer)) := by
    intro writer groups
    induction groups with
    | nil => exact .refl _
    | cons g groups ih =>
        rw [List.map_cons, List.flatMap_cons, List.flatten_cons, List.map_append]
        exact (sent_groupCommit_perm writer _ g).append ih
  induction deferred with
  | nil => exact .refl _
  | cons d deferred ih =>
      rw [List.flatMap_cons, List.flatMap_append]
      have hd := hgroups d.1 (deferredGroups d.2 [] 0)
      rw [deferredGroups_flatten, List.nil_append] at hd
      refine (hd.append ih).trans (List.Perm.of_eq ?_)
      simp [deferredBlocks]

/-- The part a group becomes is blocks only. -/
theorem blocksOnly_groupCommit (writer : PublicKeyHash) {group : List InlineBlock}
    (h : ∀ b ∈ group, buildCid (sha256 b.data) b.isRaw = .ok b.cid) :
    BlocksOnly sha256 nextSequence (groupCommit writer (nextSequence writer) group) := by
  refine ⟨rfl, rfl, _, rfl, ?_⟩
  rw [sent_groupCommit, List.forall₂_map_left_iff, List.forall₂_map_right_iff, List.forall₂_same]
  intro b hb
  refine h b ?_
  rcases List.mem_append.1 hb with hb | hb
  · exact List.mem_of_mem_filter hb
  · exact List.mem_of_mem_filter hb

/-- A block put off is a block of some writer, under its hash. -/
theorem of_mem_deferred {parts : List WriterSplit}
    {deferred : List (PublicKeyHash × List InlineBlock)}
    (hparts : (parts.map fun p => (p.commit, p.root)) = commit.writers.zip roots)
    (hvalid : ∀ p ∈ parts, p.Valid sha256)
    (hdeferred : deferredBlocks deferred =
      parts.flatMap fun p => p.rest.map fun b => (p.commit.writer, b))
    {d : PublicKeyHash × List InlineBlock} (hd : d ∈ deferred) {b : InlineBlock} (hb : b ∈ d.2) :
    buildCid (sha256 b.data) b.isRaw = .ok b.cid ∧
      ∃ w ∈ commit.writers, b.data ∈ w.cborBlocks ++ w.rawBlocks := by
  have hmem : (d.1, b) ∈ deferredBlocks deferred :=
    List.mem_flatMap.2 ⟨d, hd, List.mem_map_of_mem hb⟩
  rw [hdeferred] at hmem
  obtain ⟨p, hp, he⟩ := List.mem_flatMap.1 hmem
  obtain ⟨b', hb', heq⟩ := List.mem_map.1 he
  obtain rfl : b' = b := congrArg Prod.snd heq
  have hkept := (hvalid p hp).perm.mem_iff.1 (List.mem_append_right _ hb')
  have hzip : (p.commit, p.root) ∈ commit.writers.zip roots :=
    hparts ▸ List.mem_map_of_mem (f := fun p : WriterSplit => (p.commit, p.root)) hp
  refine ⟨(hvalid p hp).distinct.hash b' hkept, p.commit, (List.of_mem_zip hzip).1, ?_⟩
  have hdata := (hvalid p hp).distinct.mem b' hkept
  cases hraw : b'.isRaw with
  | false =>
      rw [hraw] at hdata
      exact List.mem_append_left _ hdata
  | true =>
      rw [hraw] at hdata
      exact List.mem_append_right _ hdata

theorem flatMap_flatten {α β : Type} (f : α → List β) (l : List (List α)) :
    l.flatten.flatMap f = l.flatMap fun x => x.flatMap f := by
  induction l with
  | nil => rfl
  | cons x l ih => rw [List.flatten_cons, List.flatMap_append, List.flatMap_cons, ih]

/-- The blocks of all the calls are those taken and those put off. -/
theorem sent_perm {parts : List WriterSplit} (hvalid : ∀ p ∈ parts, p.Valid sha256)
    {early : List WriterCommit} (hearly : (early.flatMap WriterCommit.sent).Perm
      ((parts.flatMap fun p => p.rest.map fun b => (p.commit.writer, b)).map fun e =>
        e.2.sentBy e.1)) :
    (early.flatMap WriterCommit.sent ++ (parts.map WriterSplit.last).flatMap WriterCommit.sent).Perm
      (parts.flatMap fun p => p.kept.map (InlineBlock.sentBy p.commit.writer)) := by
  have hlast : ((parts.map WriterSplit.last).flatMap WriterCommit.sent).Perm
      (parts.flatMap fun p => p.taken.map (InlineBlock.sentBy p.commit.writer)) := by
    rw [List.flatMap_map]
    exact List.Perm.flatMap_left _ fun p _ => sent_last_perm p
  have hrest : ((parts.flatMap fun p => p.rest.map fun b => (p.commit.writer, b)).map fun e =>
      e.2.sentBy e.1) = parts.flatMap fun p => p.rest.map (InlineBlock.sentBy p.commit.writer) := by
    rw [List.map_flatMap]
    simp only [List.map_map]
    rfl
  rw [hrest] at hearly
  refine (hearly.append hlast).trans (List.perm_append_comm.trans ?_)
  refine (List.flatMap_append_perm _ _ _).trans (List.Perm.flatMap_left _ fun p hp => ?_)
  rw [← List.map_append]
  exact (hvalid p hp).perm.map _

/-- `split` conserves a commit. -/
theorem split_conserves (hsha : ∀ m, (sha256 m).length = 32)
    (nextSequence : PublicKeyHash → Option Int64) (tid : TransactionId)
    (hroots : roots.length = commit.writers.length)
    (hblocks : ∀ w ∈ commit.writers, ∀ data ∈ w.cborBlocks ++ w.rawBlocks,
      data.length ≤ maxBulkInline) :
    ∃ calls parts, split sha256 nextSequence commit roots tid = .ok calls ∧
      parts.length = commit.writers.length ∧
      SplitsInto sha256 nextSequence commit roots tid TopOf
        (∀ w ∈ commit.writers, [] ∉ w.cborBlocks ++ w.rawBlocks) calls parts := by
  obtain ⟨st, hst⟩ := splitLoop_ok hsha (commit.writers.zip roots)
    ⟨maxBulkInline, maxBulkCommitBlocks - commit.preWrittenCount, [], []⟩
  obtain ⟨parts, hparts, hvalid, hlast, hdeferred⟩ := splitLoop_spec hst
  rw [List.nil_append] at hlast
  change deferredBlocks st.deferred = [] ++ _ at hdeferred
  rw [List.nil_append] at hdeferred
  have hof := fun d (hd : d ∈ st.deferred) b (hb : b ∈ d.2) =>
    of_mem_deferred hparts hvalid hdeferred hd hb
  obtain ⟨hwithin, hflat⟩ := callsLoop_spec
    (∀ w ∈ commit.writers, [] ∉ w.cborBlocks ++ w.rawBlocks) nextSequence st.deferred ⟨[], 0, 0⟩
    ⟨by simp, by simp, by simp, by simp, by simp⟩
    (by
      intro d hd b hb
      obtain ⟨-, w, hw, hdata⟩ := hof d hd b hb
      exact hblocks w hw _ hdata)
    (by
      intro hne d hd b hb
      obtain ⟨-, w, hw, hdata⟩ := hof d hd b hb
      refine List.length_pos_iff.2 fun hnil => hne w hw ?_
      rw [← hnil]
      exact hdata)
  rw [List.flatten_nil, List.nil_append] at hflat
  set calls := st.deferred.foldl (fun st d =>
    (deferredGroups d.2 [] 0).foldl (addGroup d.1 (nextSequence d.1)) st) ⟨[], 0, 0⟩ with hcalls
  have hsplit : split sha256 nextSequence commit roots tid =
      .ok (calls.calls.map fun writers => ⟨some tid, writers⟩, ⟨commit.tid, st.lastWriters⟩) := by
    have hfilter : (calls.calls.filter fun c => c ≠ []) = calls.calls :=
      List.filter_eq_self.2 fun call hcall => decide_eq_true (hwithin.nonempty call hcall)
    rw [split, hst, ok_bind]
    dsimp only
    rw [← hcalls, hfilter]
  refine ⟨_, parts, hsplit, ?_, ⟨hparts, fun p hp => (hvalid p hp).distinct,
    fun p hp => (hvalid p hp).perm, ?_, by rw [hlast], fun p hp => (hvalid p hp).top, ?_, ?_, ?_⟩⟩
  · have hlen := congrArg List.length hparts
    rw [List.length_map, List.length_zip, hroots, min_self] at hlen
    exact hlen
  · have hearly := sent_deferred_perm nextSequence st.deferred
    rw [hdeferred, ← hflat] at hearly
    have hsent : ((calls.calls.map fun writers => (⟨some tid, writers⟩ : BulkCommit)) ++
        [(⟨commit.tid, st.lastWriters⟩ : BulkCommit)]).flatMap BulkCommit.sent =
        calls.calls.flatten.flatMap WriterCommit.sent ++
          (parts.map WriterSplit.last).flatMap WriterCommit.sent := by
      rw [List.flatMap_append, hlast, flatMap_flatten, List.flatMap_map]
      simp [BulkCommit.sent]
    rw [hsent]
    exact sent_perm hvalid hearly
  · intro call hcall
    obtain ⟨writers, hwriters, rfl⟩ := List.mem_map.1 hcall
    refine ⟨rfl, hwithin.nonempty writers hwriters, ?_⟩
    intro w hw
    have hmem : w ∈ calls.calls.flatten := List.mem_flatten_of_mem hwriters hw
    rw [hflat] at hmem
    obtain ⟨d, hd, hw'⟩ := List.mem_flatMap.1 hmem
    obtain ⟨g, hg, rfl⟩ := List.mem_map.1 hw'
    refine blocksOnly_groupCommit d.1 fun b hb => (hof d hd b ?_).1
    have hflat' := deferredGroups_flatten d.2 [] 0
    rw [List.nil_append] at hflat'
    rw [← hflat']
    exact List.mem_flatten_of_mem hg hb
  · intro call hcall
    obtain ⟨writers, hwriters, rfl⟩ := List.mem_map.1 hcall
    exact hwithin.bytes writers hwriters
  · intro hc call hcall
    obtain ⟨writers, hwriters, rfl⟩ := List.mem_map.1 hcall
    exact hwithin.count hc writers hwriters

end Conserved

/-- Two writers of 701 blocks each, more than go in one call. -/
theorem split_conserves_sample :
    ∃ calls parts, split Sha256.sha256 (fun _ => some 1) (sampleCommit 700)
        [some sampleRoot, some sampleRoot] "1" = .ok calls ∧ parts.length = 2 ∧
      SplitsInto Sha256.sha256 (fun _ => some 1) (sampleCommit 700)
        [some sampleRoot, some sampleRoot] "1" TopOf
        (∀ w ∈ (sampleCommit 700).writers, [] ∉ w.cborBlocks ++ w.rawBlocks) calls parts := by
  have hmax : 3 ≤ maxBulkInline := by decide
  have hall := fun small : ℕ => @split_conserves Sha256.sha256 (sampleCommit small)
    [some sampleRoot, some sampleRoot] Sha256.length_sha256 (fun _ => some 1) "1" rfl
    fun w hw data hdata => (length_of_mem_sampleCommit hw hdata).2.trans hmax
  exact hall 700

/-- A block that hangs off nothing, its root being none: the last call takes it all the same. -/
theorem split_takes_unreached :
    ¬ ∃ calls parts, split Sha256.sha256 (fun _ => some 1) ⟨none, [samplePart 0]⟩
        [none] "1" = .ok calls ∧
      SplitsInto Sha256.sha256 (fun _ => some 1) ⟨none, [samplePart 0]⟩ [none] "1"
        HangTogether True calls parts := by
  rintro ⟨calls, parts, hsplit, hsplits⟩
  have hlast : (split Sha256.sha256 (fun _ => some 1) ⟨none, [samplePart 0]⟩
      [none] "1").map (fun calls => calls.2.writers.map (·.cborBlocks)) = .ok [[[0xa0]]] := by
    decide +kernel
  rw [hsplit] at hlast
  have hcbor : calls.2.writers.map (·.cborBlocks) = [[[0xa0]]] := Except.ok.inj hlast
  rw [hsplits.last] at hcbor
  obtain ⟨p, rfl⟩ : ∃ p, parts = [p] := by
    refine List.length_eq_one_iff.1 ?_
    have hlen := congrArg List.length hsplits.writers
    rwa [List.length_map] at hlen
  have hroot : p.root = none := congrArg Prod.snd (List.cons.inj hsplits.writers).1
  have hdata : dataOf false p.taken = [[0xa0]] := (List.cons.inj hcbor).1
  obtain ⟨b, hb, -⟩ := List.mem_map.1 (hdata ▸ List.mem_singleton_self _ :
    [0xa0] ∈ dataOf false p.taken)
  obtain ⟨r, hr, -⟩ := (hsplits.tops p (List.mem_singleton_self p) b
    (List.mem_of_mem_filter hb)).exists_start
  rw [hroot] at hr
  cases hr

end Peergos
