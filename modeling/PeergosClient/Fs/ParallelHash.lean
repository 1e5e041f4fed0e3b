import PeergosClient.Fs.SectionRead
import PeergosClient.Lib.Workers

/-!
# Hashing a file with several threads

The hash tree root of a file on disk is built from the values of its chunks.  With more chunks than
threads each thread reads a range of them through a handle of its own, and the values are put back
in order.  The root is the one `content_root_hash` computes of the bytes.

A read may give fewer bytes than it is asked for, and the threads may end in any order.  Memory for
the buffers is not modelled.
-/

namespace Peergos

open Chunks

/-! ## Reading -/

/-- An open file: what is still to be read, and how many bytes each further read is good for. -/
structure OpenFile where
  rest : Bytes
  grants : List ℕ

/-- `Read::read`: at least one byte, until the end of the file. -/
def OpenFile.read (f : OpenFile) (wanted : ℕ) : Bytes × OpenFile :=
  let n := min wanted (max 1 (f.grants.headD wanted))
  (f.rest.take n, ⟨f.rest.drop n, f.grants.tail⟩)

/-- The loop that fills a buffer: until it is full or a read gives nothing. -/
def OpenFile.fill : ℕ → OpenFile → ℕ → Bytes × OpenFile
  | 0, f, _ => ([], f)
  | fuel + 1, f, wanted =>
      if wanted = 0 then ([], f)
      else
        let (got, f) := f.read wanted
        if got = [] then ([], f)
        else
          let (rest, f) := fill fuel f (wanted - got.length)
          (got ++ rest, f)

section Defs

variable (H : ContentHasher)

/-- The loop over the chunks of a range: `remaining` bytes from the chunk `index` on. -/
def readChunkHashes (chunkSize nChunks : ℕ) : ℕ → OpenFile → ℕ → ℕ → List Bytes
  | 0, _, _, _ => []
  | fuel + 1, f, remaining, index =>
      let toRead := min chunkSize remaining
      let (buf, f) := f.fill toRead toRead
      if buf = [] then []
      else
        let value := H.chunkHash buf index chunkSize (nChunks = 1)
        if buf.length < toRead then [value]
        else value :: readChunkHashes chunkSize nChunks fuel f (remaining - buf.length) (index + 1)

/-- `read_chunk_hashes_serial`: a build with debug assertions checks the number of chunks. -/
def readChunkHashesSerial (o : Overflow) (file : OpenFile) (size nChunks chunkSize : ℕ) :
    Result (List Bytes) :=
  let hashes := readChunkHashes H chunkSize nChunks size file size 0
  match o with
  | .checked => if hashes.length = nChunks then .ok hashes else .error .panic
  | .wrapping => .ok hashes

/-- How the threads run: the grants of the reads of each, and the order their results arrive in. -/
structure ThreadRun where
  grants : ℕ → List ℕ
  arrive : List (ℕ × List Bytes) → List (ℕ × List Bytes)
  perm : ∀ l, (arrive l).Perm l

/-- What thread `i` computes of its range, if it has one. -/
def threadHashes (content : Bytes) (size nChunks chunksPerThread chunkSize : ℕ) (grants : List ℕ)
    (i : ℕ) : Option (ℕ × List Bytes) :=
  let startChunk := i * chunksPerThread
  let endChunk := min nChunks ((i + 1) * chunksPerThread)
  if endChunk ≤ startChunk then none
  else
    let startOffset := startChunk * chunkSize
    let endOffset := min size (endChunk * chunkSize)
    let rangeLen := endOffset - startOffset
    let file : OpenFile := ⟨content.drop startOffset, grants⟩
    some (i, readChunkHashes H chunkSize nChunks rangeLen file rangeLen startChunk)

/-- `read_chunk_hashes_parallel`. -/
def readChunkHashesParallel (run : ThreadRun) (content : Bytes) (size nChunks nThreads
    chunkSize : ℕ) : List Bytes :=
  let chunksPerThread := (nChunks + nThreads - 1) / nThreads
  let results := (List.range nThreads).filterMap fun i =>
    threadHashes H content size nChunks chunksPerThread chunkSize (run.grants i) i
  (Workers.sortByKey (run.arrive results)).flatMap Prod.snd

/-- `hash_file_with_threads`, of a file with this content. -/
def hashFileWithThreads (o : Overflow) (run : ThreadRun) (content : Bytes)
    (size chunkSize nThreads : ℕ) : Result RootHash :=
  if size = 0 then do
    let tree ← H.buildTree [H.chunkHash [] 0 chunkSize true] chunkSize
    pure tree.rootHash
  else if chunkSize = 0 then .error .panic
  else do
    let nChunks := (size + chunkSize - 1) / chunkSize
    let chunkHashes ←
      if nChunks ≤ nThreads ∨ nThreads ≤ 1 then
        readChunkHashesSerial H o ⟨content, run.grants 0⟩ size nChunks chunkSize
      else .ok (readChunkHashesParallel H run content size nChunks nThreads chunkSize)
    let tree ← H.buildTree chunkHashes chunkSize
    pure tree.rootHash

/-- `content_root_hash`. -/
def contentRootHash (data : Bytes) (chunkSize : ℕ) : Result RootHash :=
  if data ≠ [] ∧ chunkSize = 0 then .error .panic
  else do
    let tree ← contentTree H chunkSize data
    pure tree.rootHash

end Defs

/-! ## What is read -/

/-- However short the reads are, a buffer is filled with what there is. -/
theorem OpenFile.fill_spec (f : OpenFile) {fuel wanted : ℕ} (h : wanted ≤ fuel) :
    (f.fill fuel wanted).1 ++ (f.fill fuel wanted).2.rest = f.rest ∧
      (f.fill fuel wanted).1.length = min wanted f.rest.length := by
  induction fuel generalizing f wanted with
  | zero =>
      obtain rfl := Nat.le_zero.1 h
      simp [fill]
  | succ fuel ih =>
      rw [fill]
      by_cases hw : wanted = 0
      · simp [hw]
      · rw [if_neg hw]
        set n := min wanted (max 1 (f.grants.headD wanted)) with hn
        have hread : f.read wanted = (f.rest.take n, ⟨f.rest.drop n, f.grants.tail⟩) := rfl
        have hlen : (f.rest.take n).length = min n f.rest.length := List.length_take
        rw [hread]
        dsimp only
        by_cases hend : f.rest.take n = []
        · -- the end of the file
          rw [if_pos hend]
          rcases List.take_eq_nil_iff.1 hend with h0 | hnil
          · omega
          · simp [hnil]
        · have hpos : (f.rest.take n).length ≠ 0 := fun h0 => hend (List.length_eq_zero_iff.1 h0)
          have hless : wanted - (f.rest.take n).length ≤ fuel := by omega
          obtain ⟨hrest, hlen'⟩ := ih ⟨f.rest.drop n, f.grants.tail⟩ hless
          rw [if_neg hend, List.append_assoc, hrest, List.length_append, hlen', List.length_drop]
          exact ⟨List.take_append_drop n f.rest, by omega⟩

theorem OpenFile.fill_eq (f : OpenFile) (wanted : ℕ) :
    ∃ f', f.fill wanted wanted = (f.rest.take wanted, f') ∧ f'.rest = f.rest.drop wanted := by
  obtain ⟨hrest, hlen⟩ := f.fill_spec (le_refl wanted)
  refine ⟨(f.fill wanted wanted).2, Prod.ext ?_ rfl, ?_⟩
  · by_cases h : wanted ≤ f.rest.length
    · rw [← hrest, List.take_left' (by omega)]
    · have hnil : (f.fill wanted wanted).2.rest = [] := by
        have := congrArg List.length hrest
        rw [List.length_append] at this
        exact List.length_eq_zero_iff.1 (by omega)
      rw [hnil, List.append_nil] at hrest
      rw [List.take_of_length_le (by omega), hrest]
  · by_cases h : wanted ≤ f.rest.length
    · conv_rhs => rw [← hrest]
      rw [List.drop_left' (by omega)]
    · rw [List.drop_eq_nil_of_le (by omega)]
      have := congrArg List.length hrest
      rw [List.length_append] at this
      exact List.length_eq_zero_iff.1 (by omega)

section Hash

variable (H : ContentHasher) {content : Bytes} {c n : ℕ}

/-- The value of chunk `i` of a content. -/
def chunkValue (content : Bytes) (c n i : ℕ) : Bytes :=
  H.chunkHash (chunkAt c i content) i c (n = 1)

/-- The loop over the chunks from `index` to before `stop`. -/
theorem readChunkHashes_eq (hc : 0 < c) {stop : ℕ} (hstop : stop ≤ chunkCount content.length c)
    (hcontent : content ≠ []) {fuel index : ℕ} {f : OpenFile} (hindex : index ≤ stop)
    (hrest : f.rest = content.drop (index * c))
    (hfuel : min content.length (stop * c) - index * c ≤ fuel) :
    readChunkHashes H c n fuel f (min content.length (stop * c) - index * c) index =
      (List.range' index (stop - index)).map (chunkValue H content c n) := by
  have hpos : 0 < content.length := List.length_pos_of_ne_nil hcontent
  have hinside : index < stop → index * c < content.length ∧ (index + 1) * c ≤ stop * c := by
    intro hlt
    refine ⟨?_, Nat.mul_le_mul_right c hlt⟩
    rcases (lt_chunkCount_iff hc).1 (hlt.trans_le hstop) with h0 | h0
    · subst h0
      omega
    · exact h0
  induction fuel generalizing index f with
  | zero =>
      have hend : stop - index = 0 := by
        by_contra hne
        obtain ⟨hlt, hle⟩ := hinside (by omega)
        rw [Nat.succ_mul] at hle
        omega
      rw [hend]
      rfl
  | succ fuel ih =>
      rw [readChunkHashes]
      obtain ⟨f', hfill, hrest'⟩ := f.fill_eq (min c (min content.length (stop * c) - index * c))
      rw [hfill, hrest]
      dsimp only
      by_cases hlt : index < stop
      · obtain ⟨hbelow, hle⟩ := hinside hlt
        have hmul := Nat.add_one_mul index c
        set remaining := min content.length (stop * c) - index * c with hremaining
        have hlen : ((content.drop (index * c)).take (min c remaining)).length = min c remaining := by
          rw [List.length_take, List.length_drop]
          omega
        have hchunk : (content.drop (index * c)).take (min c remaining) = chunkAt c index content := by
          rw [chunkAt]
          by_cases hfull : c ≤ remaining
          · rw [min_eq_left hfull]
          · rw [List.take_of_length_le (by rw [List.length_drop]; omega),
              List.take_of_length_le (by rw [List.length_drop]; omega)]
        have hne : (content.drop (index * c)).take (min c remaining) ≠ [] := by
          intro hnil
          rw [hnil, List.length_nil] at hlen
          omega
        rw [if_neg hne, if_neg (by omega), hlen, hchunk,
          show stop - index = stop - (index + 1) + 1 by omega, List.range'_succ, List.map_cons,
          show remaining - min c remaining =
            min content.length (stop * c) - (index + 1) * c by omega]
        refine congrArg _ (ih hlt ?_ (by omega) fun h => ?_)
        · rw [hrest', hrest, List.drop_drop]
          by_cases hfull : c ≤ remaining
          · rw [min_eq_left hfull, hmul]
          · rw [List.drop_eq_nil_of_le (by omega), List.drop_eq_nil_of_le (by omega)]
        · refine ⟨?_, Nat.mul_le_mul_right c h⟩
          exact ((lt_chunkCount_iff hc).1 (h.trans_le hstop)).resolve_left (Nat.succ_ne_zero _)
      · obtain rfl : index = stop := by omega
        simp

theorem readChunkHashesSerial_eq (o : Overflow) (hc : 0 < c) (hcontent : content ≠ [])
    (grants : List ℕ) :
    readChunkHashesSerial H o ⟨content, grants⟩ content.length (chunkCount content.length c) c =
      .ok ((List.range (chunkCount content.length c)).map
        (chunkValue H content c (chunkCount content.length c))) := by
  have hread : readChunkHashes H c (chunkCount content.length c) content.length ⟨content, grants⟩
      (min content.length (chunkCount content.length c * c) - 0 * c) 0 =
      (List.range' 0 (chunkCount content.length c - 0)).map
        (chunkValue H content c (chunkCount content.length c)) :=
    readChunkHashes_eq H hc le_rfl hcontent (Nat.zero_le _) (by simp) (by omega)
  rw [min_eq_left (size_le_chunkCount_mul _ hc), Nat.zero_mul, Nat.sub_zero, Nat.sub_zero,
    ← List.range_eq_range'] at hread
  cases o with
  | checked => simp [readChunkHashesSerial, hread]
  | wrapping => simp [readChunkHashesSerial, hread]

theorem threadHashes_eq (hc : 0 < c) (hcontent : content ≠ []) (per : ℕ) (grants : List ℕ)
    (i : ℕ) :
    threadHashes H content content.length (chunkCount content.length c) per c grants i =
      if Workers.share (chunkCount content.length c) per i = [] then none
      else some (i, (Workers.share (chunkCount content.length c) per i).map
        (chunkValue H content c (chunkCount content.length c))) := by
  unfold threadHashes Workers.share
  dsimp only
  by_cases hempty : min (chunkCount content.length c) ((i + 1) * per) ≤ i * per
  · rw [if_pos hempty, Nat.sub_eq_zero_of_le hempty, if_pos (by rfl)]
  · rw [if_neg hempty, if_neg, readChunkHashes_eq H hc (min_le_left _ _) hcontent
      (not_le.1 hempty).le rfl le_rfl]
    rw [List.range'_eq_nil_iff]
    omega

theorem readChunkHashesParallel_eq (hc : 0 < c) (hcontent : content ≠ []) (run : ThreadRun)
    {nThreads : ℕ} (hthreads : 0 < nThreads) :
    readChunkHashesParallel H run content content.length (chunkCount content.length c) nThreads c =
      (List.range (chunkCount content.length c)).map
        (chunkValue H content c (chunkCount content.length c)) := by
  set n := chunkCount content.length c with hn
  set per := (n + nThreads - 1) / nThreads with hper
  have hthread := fun i => threadHashes_eq H (c := c) hc hcontent per (run.grants i) i
  rw [← hn] at hthread
  unfold readChunkHashesParallel
  simp only [← hper, hthread]
  have hordered : ((List.range nThreads).filterMap fun i =>
      if Workers.share n per i = [] then none
      else some (i, (Workers.share n per i).map (chunkValue H content c n))).Pairwise
        fun a b => a.1 < b.1 := by
    refine List.pairwise_filterMap.2 (List.pairwise_lt_range.imp ?_)
    intro i j hij a ha b hb
    split at ha
    · cases ha
    · split at hb
      · cases hb
      · cases ha
        cases hb
        exact hij
  rw [Workers.sortByKey_of_perm hordered (run.perm _),
    Workers.flatMap_filterMap (g := fun i => (Workers.share n per i).map (chunkValue H content c n)),
    ← List.map_flatMap, Workers.flatMap_share_eq_range (Workers.le_mul_div_ceil n hthreads)]
  intro i
  split
  · next hnil => rw [hnil]; rfl
  · rfl

/-- An empty file is one empty chunk. -/
theorem hashFileWithThreads_nil (o : Overflow) (run : ThreadRun) (nThreads : ℕ) :
    hashFileWithThreads H o run [] 0 c nThreads = (contentTree H c []).map (·.rootHash) := by
  have hn : chunkCount 0 c = 1 := by
    unfold chunkCount
    rcases Nat.eq_zero_or_pos c with rfl | hc
    · rfl
    · rw [Nat.div_eq_of_lt (by omega)]
      rfl
  have htree : contentTree H c [] = H.buildTree [H.chunkHash [] 0 c true] c := by
    simp [contentTree, hn, chunkAt]
  simp only [hashFileWithThreads, htree, if_true]
  cases H.buildTree [H.chunkHash [] 0 c true] c <;> rfl

/-- The root of the hash tree of the content, also when the file is read by threads. -/
theorem hashFileWithThreads_of_pos (o : Overflow) (run : ThreadRun) (content : Bytes) (hc : 0 < c)
    (nThreads : ℕ) :
    hashFileWithThreads H o run content content.length c nThreads =
      (contentTree H c content).map (·.rootHash) := by
  by_cases hempty : content = []
  · subst hempty
    exact hashFileWithThreads_nil H o run nThreads
  · have hpos : content.length ≠ 0 := fun h => hempty (List.length_eq_zero_iff.1 h)
    have hn : (content.length + c - 1) / c = chunkCount content.length c := by
      rw [chunkCount, max_eq_left]
      exact (Nat.one_le_div_iff hc).2 (by omega)
    have hroot : ∀ x : Result HashTree, (x.bind fun tree => .ok tree.rootHash) =
        x.map (·.rootHash) := fun x => by cases x <;> rfl
    unfold hashFileWithThreads contentTree
    rw [if_neg hpos, if_neg hc.ne', hn]
    simp only
    split
    · rw [readChunkHashesSerial_eq H o hc hempty]
      exact hroot _
    · next hmany =>
        rw [readChunkHashesParallel_eq H hc hempty run (by omega)]
        exact hroot _

end Hash

/-- `hash_file_with_threads` gives the root `content_root_hash` computes of the content, whatever
the chunk size, the number of threads and the way they run. -/
theorem hashFileWithThreads_eq (H : ContentHasher) (o : Overflow) (run : ThreadRun)
    (content : Bytes) (chunkSize nThreads : ℕ) :
    hashFileWithThreads H o run content content.length chunkSize nThreads =
      contentRootHash H content chunkSize := by
  have hroot : ∀ x : Result HashTree, x.map (·.rootHash) =
      x.bind fun tree => .ok tree.rootHash := fun x => by cases x <;> rfl
  unfold contentRootHash
  by_cases hempty : content = []
  · subst hempty
    rw [if_neg (fun h => h.1 rfl)]
    exact (hashFileWithThreads_nil H o run nThreads).trans (hroot _)
  · by_cases hc : chunkSize = 0
    · -- a content with bytes in chunks of none
      rw [if_pos ⟨hempty, hc⟩, hashFileWithThreads,
        if_neg fun h => hempty (List.length_eq_zero_iff.1 h), if_pos hc]
    · rw [if_neg fun h => hc h.2, hashFileWithThreads_of_pos H o run content (Nat.pos_of_ne_zero hc)]
      exact hroot _

end Peergos
