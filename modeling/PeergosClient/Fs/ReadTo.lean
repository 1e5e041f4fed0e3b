import PeergosClient.Fs.FileContent
import PeergosClient.Fs.Upload

/-!
# Streaming a file to a sink

`read_file_to` hands the chunks of a file to a sink one after another, up to the size the first
chunk declares.  It stops before that where the next chunk is not in the champ, and says nothing of
it: a read is short exactly of a file with such a gap.
-/

namespace Peergos

/-! ## The model -/

section Defs

variable (H : ContentHasher) {τ : Type} (sink : Bytes → τ → Result τ)

/-- The sink is handed a part of a chunk, unless there is nothing in it. -/
def handOver (part : Bytes) (out : τ) : Result τ := if part = [] then .ok out else sink part out

/-- The loop of `read_file_to` from `node` on; `out` is the state of the sink. -/
def readChunksTo (t : Tree) (rBaseKey : SymmetricKey) (props : FileProperties) :
    ℕ → CryptreeNode → Bytes → Option Bat → ℕ → τ → Result τ
  | 0, _, _, _, _, _ => .error .fuel
  | fuel + 1, node, mapKey, bat, written, out => do
      let dataKey ← node.getDataKey rBaseKey
      let chunk ← getAndDecryptBytes node.childrenOrData dataKey
      let part := chunk.take (min chunk.length (props.size - written))
      let out ← handOver sink part out
      let written := written + part.length
      if props.size ≤ written then pure out
      else
        match props.streamSecret with
        | none => protocolErr "multi-chunk file without a stream secret"
        | some streamSecret => do
            let (mapKey, bat) ← calculateNextMapKey H streamSecret mapKey bat
            match fetchChunkNode t rBaseKey mapKey with
            | some node => readChunksTo t rBaseKey props fuel node mapKey bat written out
            | none => pure out

/-- `read_file_to`. -/
def readFileTo (fuel : ℕ) (net : Network) (cap : AbsoluteCapability) (out : τ) :
    Result (FileProperties × τ) := do
  let t ← openWriterRoot net cap.writer
  match fetchChunkNode t cap.rBaseKey cap.mapKey with
  | none => protocolErr "map key not found in tree"
  | some first =>
      if first.isDirectory then protocolErr "capability points to a directory, not a file"
      else do
        let props ← first.getProperties cap.rBaseKey
        let out ← readChunksTo H sink t cap.rBaseKey props fuel first cap.mapKey cap.bat 0 out
        pure (props, out)

/-- A sink, and what it has been handed. -/
def metered (chunk : Bytes) (s : Bytes × τ) : Result (Bytes × τ) := do
  let out ← sink chunk s.2
  pure (s.1 ++ chunk, out)

/-- The sink of `read_file`. -/
def collecting (chunk data : Bytes) : Result Bytes := .ok (data ++ chunk)

end Defs

section Collect

variable (H : ContentHasher)

theorem handOver_collecting (part data : Bytes) : handOver collecting part data = .ok (data ++ part) := by
  unfold handOver
  split
  · next h => rw [h, List.append_nil]
  · rfl

theorem readChunks_eq_collecting (t : Tree) (rBaseKey : SymmetricKey) (props : FileProperties)
    (fuel : ℕ) (node : CryptreeNode) (mapKey : Bytes) (bat : Option Bat) (written : ℕ)
    (data : Bytes) :
    readChunksTo H collecting t rBaseKey props fuel node mapKey bat written data =
      (readChunks H t rBaseKey props fuel node mapKey bat written).map (data ++ ·) := by
  induction fuel generalizing node mapKey bat written data with
  | zero => rfl
  | succ fuel ih =>
      unfold readChunksTo readChunks
      cases node.getDataKey rBaseKey with
      | error e => rfl
      | ok dataKey =>
          cases hchunk : getAndDecryptBytes node.childrenOrData dataKey with
          | error e => simp [bind, Except.bind, hchunk, Except.map]
          | ok chunk =>
              simp only [bind, Except.bind, hchunk, handOver_collecting]
              split
              · rfl
              · cases props.streamSecret with
                | none => rfl
                | some streamSecret =>
                    cases hnext : calculateNextMapKey H streamSecret mapKey bat with
                    | error e => simp [hnext, Except.map]
                    | ok next =>
                        cases hfetch : fetchChunkNode t rBaseKey next.1 with
                        | none => simp [hnext, hfetch, pure, Except.pure, Except.map]
                        | some node =>
                            simp only [hnext, hfetch, ih]
                            cases readChunks H t rBaseKey props fuel node next.1 next.2 _ with
                            | error e => rfl
                            | ok rest => simp [pure, Except.pure, Except.map]

/-- `read_file` collects what `read_file_to` hands it. -/
theorem readFile_eq_collecting (fuel : ℕ) (net : Network) (cap : AbsoluteCapability) :
    readFileTo H collecting fuel net cap [] = readFile H fuel net cap := by
  have hid : ∀ r : Result Bytes, r.map (fun x => x) = r := fun r => by cases r <;> rfl
  refine congrArg (openWriterRoot net cap.writer >>= ·) (funext fun t => ?_)
  cases fetchChunkNode t cap.rBaseKey cap.mapKey with
  | none => simp only
  | some first => simp only [readChunks_eq_collecting, List.nil_append, hid]

end Collect

/-! ## Gaps -/

/-- What the reader gets from a location. -/
def chunkData (t : Tree) (rBaseKey : SymmetricKey) (mapKey : Bytes) : Option Bytes := do
  let node ← fetchChunkNode t rBaseKey mapKey
  let dataKey ← (node.getDataKey rBaseKey).toOption
  (getAndDecryptBytes node.childrenOrData dataKey).toOption

/-- The chunks from location 0 on that can be read. -/
def ReadableChunks (H : ContentHasher) (t : Tree) (cap : AbsoluteCapability) (streamSecret : Bytes)
    (chunks : List Bytes) : Prop :=
  ∀ i, ∀ h : i < chunks.length,
    chunkData t cap.rBaseKey (chunkKey H streamSecret cap.mapKey i) = some (chunks.get ⟨i, h⟩)

/-- A file whose first chunks can be read and are shorter than the size it declares, with nothing
in the location after them. -/
structure Gap (H : ContentHasher) (net : Network) (cap : AbsoluteCapability) where
  t : Tree
  first : CryptreeNode
  props : FileProperties
  streamSecret : Bytes
  chunks : List Bytes
  tree_eq : net cap.writer = some t
  first_eq : fetchChunkNode t cap.rBaseKey cap.mapKey = some first
  props_eq : first.getProperties cap.rBaseKey = .ok props
  streamSecret_eq : props.streamSecret = some streamSecret
  readable : ReadableChunks H t cap streamSecret chunks
  nonempty : chunks ≠ []
  short : (chunks.map List.length).sum < props.size
  absent : t (chunkKey H streamSecret cap.mapKey chunks.length) = none

/-- Every read that succeeds has handed over as much as the file declares. -/
def NoShortRead (H : ContentHasher) (net : Network) (cap : AbsoluteCapability) : Prop :=
  ∀ (τ : Type) (sink : Bytes → τ → Result τ) (out : τ) (fuel : ℕ) (props : FileProperties)
    (emitted : Bytes) (out' : τ),
    readFileTo H (metered sink) fuel net cap ([], out) = .ok (props, (emitted, out')) →
      emitted.length = props.size

section Gaps

variable {H : ContentHasher} {net : Network} {cap : AbsoluteCapability} {t : Tree}
  {τ : Type} {sink : Bytes → τ → Result τ}

theorem handOver_metered {part emitted : Bytes} {out : τ} {s : Bytes × τ}
    (h : handOver (metered sink) part (emitted, out) = .ok s) : s.1 = emitted ++ part := by
  unfold handOver at h
  split at h
  · next hnil =>
      cases h
      rw [hnil, List.append_nil]
  · obtain ⟨out', -, hs⟩ := bind_eq_ok.1 h
    cases hs
    rfl

theorem fetchChunkNode_eq_none {rBaseKey : SymmetricKey} {mapKey : Bytes} :
    fetchChunkNode t rBaseKey mapKey = none ↔ t mapKey = none := by
  simp [fetchChunkNode]

theorem chunkData_eq_some {rBaseKey : SymmetricKey} {mapKey data : Bytes} :
    chunkData t rBaseKey mapKey = some data ↔
      ∃ node dataKey, fetchChunkNode t rBaseKey mapKey = some node ∧
        node.getDataKey rBaseKey = .ok dataKey ∧
        getAndDecryptBytes node.childrenOrData dataKey = .ok data := by
  have htop : ∀ {α : Type} {r : Result α} {a : α}, r.toOption = some a ↔ r = .ok a := by
    intro α r a
    cases r <;> simp [Except.toOption]
  simp [chunkData, Option.bind_eq_some_iff, htop]

/-- Chunks read one after another. -/
theorem ReadableChunks.concat {streamSecret data : Bytes} {chunks : List Bytes}
    (h : ReadableChunks H t cap streamSecret chunks)
    (hdata : chunkData t cap.rBaseKey (chunkKey H streamSecret cap.mapKey chunks.length) =
      some data) : ReadableChunks H t cap streamSecret (chunks ++ [data]) := by
  intro i hi
  rw [List.length_append, List.length_singleton] at hi
  by_cases hlt : i < chunks.length
  · rw [h i hlt]
    simp [List.getElem_append_left hlt]
  · obtain rfl : i = chunks.length := by omega
    rw [hdata]
    simp

/-- From a chunk on: the chunks before it have been handed over whole, and are shorter than the
file. -/
theorem readChunksTo_emits {props : FileProperties}
    (hnogap : ∀ streamSecret, props.streamSecret = some streamSecret → ∀ chunks,
      chunks ≠ [] → ReadableChunks H t cap streamSecret chunks →
      (chunks.map List.length).sum < props.size →
      t (chunkKey H streamSecret cap.mapKey chunks.length) ≠ none)
    {streamSecret : Bytes} {chunks : List Bytes}
    (hsecret : ∀ s, props.streamSecret = some s → s = streamSecret)
    (hchunks : ReadableChunks H t cap streamSecret chunks)
    {fuel : ℕ} {node : CryptreeNode} {emitted : Bytes} {out : τ} {s : Bytes × τ}
    (hnode : fetchChunkNode t cap.rBaseKey (chunkKey H streamSecret cap.mapKey chunks.length) =
      some node)
    (hemitted : emitted.length = (chunks.map List.length).sum)
    (hle : (chunks.map List.length).sum ≤ props.size)
    (hrun : readChunksTo H (metered sink) t cap.rBaseKey props fuel node
      (chunkKey H streamSecret cap.mapKey chunks.length)
      (chunkBat H streamSecret cap.bat chunks.length) emitted.length (emitted, out) = .ok s) :
    s.1.length = props.size := by
  induction fuel generalizing chunks node emitted out with
  | zero => cases hrun
  | succ fuel ih =>
      unfold readChunksTo at hrun
      obtain ⟨dataKey, hkey, hrun⟩ := bind_eq_ok.1 hrun
      obtain ⟨chunk, hchunk, hrun⟩ := bind_eq_ok.1 hrun
      obtain ⟨⟨emitted', out'⟩, hhand, hrun⟩ := bind_eq_ok.1 hrun
      obtain rfl : emitted' = _ := handOver_metered hhand
      have hlen : (chunk.take (min chunk.length (props.size - emitted.length))).length =
          min chunk.length (props.size - emitted.length) :=
        List.length_take_of_le (Nat.min_le_left _ _)
      rw [hlen] at hrun
      dsimp only at hrun
      by_cases hend : props.size ≤
          emitted.length + min chunk.length (props.size - emitted.length)
      · rw [if_pos hend] at hrun
        cases hrun
        rw [List.length_append, hlen]
        omega
      · rw [if_neg hend] at hrun
        -- the chunk has been handed over whole
        have hwhole : min chunk.length (props.size - emitted.length) = chunk.length := by omega
        rw [hwhole, List.take_length] at hrun
        split at hrun
        · cases hrun
        · next streamSecret' hsome =>
            obtain rfl := hsecret streamSecret' hsome
            have hdata := hchunks.concat (chunkData_eq_some.2 ⟨node, dataKey, hnode, hkey, hchunk⟩)
            have hlength : (chunks ++ [chunk]).length = chunks.length + 1 := by simp
            have hsum : ((chunks ++ [chunk]).map List.length).sum = (emitted ++ chunk).length := by
              simp [hemitted]
            have hpresent := hnogap streamSecret' hsome (chunks ++ [chunk]) (by simp) hdata
              (by rw [hsum, List.length_append]; omega)
            rw [calculateNextMapKey_chunk] at hrun
            dsimp only [bind, Except.bind] at hrun
            cases hnode' : fetchChunkNode t cap.rBaseKey
                (chunkKey H streamSecret' cap.mapKey (chunks.length + 1)) with
            | none => exact absurd (fetchChunkNode_eq_none.1 hnode') (hlength ▸ hpresent)
            | some node' =>
                rw [hnode'] at hrun
                rw [← hlength] at hnode' hrun
                rw [← List.length_append] at hrun
                exact ih hdata hnode' hsum.symm (by rw [hsum, List.length_append]; omega) hrun

theorem handOver_metered_collecting (part emitted : Bytes) :
    handOver (metered collecting) part (emitted, emitted) = .ok (emitted ++ part, emitted ++ part) := by
  unfold handOver
  split
  · next h => rw [h, List.append_nil]
  · rfl

/-- One round of the loop, on a chunk that is handed over whole and is not the end of the file. -/
theorem readChunksTo_succ {props : FileProperties} {streamSecret data emitted : Bytes}
    (hsecret : props.streamSecret = some streamSecret) {i : ℕ}
    (hdata : chunkData t cap.rBaseKey (chunkKey H streamSecret cap.mapKey i) = some data)
    (hmore : emitted.length + data.length < props.size) {fuel : ℕ} {node : CryptreeNode}
    (hnode : fetchChunkNode t cap.rBaseKey (chunkKey H streamSecret cap.mapKey i) = some node) :
    readChunksTo H (metered collecting) t cap.rBaseKey props (fuel + 1) node
        (chunkKey H streamSecret cap.mapKey i) (chunkBat H streamSecret cap.bat i) emitted.length
        (emitted, emitted) =
      match fetchChunkNode t cap.rBaseKey (chunkKey H streamSecret cap.mapKey (i + 1)) with
      | some next => readChunksTo H (metered collecting) t cap.rBaseKey props fuel next
          (chunkKey H streamSecret cap.mapKey (i + 1)) (chunkBat H streamSecret cap.bat (i + 1))
          (emitted ++ data).length (emitted ++ data, emitted ++ data)
      | none => .ok (emitted ++ data, emitted ++ data) := by
  obtain ⟨node', dataKey, hnode', hkey, hchunk⟩ := chunkData_eq_some.1 hdata
  obtain rfl : node = node' := Option.some.inj (hnode.symm.trans hnode')
  have hwhole : data.take (min data.length (props.size - emitted.length)) = data :=
    List.take_of_length_le (by omega)
  have hnext := calculateNextMapKey_chunk H streamSecret cap.mapKey cap.bat i
  rw [readChunksTo, hkey]
  simp only [bind, Except.bind, hchunk, hwhole, handOver_metered_collecting,
    if_neg (not_le.2 hmore), hsecret, hnext, List.length_append]
  rfl

theorem flatten_take_succ {chunks : List Bytes} {i : ℕ} (h : i < chunks.length) :
    (chunks.take (i + 1)).flatten = (chunks.take i).flatten ++ chunks[i] := by
  rw [List.take_succ_eq_append_getElem h, List.flatten_append, List.flatten_singleton]

/-- A read that meets a gap stops there. -/
theorem readChunksTo_gap {props : FileProperties} {streamSecret : Bytes} {chunks : List Bytes}
    (hsecret : props.streamSecret = some streamSecret)
    (hchunks : ReadableChunks H t cap streamSecret chunks)
    (hshort : (chunks.map List.length).sum < props.size)
    (habsent : t (chunkKey H streamSecret cap.mapKey chunks.length) = none)
    {fuel i : ℕ} {node : CryptreeNode} (hi : i + (fuel + 1) = chunks.length)
    (hnode : fetchChunkNode t cap.rBaseKey (chunkKey H streamSecret cap.mapKey i) = some node)
    {emitted : Bytes} (hemitted : emitted = (chunks.take i).flatten) :
    readChunksTo H (metered collecting) t cap.rBaseKey props (fuel + 1) node
        (chunkKey H streamSecret cap.mapKey i) (chunkBat H streamSecret cap.bat i) emitted.length
        (emitted, emitted) = .ok (chunks.flatten, chunks.flatten) := by
  induction fuel generalizing i node emitted with
  | zero =>
      have hlt : i < chunks.length := by omega
      have hall : emitted ++ chunks[i] = chunks.flatten := by
        rw [hemitted, ← flatten_take_succ hlt, List.take_of_length_le (by omega)]
      have hmore : emitted.length + chunks[i].length < props.size := by
        rwa [← List.length_append, hall, List.length_flatten]
      rw [readChunksTo_succ hsecret (hchunks i hlt) hmore hnode, show i + 1 = chunks.length from hi,
        fetchChunkNode_eq_none.2 habsent]
      exact congrArg _ (Prod.ext hall hall)
  | succ fuel ih =>
      have hlt : i < chunks.length := by omega
      have hemitted' : emitted ++ chunks[i] = (chunks.take (i + 1)).flatten := by
        rw [hemitted, flatten_take_succ hlt]
      have hmore : emitted.length + chunks[i].length < props.size := by
        rw [← List.length_append, hemitted', List.length_flatten]
        refine lt_of_le_of_lt ?_ hshort
        exact ((List.take_sublist _ _).map _).sum_le_sum fun _ _ => Nat.zero_le _
      obtain ⟨node', _, hnode', -⟩ := chunkData_eq_some.1 (hchunks (i + 1) (by omega))
      rw [readChunksTo_succ hsecret (hchunks i hlt) hmore hnode, hnode']
      exact ih (by omega) hnode' hemitted'

/-- A file with a gap is read short. -/
theorem Gap.not_noShortRead (gap : Gap H net cap) : ¬NoShortRead H net cap := by
  intro h
  have hpos : gap.chunks.length ≠ 0 := fun h0 => gap.nonempty (List.length_eq_zero_iff.1 h0)
  obtain ⟨n, hn⟩ := Nat.exists_eq_add_one_of_ne_zero hpos
  have hfirst := gap.readable 0 (by omega)
  obtain ⟨node, dataKey, hnode, hkey, -⟩ := chunkData_eq_some.1 hfirst
  obtain rfl : gap.first = node := Option.some.inj (gap.first_eq.symm.trans hnode)
  have hfile : gap.first.isDirectory = false := by
    by_contra hdir
    rw [Bool.not_eq_false] at hdir
    rw [CryptreeNode.getDataKey, hdir] at hkey
    cases hkey
  have hread : readChunksTo H (metered collecting) gap.t cap.rBaseKey gap.props (n + 1) gap.first
      (chunkKey H gap.streamSecret cap.mapKey 0) (chunkBat H gap.streamSecret cap.bat 0)
      ([] : Bytes).length ([], []) = .ok (gap.chunks.flatten, gap.chunks.flatten) :=
    readChunksTo_gap gap.streamSecret_eq gap.readable gap.short gap.absent (by omega) hnode rfl
  have hrun : readFileTo H (metered collecting) (n + 1) net cap ([], []) =
      .ok (gap.props, (gap.chunks.flatten, gap.chunks.flatten)) := by
    unfold readFileTo
    simp only [openWriterRoot, gap.tree_eq, gap.first_eq, gap.props_eq, hfile, bind, Except.bind,
      Bool.false_eq_true, if_false]
    rw [show readChunksTo H (metered collecting) gap.t cap.rBaseKey gap.props (n + 1) gap.first
      cap.mapKey cap.bat 0 ([], []) = _ from hread]
    rfl
  have hlen := h Bytes collecting [] (n + 1) gap.props _ _ hrun
  have hshort := gap.short
  rw [List.length_flatten] at hlen
  omega

/-- `read_file_to` reads no file short exactly if the file has no gap. -/
theorem noShortRead_iff (H : ContentHasher) (net : Network) (cap : AbsoluteCapability) :
    NoShortRead H net cap ↔ IsEmpty (Gap H net cap) := by
  constructor
  · exact fun h => ⟨fun gap => gap.not_noShortRead h⟩
  · intro hnone τ sink out fuel props emitted out' hrun
    unfold readFileTo at hrun
    obtain ⟨t, htree, hrun⟩ := bind_eq_ok.1 hrun
    have hnet : net cap.writer = some t := by
      unfold openWriterRoot at htree
      split at htree
      · cases htree
        assumption
      · cases htree
    cases hfirst : fetchChunkNode t cap.rBaseKey cap.mapKey with
    | none =>
        rw [hfirst] at hrun
        cases hrun
    | some first =>
        rw [hfirst] at hrun
        dsimp only at hrun
        split at hrun
        · cases hrun
        · obtain ⟨props', hprops, hrun⟩ := bind_eq_ok.1 hrun
          obtain ⟨s, hread, hs⟩ := bind_eq_ok.1 hrun
          cases hs
          have hread' : readChunksTo H (metered sink) t cap.rBaseKey props fuel first
              (chunkKey H (props.streamSecret.getD []) cap.mapKey ([] : List Bytes).length)
              (chunkBat H (props.streamSecret.getD []) cap.bat ([] : List Bytes).length)
              ([] : Bytes).length ([], out) = .ok (emitted, out') := hread
          refine readChunksTo_emits
            (fun streamSecret hsecret chunks hne hreadable hshort habsent => ?_) ?_ ?_ hfirst rfl
            (Nat.zero_le _) hread'
          · exact hnone.false ⟨t, first, props, streamSecret, chunks, hnet, hfirst, hprops, hsecret,
              hreadable, hne, hshort, habsent⟩
          · intro s hs
            rw [hs]
            rfl
          · exact fun i hi => absurd hi (Nat.not_lt_zero i)

end Gaps

/-! ## A lost chunk -/

/-- The properties of a file of two bytes. -/
def lostProps : FileProperties :=
  .newFile "a" "text/plain" 2 0 (List.replicate 32 10) none

/-- A network with the first chunk of the file, which has one of them. -/
def lostNetwork : Network := fun w =>
  if w = rootFileCap.writer then some fun k =>
    if k = rootFileCap.mapKey then
      some ⟨[], .build rootFileCap.rBaseKey ⟨byteSymmetricKey 9, none,
          .subsequentChunk (List.replicate 32 6) none rootFileCap.rBaseKey⟩,
        .build rootFileCap.rBaseKey ⟨none, lostProps⟩, .build (byteSymmetricKey 9) (.data [1])⟩
    else none
  else none

/-- The second chunk is not in the champ. -/
theorem lostChunk_absent :
    chunkKey legacyHasher (List.replicate 32 10) rootFileCap.mapKey 1 ≠ rootFileCap.mapKey := by
  decide +kernel

/-- A file that has lost its second chunk is read as its first one. -/
theorem lostChunk_read_short : ¬NoShortRead legacyHasher lostNetwork rootFileCap :=
  Gap.not_noShortRead
    { t := _, first := _, props := lostProps, streamSecret := List.replicate 32 10, chunks := [[1]]
      tree_eq := rfl
      first_eq := rfl
      props_eq := rfl
      streamSecret_eq := rfl
      readable := by
        rintro i hi
        obtain rfl : i = 0 := Nat.lt_one_iff.1 hi
        rfl
      nonempty := List.cons_ne_nil _ _
      short := by decide
      absent := if_neg lostChunk_absent }

end Peergos
