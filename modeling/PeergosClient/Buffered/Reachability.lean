import PeergosClient.Buffered.Blocks
import PeergosClient.Lib.Search

/-!
# What hangs off a root

`reachable` is a search of the graph of buffered blocks, and finds exactly what the roots reach
through them.  `partitionByRoot` gives each of an owner's blocks to the first root that reaches it.
The search does not mind whose blocks it passes, so a block may hang off its root by way of blocks
of other owners, which are in no part.
-/

namespace Peergos

namespace BufferedStorage

open Search (Reach Path)

/-- The buffered blocks as a graph, the links of each in the order they are popped. -/
def graph (b : BufferedStorage) : List (Cid × List Cid) :=
  b.buffer.map fun e => (e.1, (blockLinks e.2.data e.2.isRaw).reverse)

/-- A root reaches a buffered block through buffered blocks. -/
def Reaches (b : BufferedStorage) (roots : List Cid) (cid : Cid) : Prop :=
  Reach b.graph (fun r => r ∈ roots) cid

section Search

variable {b : BufferedStorage}

theorem successors_graph (cid : Cid) : Search.successors b.graph cid =
    (b.lookup cid).map fun block => (blockLinks block.data block.isRaw).reverse := by
  unfold Search.successors graph lookup
  rw [List.find?_map, Option.map_map, Option.map_map]
  rfl

theorem isSome_successors (cid : Cid) :
    (Search.successors b.graph cid).isSome ↔ ∃ block, b.lookup cid = some block := by
  rw [successors_graph, Option.isSome_map, Option.isSome_iff_exists]

theorem reachableLoop_eq (pops : ℕ) (keep stack : List Cid) :
    b.reachableLoop pops keep stack = Search.search b.graph pops keep stack := by
  induction pops generalizing keep stack with
  | zero => rfl
  | succ pops ih =>
      cases stack with
      | nil => rfl
      | cons cid stack =>
          unfold reachableLoop Search.search
          rw [successors_graph]
          cases b.lookup cid with
          | none => simp only [ih, Option.map_none]
          | some block => simp only [ih, Option.map_some]

/-- `reachable` finds what the roots reach, each block once. -/
theorem reachable_spec (b : BufferedStorage) (roots : List Cid) :
    (b.reachable roots).Nodup ∧ ∀ cid, cid ∈ b.reachable roots ↔ b.Reaches roots cid := by
  unfold reachable
  rw [reachableLoop_eq]
  have hedges : (b.graph.map fun e => e.2.length).sum =
      (b.buffer.map fun e => (blockLinks e.2.data e.2.isRaw).length).sum := by
    unfold graph
    rw [List.map_map]
    congr 1
    refine List.map_congr_left ?_
    intro e _
    simp
  have hpops : roots.reverse.length + (b.graph.map fun e => e.2.length).sum ≤
      b.reachablePops roots := by rw [reachablePops, hedges, List.length_reverse]
  obtain ⟨hnodup, hmem⟩ := Search.search_roots_spec hpops
  refine ⟨hnodup, ?_⟩
  intro cid
  rw [hmem]
  exact ⟨fun h => h.mono fun _ => List.mem_reverse.1, fun h => h.mono fun _ => List.mem_reverse.2⟩

end Search

/-! ## The parts of the roots -/

section Partition

variable {b : BufferedStorage} {owner : PublicKeyHash}

/-- Some of the roots reaches the block. -/
def ReachedBy (b : BufferedStorage) (roots : List (Option Cid)) (cid : Cid) : Prop :=
  Reach b.graph (fun r => some r ∈ roots) cid

/-- The block is one of the owner's. -/
def OwnedBy (b : BufferedStorage) (owner : PublicKeyHash) (cid : Cid) : Prop :=
  ∃ block, b.lookup cid = some block ∧ block.owner = owner

/-- What one root claims: the owner's blocks it reaches and none before it has. -/
structure PartOf (b : BufferedStorage) (owner : PublicKeyHash) (before : List (Option Cid))
    (root : Option Cid) (part : List (Cid × BufferedBlock)) : Prop where
  nodup : (part.map Prod.fst).Nodup
  mem : ∀ cid block, (cid, block) ∈ part ↔ b.lookup cid = some block ∧ block.owner = owner ∧
    b.ReachedBy [root] cid ∧ ¬ b.ReachedBy before cid

theorem reachedBy_append (roots roots' : List (Option Cid)) (cid : Cid) :
    b.ReachedBy (roots ++ roots') cid ↔ b.ReachedBy roots cid ∨ b.ReachedBy roots' cid := by
  unfold ReachedBy
  rw [← Search.reach_or]
  simp only [List.mem_append]

theorem reachedBy_nil (cid : Cid) : ¬ b.ReachedBy [] cid :=
  Search.not_reach_of_forall_not fun _ h => List.not_mem_nil h

theorem mem_reachable_root (root : Option Cid) (cid : Cid) :
    cid ∈ (match root with | some r => b.reachable [r] | none => []) ↔ b.ReachedBy [root] cid := by
  cases root with
  | none =>
      refine iff_of_false List.not_mem_nil (Search.not_reach_of_forall_not ?_)
      intro r hr
      simp at hr
  | some r =>
      rw [(b.reachable_spec [r]).2]
      constructor
      · exact fun h => h.mono fun x hx => by simpa using hx
      · exact fun h => h.mono fun x hx => by simpa using hx

/-- One round of the partition. -/
theorem partitionStep_spec {before : List (Option Cid)} {claimed : List Cid}
    (hclaimed : ∀ cid, cid ∈ claimed ↔ b.OwnedBy owner cid ∧ b.ReachedBy before cid)
    (parts : List (List (Cid × BufferedBlock))) (root : Option Cid) :
    ∃ part, b.partitionStep owner (claimed, parts) root =
        (claimed ++ part.map Prod.fst, parts ++ [part]) ∧ b.PartOf owner before root part ∧
      ∀ cid, cid ∈ claimed ++ part.map Prod.fst ↔
        b.OwnedBy owner cid ∧ b.ReachedBy (before ++ [root]) cid := by
  refine ⟨_, rfl, ?_⟩
  have hpart : ∀ cid block,
      (cid, block) ∈ (match root with | some r => b.reachable [r] | none => []).filterMap
          (fun cid => (b.lookup cid).bind fun block =>
            if block.owner = owner ∧ cid ∉ claimed then some (cid, block) else none) ↔
        b.lookup cid = some block ∧ block.owner = owner ∧ b.ReachedBy [root] cid ∧
          ¬ b.ReachedBy before cid := by
    intro cid block
    rw [List.mem_filterMap]
    constructor
    · rintro ⟨cid', hcid', he⟩
      obtain ⟨block', hblock', he⟩ := Option.bind_eq_some_iff.1 he
      split at he
      · rename_i hcond
        cases he
        refine ⟨hblock', hcond.1, (mem_reachable_root root cid).1 hcid', ?_⟩
        intro hbefore
        exact hcond.2 ((hclaimed cid).2 ⟨⟨block, hblock', hcond.1⟩, hbefore⟩)
      · cases he
    · rintro ⟨hblock, howner, hroot, hbefore⟩
      refine ⟨cid, (mem_reachable_root root cid).2 hroot, ?_⟩
      rw [hblock, Option.bind_some, if_pos]
      exact ⟨howner, fun h => hbefore ((hclaimed cid).1 h).2⟩
  refine ⟨⟨?_, hpart⟩, ?_⟩
  · have hnodup : (match root with | some r => b.reachable [r] | none => []).Nodup := by
      cases root with
      | none => exact List.nodup_nil
      | some r => exact (b.reachable_spec [r]).1
    rw [List.Nodup, List.pairwise_map, List.pairwise_filterMap]
    refine hnodup.imp ?_
    intro x y hxy e he e' he' heq
    obtain ⟨bx, -, he⟩ := Option.bind_eq_some_iff.1 he
    obtain ⟨by', -, he'⟩ := Option.bind_eq_some_iff.1 he'
    split at he <;> cases he
    split at he' <;> cases he'
    exact hxy heq
  · intro cid
    rw [List.mem_append, hclaimed, reachedBy_append, List.mem_map]
    constructor
    · rintro (⟨howned, hbefore⟩ | ⟨⟨cid', block⟩, he, rfl⟩)
      · exact ⟨howned, Or.inl hbefore⟩
      · obtain ⟨hblock, howner, hroot, -⟩ := (hpart _ _).1 he
        exact ⟨⟨block, hblock, howner⟩, Or.inr hroot⟩
    · rintro ⟨⟨block, hblock, howner⟩, hreach⟩
      by_cases hbefore : b.ReachedBy before cid
      · exact Or.inl ⟨⟨block, hblock, howner⟩, hbefore⟩
      · exact Or.inr ⟨(cid, block), (hpart _ _).2 ⟨hblock, howner,
          hreach.resolve_left hbefore, hbefore⟩, rfl⟩

/-- Each root gets its part, given the roots before it. -/
theorem foldl_partitionStep (b : BufferedStorage) (owner : PublicKeyHash) (roots : List (Option Cid)) :
    ∃ claimed parts, roots.foldl (b.partitionStep owner) ([], []) = (claimed, parts) ∧
      (∀ cid, cid ∈ claimed ↔ b.OwnedBy owner cid ∧ b.ReachedBy roots cid) ∧
      claimed = parts.flatten.map Prod.fst ∧ parts.length = roots.length ∧
      ∀ (i : ℕ) (part : List (Cid × BufferedBlock)), parts[i]? = some part →
        ∃ root, roots[i]? = some root ∧ b.PartOf owner (roots.take i) root part := by
  induction roots using List.reverseRecOn with
  | nil =>
      refine ⟨[], [], rfl, ?_, rfl, rfl, ?_⟩
      · intro cid
        exact iff_of_false List.not_mem_nil fun h => reachedBy_nil cid h.2
      · intro i part h
        cases h
  | append_singleton roots root ih =>
      obtain ⟨claimed, parts, hfold, hclaimed, hkeys, hlen, hparts⟩ := ih
      obtain ⟨part, hstep, hpart, hclaimed'⟩ := partitionStep_spec hclaimed parts root
      refine ⟨_, _, by rw [List.foldl_append, hfold, List.foldl_cons, List.foldl_nil, hstep],
        hclaimed', by simp [hkeys], by simp [hlen], ?_⟩
      intro i part' hi
      rcases Nat.lt_trichotomy i parts.length with hlt | rfl | hgt
      · rw [List.getElem?_append_left hlt] at hi
        obtain ⟨root', hroot', hpart'⟩ := hparts i part' hi
        refine ⟨root', ?_, ?_⟩
        · rw [List.getElem?_append_left (by omega), hroot']
        · rwa [List.take_append_of_le_length (by omega)]
      · rw [List.getElem?_concat_length] at hi
        cases hi
        refine ⟨root, ?_, ?_⟩
        · rw [hlen, List.getElem?_concat_length]
        · rwa [hlen, List.take_append_of_le_length (le_refl _), List.take_length]
      · rw [List.getElem?_eq_none (by simp; omega)] at hi
        cases hi

theorem partOf_of_getElem? {roots : List (Option Cid)} {i : ℕ}
    {part : List (Cid × BufferedBlock)} (h : (b.partitionByRoot owner roots)[i]? = some part) :
    ∃ root, roots[i]? = some root ∧ b.PartOf owner (roots.take i) root part := by
  obtain ⟨claimed, parts, hfold, -, -, -, hparts⟩ := foldl_partitionStep b owner roots
  unfold partitionByRoot at h
  rw [hfold] at h
  exact hparts i part h

theorem length_partitionByRoot (b : BufferedStorage) (owner : PublicKeyHash)
    (roots : List (Option Cid)) : (b.partitionByRoot owner roots).length = roots.length := by
  obtain ⟨claimed, parts, hfold, -, -, hlen, -⟩ := foldl_partitionStep b owner roots
  unfold partitionByRoot
  rw [hfold]
  exact hlen

theorem ReachedBy.mono {roots roots' : List (Option Cid)} (h : ∀ r ∈ roots, r ∈ roots') {cid : Cid}
    (hc : b.ReachedBy roots cid) : b.ReachedBy roots' cid :=
  Reach.mono (fun _ hr => h _ hr) hc

/-- What a part holds was reached by its root only from there on. -/
theorem reachedBy_of_getElem? {roots : List (Option Cid)} {i : ℕ} {root : Option Cid}
    (h : roots[i]? = some root) {cid : Cid} (hc : b.ReachedBy [root] cid) {j : ℕ} (hij : i < j) :
    b.ReachedBy (roots.take j) cid := by
  refine hc.mono ?_
  intro r hr
  rw [List.mem_singleton.1 hr]
  exact List.mem_of_getElem? ((List.getElem?_take_of_lt hij).trans h)

/-- No block is in two parts. -/
theorem nodup_partitionByRoot (b : BufferedStorage) (owner : PublicKeyHash)
    (roots : List (Option Cid)) :
    ((b.partitionByRoot owner roots).flatten.map Prod.fst).Nodup := by
  rw [List.map_flatten, List.nodup_flatten]
  constructor
  · intro l hl
    obtain ⟨part, hpart, rfl⟩ := List.mem_map.1 hl
    obtain ⟨i, hi⟩ := List.mem_iff_getElem?.1 hpart
    obtain ⟨root, -, h⟩ := partOf_of_getElem? hi
    exact h.nodup
  · rw [List.pairwise_iff_getElem]
    intro i j hi hj hij
    rw [List.length_map] at hi hj
    rw [List.getElem_map, List.getElem_map]
    obtain ⟨root, hroot, hpart⟩ := partOf_of_getElem? (List.getElem?_eq_getElem hi)
    obtain ⟨root', -, hpart'⟩ := partOf_of_getElem? (List.getElem?_eq_getElem hj)
    intro cid hcid hcid'
    obtain ⟨⟨_, block⟩, he, rfl⟩ := List.mem_map.1 hcid
    obtain ⟨⟨c, block'⟩, he', heq⟩ := List.mem_map.1 hcid'
    obtain rfl : c = _ := heq
    have hreach := ((hpart.mem _ _).1 he).2.2.1
    exact ((hpart'.mem _ _).1 he').2.2.2 (reachedBy_of_getElem? hroot hreach hij)

/-- The parts hold the owner's blocks that some root reaches. -/
theorem mem_partitionByRoot (roots : List (Option Cid)) (cid : Cid) (block : BufferedBlock) :
    (cid, block) ∈ (b.partitionByRoot owner roots).flatten ↔
      b.lookup cid = some block ∧ block.owner = owner ∧ b.ReachedBy roots cid := by
  constructor
  · intro h
    obtain ⟨part, hpart, he⟩ := List.mem_flatten.1 h
    obtain ⟨i, hi⟩ := List.mem_iff_getElem?.1 hpart
    obtain ⟨root, hroot, hp⟩ := partOf_of_getElem? hi
    obtain ⟨hblock, howner, hreach, -⟩ := (hp.mem _ _).1 he
    refine ⟨hblock, howner, hreach.mono ?_⟩
    intro r hr
    rw [List.mem_singleton.1 hr]
    exact List.mem_of_getElem? hroot
  · rintro ⟨hblock, howner, hreach⟩
    obtain ⟨claimed, parts, hfold, hclaimed, hkeys, -, hparts⟩ :=
      foldl_partitionStep b owner roots
    have hcid := (hclaimed cid).2 ⟨⟨block, hblock, howner⟩, hreach⟩
    rw [hkeys] at hcid
    obtain ⟨⟨_, block'⟩, he, rfl⟩ := List.mem_map.1 hcid
    obtain ⟨part, hpart, he'⟩ := List.mem_flatten.1 he
    obtain ⟨i, hi⟩ := List.mem_iff_getElem?.1 hpart
    obtain ⟨root, -, hp⟩ := hparts i part hi
    have hlookup := ((hp.mem _ _).1 he').1
    rw [hblock] at hlookup
    cases hlookup
    unfold partitionByRoot
    rw [hfold]
    exact he

end Partition

/-! ## What the parts are -/

/-- What a partition by roots is to be: disjoint parts that hold just the owner's blocks some root
reaches, each of whose blocks hangs off its root through blocks of which `through` is true. -/
structure Partitions (b : BufferedStorage) (owner : PublicKeyHash) (roots : List (Option Cid))
    (parts : List (List (Cid × BufferedBlock)))
    (through : List (Cid × BufferedBlock) → Cid → Prop) : Prop where
  length : parts.length = roots.length
  disjoint : (parts.flatten.map Prod.fst).Nodup
  union : ∀ cid block, (cid, block) ∈ parts.flatten ↔
    b.lookup cid = some block ∧ block.owner = owner ∧ b.ReachedBy roots cid
  hangs : ∀ (i : ℕ) (part : List (Cid × BufferedBlock)) (root : Option Cid),
    parts[i]? = some part → roots[i]? = some root → ∀ e ∈ part,
      Path b.graph (through part) (fun r => root = some r) e.1

/-- A partition gives each of the owner's blocks to the first root that reaches it; on the way from
its root to a block there are only blocks of its part and blocks of other owners. -/
theorem partitionByRoot_partitions (b : BufferedStorage) (owner : PublicKeyHash)
    (roots : List (Option Cid)) :
    b.Partitions owner roots (b.partitionByRoot owner roots) fun part cid =>
      cid ∈ part.map Prod.fst ∨
        ∃ block, b.lookup cid = some block ∧ block.owner ≠ owner := by
  refine ⟨b.length_partitionByRoot owner roots, b.nodup_partitionByRoot owner roots,
    fun cid block => mem_partitionByRoot roots cid block, ?_⟩
  rintro i part root hpart hroot ⟨cid, block⟩ he
  obtain ⟨root', hroot', hp⟩ := partOf_of_getElem? hpart
  rw [hroot] at hroot'
  cases hroot'
  obtain ⟨-, -, hreach, hbefore⟩ := (hp.mem cid block).1 he
  have hreach' : Reach b.graph (fun r => root = some r) cid :=
    Reach.mono (fun r hr => (List.mem_singleton.1 hr).symm) hreach
  refine (hreach'.path_outside hbefore).mono ?_
  rintro x ⟨hx, hx'⟩
  obtain ⟨block', hblock'⟩ := (isSome_successors x).1 hx.isSome
  by_cases howner : block'.owner = owner
  · refine Or.inl (List.mem_map.2 ⟨(x, block'), (hp.mem x block').2 ⟨hblock', howner, ?_, hx'⟩, rfl⟩)
    exact Reach.mono (fun r hr => List.mem_singleton.2 hr.symm) hx
  · exact Or.inr ⟨block', hblock', howner⟩

/-! ## A root of another owner -/

/-- A CID of a repeated byte. -/
def sampleCid (n : UInt8) : Cid := ⟨.v1, .dagCbor, ⟨.sha2_256, List.replicate 32 n, rfl⟩⟩

/-- An owner. -/
def sampleOwner (n : UInt8) : PublicKeyHash := ⟨sampleCid n, Or.inl rfl⟩

/-- A block of owner 2 that links to one of owner 1. -/
def mixedBuffer : BufferedStorage :=
  ⟨[(sampleCid 3, ⟨(CborObject.list [.merkleLink (sampleCid 4).toBytes]).toBytes, [], sampleOwner 2,
      sampleOwner 2, false⟩),
    (sampleCid 4, ⟨CborObject.null.toBytes, [], sampleOwner 1, sampleOwner 1, false⟩)], []⟩

/-- The root is no block of its part, so nothing in the part hangs off it within the part. -/
theorem partitionByRoot_passes_others :
    ¬ mixedBuffer.Partitions (sampleOwner 1) [some (sampleCid 3)]
      (mixedBuffer.partitionByRoot (sampleOwner 1) [some (sampleCid 3)])
      fun part cid => cid ∈ part.map Prod.fst := by
  have hparts : mixedBuffer.partitionByRoot (sampleOwner 1) [some (sampleCid 3)] =
      [[(sampleCid 4, ⟨CborObject.null.toBytes, [], sampleOwner 1, sampleOwner 1, false⟩)]] := by
    decide +kernel
  rw [hparts]
  intro h
  obtain ⟨r, hr, hmem⟩ := (h.hangs 0 _ _ rfl rfl _ (List.mem_singleton_self _)).exists_start
  cases hr
  exact absurd hmem (by decide)

end BufferedStorage

end Peergos
