import PeergosClient.Buffered.Server
import PeergosClient.Buffered.SplitBlocks
import PeergosClient.Lib.Packing

/-!
# Which commits fit the limits

`split` packs greedily, and its two loops are two packings: it fills the last call from the writers'
blocks, each writer's root first, and cuts what is left over into groups and the groups into calls.
Both count bytes and blocks but never the framing, the count for the last call goes no lower than
zero whatever is written ahead, and a call that has no bytes yet takes any group.

A `Cut` says how a commit falls apart without running the loops.  The calls of a commit are within
the limits just when its parts leave room for their framing.
-/

namespace Peergos

open CborObject Packing

variable {signMessage : PublicKeyHash → Bytes → Bytes} {sha256 : Bytes → Bytes}

/-! ## Every call -/

/-- `send_bulk_commit` sends the commit as it is. -/
def BulkCommit.OneCall (c : BulkCommit) : Prop :=
  c.inlineSize ≤ maxBulkInline ∧ c.blockCount + c.preWrittenCount ≤ maxBulkCommitBlocks

instance (c : BulkCommit) : Decidable c.OneCall := inferInstanceAs (Decidable (_ ∧ _))

/-- The calls `send_bulk_commit` makes, in order. -/
def bulkCalls (sha256 : Bytes → Bytes) (nextSequence : PublicKeyHash → Option Int64)
    (commit : BulkCommit) (roots : List (Option Cid)) (tid : TransactionId) :
    Result (List BulkCommit) :=
  if commit.OneCall then .ok [commit]
  else do
    let calls ← split sha256 nextSequence commit roots tid
    .ok (calls.1 ++ [calls.2])

theorem bulkCalls_ok (hsha : ∀ m, (sha256 m).length = 32)
    (nextSequence : PublicKeyHash → Option Int64) (commit : BulkCommit) (roots : List (Option Cid))
    (tid : TransactionId) :
    ∃ calls, bulkCalls sha256 nextSequence commit roots tid = .ok calls := by
  obtain ⟨calls, hcalls⟩ := split_ok hsha nextSequence commit roots tid
  unfold bulkCalls
  split
  · exact ⟨_, rfl⟩
  · rw [hcalls]
    exact ⟨_, rfl⟩

/-- The client with another `bulk_commit`. -/
def Client.withBulkCommit {σ : Type} (c : Client σ)
    (bulkCommit : PublicKeyHash → BulkCommit → Exec σ Fault (List Cid)) : Client σ :=
  { c with target := { c.target with bulkCommit := bulkCommit } }

/-! ## How a commit is cut -/

/-- Blocks that fit the last call next to `pre` blocks written ahead. -/
def FitsLast (pre : ℕ) (blocks : List InlineBlock) : Prop :=
  groupSize blocks ≤ maxBulkInline ∧ blocks.length ≤ maxBulkCommitBlocks - pre

/-- A block that goes into the group before it. -/
def JoinsGroup (group : List InlineBlock) (b : InlineBlock) : Prop :=
  groupSize group + b.data.length ≤ maxBulkInline ∧ group.length < maxBulkCommitBlocks

/-- A group of a writer's blocks. -/
abbrev WriterGroup := PublicKeyHash × List InlineBlock

/-- The bytes of some groups. -/
def loadSize (load : List WriterGroup) : ℕ := (load.map fun g => groupSize g.2).sum

/-- The blocks of some groups. -/
def loadCount (load : List WriterGroup) : ℕ := (load.map fun g => g.2.length).sum

/-- A group that goes into the call before it: a call without bytes takes any. -/
def JoinsLoad (load : List WriterGroup) (g : WriterGroup) : Prop :=
  loadSize load = 0 ∨ (loadSize load + groupSize g.2 ≤ maxBulkInline ∧
    loadCount load + g.2.length ≤ maxBulkCommitBlocks)

/-- A writer of a commit that is split: what the last call takes of its blocks, the rest, and the
groups of the rest. -/
structure WriterCut where
  commit : WriterCommit
  root : Option Cid
  taken : List InlineBlock
  rest : List InlineBlock
  groups : List (List InlineBlock)

/-- The writer in the last call. -/
def WriterCut.last (p : WriterCut) : WriterCommit :=
  { p.commit with
    cborBlocks := dataOf false p.taken
    rawBlocks := dataOf true p.taken
    blockListSignature := none }

/-- A writer's groups, each with the writer. -/
def WriterCut.writerGroups (p : WriterCut) : List WriterGroup :=
  p.groups.map fun g => (p.commit.writer, g)

/-- The blocks of these bytes, under their hashes. -/
def Inlined (sha256 : Bytes → Bytes) (isRaw : Bool) (datas : List Bytes)
    (blocks : List InlineBlock) : Prop :=
  List.Forall₂ (fun data b => buildCid (sha256 data) isRaw = .ok b.cid ∧ b.data = data ∧
    b.isRaw = isRaw) datas blocks

/-- A writer's blocks, its root first. -/
def RootFirst (sha256 : Bytes → Bytes) (w : WriterCommit × Option Cid)
    (ordered : List InlineBlock) : Prop :=
  ∃ cbor raw, Inlined sha256 false w.1.cborBlocks cbor ∧ Inlined sha256 true w.1.rawBlocks raw ∧
    ordered = fromRootFirst (cbor ++ raw) w.2

/-- How a commit is cut when it does not go in one call.  Writer by writer, the last call takes
blocks from the root down as long as they fit; a writer's other blocks come in groups, and the
groups of all writers in loads, one for each call before the last. -/
structure Cut (sha256 : Bytes → Bytes) (commit : BulkCommit) (roots : List (Option Cid))
    (cuts : List WriterCut) (loads : List (List WriterGroup)) : Prop where
  writers : (cuts.map fun p => (p.commit, p.root)) = commit.writers.zip roots
  ordered : ∀ p ∈ cuts, RootFirst sha256 (p.commit, p.root) (p.taken ++ p.rest)
  filled : Fill (FitsLast commit.preWrittenCount) [] (cuts.map fun p => (p.taken, p.rest))
  grouped : ∀ p ∈ cuts, NextFit JoinsGroup p.rest p.groups
  loaded : NextFit JoinsLoad (cuts.flatMap WriterCut.writerGroups) loads

/-! ## Room for the framing -/

/-- The framing of the last call. -/
def lastFrame (signMessage : PublicKeyHash → Bytes → Bytes) (sha256 : Bytes → Bytes)
    (tid : Option TransactionId) (cuts : List WriterCut) : ℕ :=
  BulkCommit.frameSize signMessage sha256 ⟨tid, cuts.map WriterCut.last⟩

/-- The framing of a load sent in one call: no pointers and nothing written ahead, but a signature
for each group. -/
def loadFrame (signMessage : PublicKeyHash → Bytes → Bytes) (sha256 : Bytes → Bytes)
    (tid : TransactionId) (load : List WriterGroup) : ℕ :=
  BulkCommit.frameSize signMessage sha256 ⟨some tid, load.map restCommit⟩

/-- A load leaves room for its framing, and if its first group has no bytes, it still holds no more
blocks than a call may. -/
structure LoadHasRoom (signMessage : PublicKeyHash → Bytes → Bytes) (sha256 : Bytes → Bytes)
    (tid : TransactionId) (load : List WriterGroup) : Prop where
  framing : loadFrame signMessage sha256 tid load + loadSize load ≤ maxBulkCommitSize
  empties : (∀ g ∈ load.head?, groupSize g.2 = 0) → loadCount load ≤ maxBulkCommitBlocks

/-- The parts of a split commit leave room for their framing, and the last names few enough blocks
written ahead. -/
structure PartsHaveRoom (signMessage : PublicKeyHash → Bytes → Bytes) (sha256 : Bytes → Bytes)
    (commit : BulkCommit) (roots : List (Option Cid)) (tid : TransactionId) : Prop where
  pre : commit.preWrittenCount ≤ maxBulkCommitBlocks
  last : ∀ cuts loads, Cut sha256 commit roots cuts loads →
    lastFrame signMessage sha256 commit.tid cuts +
      (cuts.map fun p => groupSize p.taken).sum ≤ maxBulkCommitSize
  loads : ∀ cuts loads, Cut sha256 commit roots cuts loads →
    ∀ load ∈ loads, LoadHasRoom signMessage sha256 tid load

/-- There is room for the framing: in a commit that goes as it is, or in the parts of one that is
split. -/
structure HasRoom (signMessage : PublicKeyHash → Bytes → Bytes) (sha256 : Bytes → Bytes)
    (commit : BulkCommit) (roots : List (Option Cid)) (tid : TransactionId) : Prop where
  whole : commit.OneCall →
    commit.frameSize signMessage sha256 + commit.inlineSize ≤ maxBulkCommitSize
  parts : ¬ commit.OneCall → PartsHaveRoom signMessage sha256 commit roots tid

/-! ## A commit is cut in one way -/

theorem rightUnique_inlined (isRaw : Bool) :
    Relator.RightUnique (Inlined sha256 isRaw) := by
  refine Relator.RightUnique.forall₂ ?_
  rintro data ⟨cid, _, _⟩ ⟨cid', _, _⟩ ⟨hcid, hdata, hraw⟩ ⟨hcid', hdata', hraw'⟩
  have hsame := Except.ok.inj (hcid.symm.trans hcid')
  simp_all

theorem RootFirst.unique {w : WriterCommit × Option Cid} {ordered ordered' : List InlineBlock}
    (h : RootFirst sha256 w ordered) (h' : RootFirst sha256 w ordered') : ordered = ordered' := by
  obtain ⟨cbor, raw, hcbor, hraw, rfl⟩ := h
  obtain ⟨cbor', raw', hcbor', hraw', rfl⟩ := h'
  rw [rightUnique_inlined false hcbor hcbor', rightUnique_inlined true hraw hraw']

theorem groupSize_le_append (blocks more : List InlineBlock) :
    groupSize blocks ≤ groupSize (blocks ++ more) := by
  rw [groupSize_append]
  exact Nat.le_add_right _ _

theorem fitsLast_prefixClosed (pre : ℕ) : PrefixClosed (FitsLast pre) := by
  rintro blocks more ⟨hbytes, hcount⟩
  rw [List.length_append] at hcount
  exact ⟨(groupSize_le_append blocks more).trans hbytes, by omega⟩

/-- Lists whose entries agree in three ways agree. -/
theorem WriterCut.eq_of_maps {cuts cuts' : List WriterCut}
    (hwriters : (cuts.map fun p => (p.commit, p.root)) = cuts'.map fun p => (p.commit, p.root))
    (hparts : (cuts.map fun p => (p.taken, p.rest)) = cuts'.map fun p => (p.taken, p.rest))
    (hgroups : ∀ p ∈ cuts, ∀ p' ∈ cuts', p.rest = p'.rest → p.groups = p'.groups) :
    cuts = cuts' := by
  induction cuts generalizing cuts' with
  | nil => simpa using hwriters
  | cons p cuts ih =>
      cases cuts' with
      | nil => simp at hwriters
      | cons p' cuts' =>
          simp only [List.map_cons, List.cons.injEq, Prod.mk.injEq] at hwriters hparts
          obtain ⟨⟨hcommit, hroot⟩, hwriters⟩ := hwriters
          obtain ⟨⟨htaken, hrest⟩, hparts⟩ := hparts
          have hsame := hgroups p List.mem_cons_self p' List.mem_cons_self hrest
          have htail := ih hwriters hparts fun q hq q' hq' =>
            hgroups q (List.mem_cons_of_mem _ hq) q' (List.mem_cons_of_mem _ hq')
          obtain ⟨⟩ := p
          obtain ⟨⟩ := p'
          simp_all

/-- The writers' queues are the same in two cuts of a commit. -/
theorem queues_eq {cuts cuts' : List WriterCut}
    (hwriters : (cuts.map fun p => (p.commit, p.root)) = cuts'.map fun p => (p.commit, p.root))
    (hordered : ∀ p ∈ cuts, RootFirst sha256 (p.commit, p.root) (p.taken ++ p.rest))
    (hordered' : ∀ p ∈ cuts', RootFirst sha256 (p.commit, p.root) (p.taken ++ p.rest)) :
    (cuts.map fun p => p.taken ++ p.rest) = cuts'.map fun p => p.taken ++ p.rest := by
  induction cuts generalizing cuts' with
  | nil =>
      obtain rfl : cuts' = [] := by simpa using hwriters.symm
      rfl
  | cons p cuts ih =>
      cases cuts' with
      | nil => simp at hwriters
      | cons p' cuts' =>
          rw [List.map_cons, List.map_cons, List.cons.injEq] at hwriters
          rw [List.forall_mem_cons] at hordered hordered'
          have hhead := hordered.1
          rw [hwriters.1] at hhead
          rw [List.map_cons, List.map_cons, hhead.unique hordered'.1,
            ih hwriters.2 hordered.2 hordered'.2]

section Unique

variable {commit : BulkCommit} {roots : List (Option Cid)}

/-- There is no other cut. -/
theorem Cut.unique {cuts cuts' : List WriterCut} {loads loads' : List (List WriterGroup)}
    (h : Cut sha256 commit roots cuts loads) (h' : Cut sha256 commit roots cuts' loads') :
    cuts = cuts' ∧ loads = loads' := by
  have hwriters := h.writers.trans h'.writers.symm
  have hqueues := queues_eq hwriters h.ordered h'.ordered
  have hparts := h.filled.unique (fitsLast_prefixClosed _) h'.filled (by
    rw [List.map_map, List.map_map]
    exact hqueues)
  obtain rfl : cuts = cuts' := by
    refine WriterCut.eq_of_maps hwriters hparts fun p hp p' hp' hrest => ?_
    have hgroups := h.grouped p hp
    rw [hrest] at hgroups
    exact hgroups.unique (h'.grouped p' hp')
  exact ⟨rfl, h.loaded.unique h'.loaded⟩

end Unique

/-! ## The first loop fills the last call -/

theorem inlined_of_mapM {isRaw : Bool} {datas : List Bytes} {blocks : List InlineBlock}
    (h : (datas.mapM fun data => do
      let cid ← liftMf (buildCid (sha256 data) isRaw)
      .ok (⟨cid, data, isRaw⟩ : InlineBlock)) = .ok blocks) :
    Inlined sha256 isRaw datas blocks := by
  induction datas generalizing blocks with
  | nil =>
      cases h
      exact .nil
  | cons data datas ih =>
      rw [List.mapM_cons] at h
      obtain ⟨b, hb, h⟩ := bind_eq_ok.1 h
      obtain ⟨cid, hcid, hb⟩ := bind_eq_ok.1 hb
      obtain ⟨rest, hrest, h⟩ := bind_eq_ok.1 h
      cases hb
      cases h
      exact .cons ⟨liftMf_eq_ok hcid, rfl, rfl⟩ (ih hrest)

/-- The block the loop stops at is over one of the budgets. -/
theorem takeWithin_stops {budget countBudget budget' countBudget' : ℕ}
    {blocks taken rest : List InlineBlock}
    (h : takeWithin budget countBudget blocks = (taken, rest, budget', countBudget')) :
    ∀ b ∈ rest.head?, ¬ (b.data.length ≤ budget' ∧ 0 < countBudget') := by
  induction blocks generalizing budget countBudget taken with
  | nil =>
      cases h
      simp
  | cons b blocks ih =>
      rw [takeWithin] at h
      split at h
      · rcases hrest : takeWithin (budget - b.data.length) (countBudget - 1) blocks with
          ⟨taken₁, rest₁, budget₁, countBudget₁⟩
        rw [hrest] at h
        cases h
        exact ih hrest
      · next hover =>
          cases h
          intro c hc
          obtain rfl : b = c := by simpa using hc
          exact hover

/-- The budgets of the first loop are what the blocks taken so far leave. -/
structure Budgets (pre : ℕ) (st : SplitLoop) (taken : List InlineBlock) : Prop where
  bytes : groupSize taken + st.budget = maxBulkInline
  count : taken.length + st.countBudget = maxBulkCommitBlocks - pre

/-- The groups of the blocks put off. -/
def deferredWriterGroups (deferred : List (PublicKeyHash × List InlineBlock)) : List WriterGroup :=
  deferred.flatMap fun d => (deferredGroups d.2 [] 0).map fun g => (d.1, g)

/-- A writer in the first loop of `split`. -/
theorem splitWriter_cut {pre : ℕ} {st st' : SplitLoop} {w : WriterCommit × Option Cid}
    {before : List InlineBlock} (hst : Budgets pre st before)
    (h : splitWriter sha256 st w = .ok st') :
    ∃ p : WriterCut, (p.commit, p.root) = w ∧ RootFirst sha256 w (p.taken ++ p.rest) ∧
      p.groups = deferredGroups p.rest [] 0 ∧ FitsLast pre (before ++ p.taken) ∧
      (∀ b ∈ p.rest.head?, ¬ FitsLast pre (before ++ p.taken ++ [b])) ∧
      Budgets pre st' (before ++ p.taken) ∧ st'.lastWriters = st.lastWriters ++ [p.last] ∧
      deferredWriterGroups st'.deferred = deferredWriterGroups st.deferred ++ p.writerGroups := by
  obtain ⟨cbor, hcbor, h⟩ := bind_eq_ok.1 h
  obtain ⟨raw, hraw, h⟩ := bind_eq_ok.1 h
  rcases htake : takeWithin st.budget st.countBudget (fromRootFirst (cbor ++ raw) w.2) with
    ⟨taken, rest, budget, countBudget⟩
  obtain ⟨happ, hbytes, hcount⟩ := takeWithin_eq htake
  have hstops := takeWithin_stops htake
  simp only [htake] at h
  cases h
  have hbytes' : groupSize (before ++ taken) + budget = maxBulkInline := by
    have hall := hst.bytes
    rw [← hbytes] at hall
    rw [groupSize_append]
    change _ + (groupSize taken + budget) = _ at hall
    omega
  have hcount' : (before ++ taken).length + countBudget = maxBulkCommitBlocks - pre := by
    have hall := hst.count
    rw [List.length_append]
    omega
  have hfits : FitsLast pre (before ++ taken) := ⟨by omega, by omega⟩
  have hover : ∀ b ∈ rest.head?, ¬ FitsLast pre (before ++ taken ++ [b]) := by
    rintro b hb ⟨hb₁, hb₂⟩
    have hone : groupSize [b] = b.data.length := by simp [groupSize]
    rw [groupSize_append, hone] at hb₁
    rw [List.length_append, List.length_singleton] at hb₂
    exact hstops b hb ⟨by omega, by omega⟩
  refine ⟨⟨w.1, w.2, taken, rest, deferredGroups rest [] 0⟩, rfl,
    ⟨cbor, raw, inlined_of_mapM hcbor, inlined_of_mapM hraw, happ⟩, rfl, hfits, hover,
    ⟨hbytes', hcount'⟩, rfl, ?_⟩
  · show deferredWriterGroups (if rest = [] then st.deferred
      else st.deferred ++ [(w.1.writer, rest)]) = _
    split
    · next hnil => simp [WriterCut.writerGroups, hnil, deferredGroups]
    · simp [deferredWriterGroups, WriterCut.writerGroups]

theorem splitLoop_cut {pre : ℕ} {ws : List (WriterCommit × Option Cid)} {st st' : SplitLoop}
    {before : List InlineBlock} (hst : Budgets pre st before)
    (h : ws.foldlM (splitWriter sha256) st = .ok st') :
    ∃ cuts : List WriterCut, (cuts.map fun p => (p.commit, p.root)) = ws ∧
      (∀ p ∈ cuts, RootFirst sha256 (p.commit, p.root) (p.taken ++ p.rest)) ∧
      (∀ p ∈ cuts, p.groups = deferredGroups p.rest [] 0) ∧
      Fill (FitsLast pre) before (cuts.map fun p => (p.taken, p.rest)) ∧
      st'.lastWriters = st.lastWriters ++ cuts.map WriterCut.last ∧
      deferredWriterGroups st'.deferred =
        deferredWriterGroups st.deferred ++ cuts.flatMap WriterCut.writerGroups := by
  induction ws generalizing st before with
  | nil =>
      cases h
      exact ⟨[], rfl, by simp, by simp, .nil before, by simp, by simp⟩
  | cons w ws ih =>
      rw [List.foldlM_cons] at h
      obtain ⟨st₁, hstep, hloop⟩ := bind_eq_ok.1 h
      obtain ⟨p, rfl, hordered, hgroups, hfits, hrest, hst₁, hlast, hdeferred⟩ :=
        splitWriter_cut hst hstep
      obtain ⟨cuts, hcuts, hordereds, hgroupeds, hfill, hlasts, hdeferreds⟩ := ih hst₁ hloop
      refine ⟨p :: cuts, by rw [List.map_cons, hcuts], ?_, ?_, .cons hfits hrest hfill, ?_, ?_⟩
      · rw [List.forall_mem_cons]
        exact ⟨hordered, hordereds⟩
      · rw [List.forall_mem_cons]
        exact ⟨hgroups, hgroupeds⟩
      · rw [hlasts, hlast, List.map_cons, List.append_assoc, List.singleton_append]
      · rw [hdeferreds, hdeferred, List.flatMap_cons, List.append_assoc]

/-! ## The groups and the calls are packings -/

theorem nextFit_deferredGroups (blocks : List InlineBlock) {group items : List InlineBlock}
    {packs : List (List InlineBlock)} (hgroup : group ≠ [])
    (h : NextFit JoinsGroup items (packs ++ [group])) :
    NextFit JoinsGroup (items ++ blocks)
      (packs ++ deferredGroups blocks group (groupSize group)) := by
  induction blocks generalizing group items packs with
  | nil =>
      have hlast : deferredGroups [] group (groupSize group) = [group] := by
        cases group with
        | nil => exact absurd rfl hgroup
        | cons => rfl
      rw [hlast, List.append_nil]
      exact h
  | cons b blocks ih =>
      have hone : groupSize [b] = b.data.length := by simp [groupSize]
      have hitems : items ++ b :: blocks = items ++ [b] ++ blocks := by simp
      rw [deferredGroups_cons blocks hgroup, hitems]
      split
      · next hfull =>
          have hopened := h.opened (a := b) (by
            rintro pack hpack ⟨hbytes, hcount⟩
            obtain rfl : group = pack := by simpa using hpack
            omega)
          have hnext := ih (List.cons_ne_nil b []) hopened
          rw [hone] at hnext
          simpa using hnext
      · next hroom =>
          rw [not_or, not_lt, not_le] at hroom
          have hnext := ih (by simp) (h.joined (a := b) hroom)
          rwa [groupSize_append, hone] at hnext

/-- The groups of a writer's blocks. -/
theorem nextFit_groups (blocks : List InlineBlock) :
    NextFit JoinsGroup blocks (deferredGroups blocks [] 0) := by
  cases blocks with
  | nil => exact .nil
  | cons b blocks =>
      have hone : groupSize [b] = b.data.length := by simp [groupSize]
      have hstart : NextFit JoinsGroup [b] ([] ++ [[b]]) :=
        NextFit.nil.opened (a := b) (by simp)
      have hall := nextFit_deferredGroups blocks (List.cons_ne_nil b []) hstart
      rw [hone] at hall
      rw [deferredGroups, if_pos rfl]
      exact hall

section Loads

variable (nextSequence : PublicKeyHash → Option Int64)

/-- A group as it is sent. -/
def WriterGroup.toCommit (g : WriterGroup) : WriterCommit :=
  groupCommit g.1 (nextSequence g.1) g.2

/-- The second loop after some groups: its calls are their loads, and it has counted the last. -/
structure Loading (items : List WriterGroup) (loads : List (List WriterGroup)) (st : CallsLoop) :
    Prop where
  calls : st.calls = loads.map fun load => load.map (WriterGroup.toCommit nextSequence)
  packed : NextFit JoinsLoad items loads
  used : ∀ load ∈ loads.getLast?, loadSize load = st.used ∧ loadCount load = st.count

variable {nextSequence}

@[simp] theorem loadSize_append (load load' : List WriterGroup) :
    loadSize (load ++ load') = loadSize load + loadSize load' := by
  simp [loadSize]

@[simp] theorem loadCount_append (load load' : List WriterGroup) :
    loadCount (load ++ load') = loadCount load + loadCount load' := by
  simp [loadCount]

@[simp] theorem loadSize_singleton (g : WriterGroup) : loadSize [g] = groupSize g.2 := by
  simp [loadSize]

@[simp] theorem loadCount_singleton (g : WriterGroup) : loadCount [g] = g.2.length := by
  simp [loadCount]

/-- A group is added where it belongs. -/
theorem Loading.add {items : List WriterGroup} {loads : List (List WriterGroup)} {st : CallsLoop}
    (h : Loading nextSequence items loads st) (g : WriterGroup) :
    ∃ loads', Loading nextSequence (items ++ [g]) loads'
      (addGroup g.1 (nextSequence g.1) st g.2) := by
  rw [addGroup_eq]
  rcases List.eq_nil_or_concat loads with rfl | ⟨front, load, rfl⟩
  · rw [if_pos (Or.inl (by simpa using h.calls))]
    exact ⟨[[g]], by simp [h.calls, WriterGroup.toCommit], h.packed.opened (by simp), by simp⟩
  · rw [List.concat_eq_append] at h
    obtain ⟨hused, hcount⟩ := h.used load (by simp)
    have hne : st.calls ≠ [] := by simp [h.calls]
    split
    · next hfull =>
        obtain ⟨hpos, hover⟩ := hfull.resolve_left hne
        have hopened := h.packed.opened (a := g) (by
          intro load' hload' hjoins
          obtain rfl : load = load' := by simpa using hload'
          rcases hjoins with hempty | ⟨hbytes, hblocks⟩
          · omega
          · omega)
        exact ⟨_, by simp [h.calls, WriterGroup.toCommit], hopened, by simp⟩
    · next hroom =>
        rw [not_or, not_and, not_or, not_lt, not_lt] at hroom
        have hjoins : JoinsLoad load g := by
          rcases Nat.eq_zero_or_pos st.used with hzero | hpos
          · exact Or.inl (hused.trans hzero)
          · obtain ⟨hbytes, hblocks⟩ := hroom.2 hpos
            exact Or.inr ⟨by omega, by omega⟩
        refine ⟨_, ?_, h.packed.joined hjoins, by simp [hused, hcount]⟩
        simp [h.calls, WriterGroup.toCommit, List.getLastD_eq_getLast?]

/-- All groups are added. -/
theorem Loading.loop {items : List WriterGroup} {loads : List (List WriterGroup)}
    {st : CallsLoop} (h : Loading nextSequence items loads st) (groups : List WriterGroup) :
    ∃ loads', Loading nextSequence (items ++ groups) loads'
      (groups.foldl (fun st g => addGroup g.1 (nextSequence g.1) st g.2) st) := by
  induction groups generalizing items loads st with
  | nil => exact ⟨loads, by simpa using h⟩
  | cons g groups ih =>
      obtain ⟨loads₁, h₁⟩ := h.add g
      obtain ⟨loads₂, h₂⟩ := ih h₁
      rw [List.append_assoc] at h₂
      exact ⟨loads₂, h₂⟩

/-- The loop over writers and their groups is one loop over all groups. -/
theorem foldl_deferred (deferred : List (PublicKeyHash × List InlineBlock)) (st : CallsLoop) :
    deferred.foldl (fun st d =>
        (deferredGroups d.2 [] 0).foldl (addGroup d.1 (nextSequence d.1)) st) st =
      (deferredWriterGroups deferred).foldl
        (fun st g => addGroup g.1 (nextSequence g.1) st g.2) st := by
  induction deferred generalizing st with
  | nil => rfl
  | cons d deferred ih =>
      rw [List.foldl_cons, ih, deferredWriterGroups, deferredWriterGroups, List.flatMap_cons,
        List.foldl_append, List.foldl_map]

end Loads

/-! ## What `split` returns -/

section Split

variable {nextSequence : PublicKeyHash → Option Int64} {commit : BulkCommit}
  {roots : List (Option Cid)} {tid : TransactionId}

/-- The calls of a split commit are its parts. -/
theorem split_cut {calls : List BulkCommit × BulkCommit}
    (h : split sha256 nextSequence commit roots tid = .ok calls) :
    ∃ cuts loads, Cut sha256 commit roots cuts loads ∧
      calls.2 = ⟨commit.tid, cuts.map WriterCut.last⟩ ∧
      calls.1 = loads.map fun load =>
        ⟨some tid, load.map (WriterGroup.toCommit nextSequence)⟩ := by
  obtain ⟨st, hloop, h⟩ := bind_eq_ok.1 h
  cases h
  have hstart : Budgets commit.preWrittenCount
      ⟨maxBulkInline, maxBulkCommitBlocks - commit.preWrittenCount, [], []⟩ [] :=
    ⟨by simp [groupSize], by simp⟩
  obtain ⟨cuts, hwriters, hordered, hgroups, hfill, hlast, hdeferred⟩ :=
    splitLoop_cut hstart hloop
  have hempty : Loading nextSequence [] [] ⟨[], 0, 0⟩ := ⟨rfl, .nil, by simp⟩
  obtain ⟨loads, hloads⟩ := hempty.loop (deferredWriterGroups st.deferred)
  rw [List.nil_append, hdeferred] at hloads
  refine ⟨cuts, loads, ⟨hwriters, hordered, hfill, ?_, hloads.packed⟩, by rw [hlast]; rfl, ?_⟩
  · intro p hp
    rw [hgroups p hp]
    exact nextFit_groups p.rest
  · have hfilter : (loads.map fun load => load.map (WriterGroup.toCommit nextSequence)).filter
        (fun call => call ≠ []) =
          loads.map fun load => load.map (WriterGroup.toCommit nextSequence) := by
      refine List.filter_eq_self.2 fun call hcall => ?_
      obtain ⟨load, hload, rfl⟩ := List.mem_map.1 hcall
      simpa using (hloads.packed.filled load hload).ne_nil
    dsimp only
    rw [foldl_deferred, hdeferred, hloads.calls, hfilter, List.map_map]
    rfl

end Split

/-! ## Within the limits -/

section Limits

variable {commit : BulkCommit} {roots : List (Option Cid)} {tid : TransactionId}

theorem withinLimits_iff (c : BulkCommit) : c.WithinLimits signMessage sha256 ↔
    c.frameSize signMessage sha256 + c.inlineSize ≤ maxBulkCommitSize ∧
      c.blockCount + c.preWrittenCount ≤ maxBulkCommitBlocks := by
  rw [BulkCommit.WithinLimits, BulkCommit.serializedSize_eq]

theorem Cut.map_commit {cuts : List WriterCut} {loads : List (List WriterGroup)}
    (h : Cut sha256 commit roots cuts loads) (hroots : roots.length = commit.writers.length) :
    cuts.map (·.commit) = commit.writers := by
  have hfst := congrArg (List.map Prod.fst) h.writers
  rwa [List.map_map, List.map_fst_zip (by omega)] at hfst

/-- The sizes of the last call. -/
theorem sizes_last (tid : Option TransactionId) (cuts : List WriterCut) :
    BulkCommit.inlineSize ⟨tid, cuts.map WriterCut.last⟩ =
        (cuts.map fun p => groupSize p.taken).sum ∧
      BulkCommit.blockCount ⟨tid, cuts.map WriterCut.last⟩ =
        (cuts.map fun p => p.taken.length).sum ∧
      BulkCommit.preWrittenCount ⟨tid, cuts.map WriterCut.last⟩ =
        ((cuts.map (·.commit)).map fun w => w.preWritten.length).sum := by
  simp only [BulkCommit.inlineSize, BulkCommit.blockCount, BulkCommit.preWrittenCount,
    List.map_map]
  refine ⟨congrArg List.sum (List.map_congr_left fun p _ => ?_),
    congrArg List.sum (List.map_congr_left fun p _ => ?_), rfl⟩
  · exact sum_dataOf List.length p.taken
  · exact length_dataOf p.taken

/-- The last call is within the limits if it has room for its framing and not too much is written
ahead. -/
theorem Cut.withinLimits_last {cuts : List WriterCut} {loads : List (List WriterGroup)}
    (h : Cut sha256 commit roots cuts loads) (hroots : roots.length = commit.writers.length) :
    BulkCommit.WithinLimits signMessage sha256 ⟨commit.tid, cuts.map WriterCut.last⟩ ↔
      commit.preWrittenCount ≤ maxBulkCommitBlocks ∧
        lastFrame signMessage sha256 commit.tid cuts +
          (cuts.map fun p => groupSize p.taken).sum ≤ maxBulkCommitSize := by
  obtain ⟨hbytes, hcount, hpre⟩ := sizes_last commit.tid cuts
  rw [h.map_commit hroots] at hpre
  change _ = commit.preWrittenCount at hpre
  have hfits := h.filled.fits ⟨by simp [groupSize], by simp⟩
  have htaken : (cuts.map fun p => p.taken.length).sum ≤
      maxBulkCommitBlocks - commit.preWrittenCount := by
    have hlen := hfits.2
    rwa [List.nil_append, List.map_map, List.length_flatten, List.map_map] at hlen
  rw [withinLimits_iff, hbytes, hcount, hpre, lastFrame]
  constructor
  · rintro ⟨hsize, hblocks⟩
    exact ⟨by omega, hsize⟩
  · rintro ⟨hblocks, hsize⟩
    exact ⟨hsize, by omega⟩

section Load

variable {nextSequence : PublicKeyHash → Option Int64}

theorem sizes_load (nextSequence : PublicKeyHash → Option Int64) (tid : TransactionId)
    (load : List WriterGroup) :
    BulkCommit.inlineSize ⟨some tid, load.map (WriterGroup.toCommit nextSequence)⟩ =
        loadSize load ∧
      BulkCommit.blockCount ⟨some tid, load.map (WriterGroup.toCommit nextSequence)⟩ =
        loadCount load ∧
      BulkCommit.preWrittenCount ⟨some tid, load.map (WriterGroup.toCommit nextSequence)⟩ = 0 := by
  simp only [BulkCommit.inlineSize, BulkCommit.blockCount, BulkCommit.preWrittenCount,
    List.map_map]
  refine ⟨congrArg List.sum (List.map_congr_left fun g _ => ?_),
    congrArg List.sum (List.map_congr_left fun g _ => ?_), ?_⟩
  · exact inlineSize_groupCommit _ _ _
  · exact blockCount_groupCommit _ _ _
  · refine List.sum_eq_zero fun n hn => ?_
    obtain ⟨g, -, rfl⟩ := List.mem_map.1 hn
    rfl

theorem frameSize_load (hsign : ∀ w m, (signMessage w m).length = 64 + m.length)
    (hsha : ∀ m, (sha256 m).length = 32) (load : List WriterGroup) :
    BulkCommit.frameSize signMessage sha256
        ⟨some tid, load.map (WriterGroup.toCommit nextSequence)⟩ =
      loadFrame signMessage sha256 tid load := by
  have hparts : (load.map (WriterGroup.toCommit nextSequence)).map
      (WriterCommit.frameSize signMessage sha256) =
        (load.map restCommit).map (WriterCommit.frameSize signMessage sha256) := by
    rw [List.map_map, List.map_map]
    exact List.map_congr_left fun g _ => frameSize_groupCommit hsign hsha g.1 _ g.2
  simp only [loadFrame, BulkCommit.frameSize, hparts, List.length_map]

theorem length_le_of_filled {group : List InlineBlock} (h : Filled JoinsGroup group) :
    group.length ≤ maxBulkCommitBlocks := by
  refine h.invariant (P := fun group => group.length ≤ maxBulkCommitBlocks) ?_ ?_
  · intro b
    simp [maxBulkCommitBlocks]
  · rintro group b - ⟨-, hroom⟩
    rw [List.length_append, List.length_singleton]
    exact hroom

/-- A load that starts with some bytes is counted all along. -/
theorem loadCount_le_of_start {load : List WriterGroup} (h : Filled JoinsLoad load)
    (hgroups : ∀ g ∈ load, g.2.length ≤ maxBulkCommitBlocks)
    (hstart : ¬ ∀ g ∈ load.head?, groupSize g.2 = 0) :
    loadCount load ≤ maxBulkCommitBlocks ∧ 0 < loadSize load := by
  induction h with
  | single g =>
      refine ⟨by simpa using hgroups, ?_⟩
      simpa [Nat.pos_iff_ne_zero] using hstart
  | @snoc load g hload hg ih =>
      rw [List.head?_append_of_ne_nil _ hload.ne_nil] at hstart
      obtain ⟨hcount, hpos⟩ := ih (fun g' hg' => hgroups g' (List.mem_append_left _ hg')) hstart
      rw [loadCount_append, loadSize_append, loadCount_singleton, loadSize_singleton]
      rcases hg with hempty | ⟨-, hroom⟩
      · omega
      · exact ⟨hroom, by omega⟩

/-- A call before the last is within the limits if its load has room for the framing. -/
theorem Cut.withinLimits_load (hsign : ∀ w m, (signMessage w m).length = 64 + m.length)
    (hsha : ∀ m, (sha256 m).length = 32) {cuts : List WriterCut} {loads : List (List WriterGroup)}
    (h : Cut sha256 commit roots cuts loads) {load : List WriterGroup} (hload : load ∈ loads) :
    BulkCommit.WithinLimits signMessage sha256
        ⟨some tid, load.map (WriterGroup.toCommit nextSequence)⟩ ↔
      LoadHasRoom signMessage sha256 tid load := by
  obtain ⟨hbytes, hcount, hpre⟩ := sizes_load nextSequence tid load
  rw [withinLimits_iff, hbytes, hcount, hpre, frameSize_load hsign hsha, Nat.add_zero]
  constructor
  · rintro ⟨hsize, hblocks⟩
    exact ⟨hsize, fun _ => hblocks⟩
  · rintro ⟨hsize, hempties⟩
    refine ⟨hsize, ?_⟩
    by_cases hstart : ∀ g ∈ load.head?, groupSize g.2 = 0
    · exact hempties hstart
    · refine (loadCount_le_of_start (h.loaded.filled load hload) ?_ hstart).1
      intro g hg
      have hmem : g ∈ cuts.flatMap WriterCut.writerGroups := by
        rw [← h.loaded.flatten]
        exact List.mem_flatten_of_mem hload hg
      obtain ⟨p, hp, hg'⟩ := List.mem_flatMap.1 hmem
      obtain ⟨group, hgroup, rfl⟩ := List.mem_map.1 hg'
      exact length_le_of_filled ((h.grouped p hp).filled group hgroup)

end Load

variable {nextSequence : PublicKeyHash → Option Int64}

/-- A commit has room for its framing just when every call made of it is within the limits. -/
theorem withinLimits_iff_hasRoom (hsign : ∀ w m, (signMessage w m).length = 64 + m.length)
    (hsha : ∀ m, (sha256 m).length = 32) {calls : List BulkCommit}
    (hroots : roots.length = commit.writers.length)
    (hcalls : bulkCalls sha256 nextSequence commit roots tid = .ok calls) :
    (∀ c ∈ calls, c.WithinLimits signMessage sha256) ↔
      HasRoom signMessage sha256 commit roots tid := by
  rw [bulkCalls] at hcalls
  by_cases hone : commit.OneCall
  · rw [if_pos hone] at hcalls
    cases hcalls
    rw [List.forall_mem_singleton, withinLimits_iff]
    exact ⟨fun h => ⟨fun _ => h.1, fun hmany => absurd hone hmany⟩,
      fun h => ⟨h.whole hone, hone.2⟩⟩
  · rw [if_neg hone] at hcalls
    obtain ⟨pair, hsplit, h⟩ := bind_eq_ok.1 hcalls
    cases h
    obtain ⟨cuts, loads, hcut, hlast, hbefore⟩ := split_cut hsplit
    rw [List.forall_mem_append, List.forall_mem_singleton, hlast, hbefore, List.forall_mem_map,
      hcut.withinLimits_last hroots]
    constructor
    · rintro ⟨hloads, hpre, hroom⟩
      refine ⟨fun h => absurd h hone, fun _ => ⟨hpre, ?_, ?_⟩⟩
      · intro cuts' loads' hcut'
        obtain ⟨rfl, rfl⟩ := hcut.unique hcut'
        exact hroom
      · intro cuts' loads' hcut' load hload
        obtain ⟨rfl, rfl⟩ := hcut.unique hcut'
        exact (hcut.withinLimits_load hsign hsha hload).1 (hloads load hload)
    · intro h
      obtain ⟨hpre, hroom, hloads⟩ := h.parts hone
      refine ⟨fun load hload => ?_, hpre, hroom cuts loads hcut⟩
      exact (hcut.withinLimits_load hsign hsha hload).2 (hloads cuts loads hcut load hload)

/-- A split commit has room if its framing is within the 64 KiB left for it and it has no empty
block. -/
theorem hasRoom_of_framingFits (hsign : ∀ w m, (signMessage w m).length = 64 + m.length)
    (hsha : ∀ m, (sha256 m).length = 32) (hroots : roots.length = commit.writers.length)
    (hunsigned : ∀ w ∈ commit.writers, w.blockListSignature = none)
    (hsize : ∀ w ∈ commit.writers, ∀ b ∈ w.cborBlocks ++ w.rawBlocks, b.length ≤ maxBlockSize)
    (hmany : ¬ commit.OneCall) (hfits : commit.FramingFits signMessage sha256 tid) :
    HasRoom signMessage sha256 commit roots tid := by
  obtain ⟨calls, hsplit⟩ := split_ok hsha (fun _ => none) commit roots tid
  have hcalls : bulkCalls sha256 (fun _ => none) commit roots tid = .ok (calls.1 ++ [calls.2]) := by
    rw [bulkCalls, if_neg hmany, hsplit, ok_bind]
  exact (withinLimits_iff_hasRoom hsign hsha hroots hcalls).1
    (withinLimits_of_split hsign hsha hroots hunsigned hsize hfits hsplit)

end Limits

/-! ## `send_bulk_commit` -/

section Send

variable {σ : Type} (c : Client σ)

/-- `send_bulk_commit` passes nothing to `bulk_commit` but these calls. -/
theorem sendBulkCommit_congr (bulkCommit : PublicKeyHash → BulkCommit → Exec σ Fault (List Cid))
    (owner : PublicKeyHash) (commit : BulkCommit) (writes : List WriterUpdate)
    (roots : List (Option Cid))
    (h : ∀ tid, commit.tid.getD tid = tid → ∀ calls,
      bulkCalls c.sha256 (Client.nextSequence writes) commit roots tid = .ok calls →
        ∀ call ∈ calls, bulkCommit owner call = c.target.bulkCommit owner call) :
    (c.withBulkCommit bulkCommit).sendBulkCommit owner commit writes roots =
      c.sendBulkCommit owner commit writes roots := by
  have hforEach : ∀ calls : List BulkCommit,
      (∀ call ∈ calls, bulkCommit owner call = c.target.bulkCommit owner call) →
        Exec.forEach calls (fun call => do
          let _ ← c.await (bulkCommit owner call)
          pure ()) =
        Exec.forEach calls (fun call => do
          let _ ← c.await (c.target.bulkCommit owner call)
          pure ()) := by
    intro calls hcalls
    induction calls with
    | nil => rfl
    | cons call calls ih =>
        rw [List.forall_mem_cons] at hcalls
        rw [Exec.forEach, Exec.forEach, hcalls.1, ih hcalls.2]
  unfold Client.sendBulkCommit
  by_cases hone : commit.inlineSize ≤ maxBulkInline ∧
      commit.blockCount + commit.preWrittenCount ≤ maxBulkCommitBlocks
  · rw [if_pos hone, if_pos hone]
    have htid : commit.tid.getD (commit.tid.getD "") = commit.tid.getD "" := by
      cases commit.tid <;> rfl
    have heq := h _ htid [commit] (if_pos hone) commit (List.mem_singleton_self _)
    change (c.await (bulkCommit owner commit) >>= fun _ => pure ()) = _
    rw [heq]
  · rw [if_neg hone, if_neg hone]
    funext w
    change ((c.splitTid owner commit.tid) >>= _) w = _
    rw [Exec.bind_run, Exec.bind_run]
    rcases hsplitTid : c.splitTid owner commit.tid w with ⟨r, w₁⟩
    cases r with
    | error e => rfl
    | ok tid =>
        have htid : commit.tid.getD tid = tid := by
          cases hcommit : commit.tid with
          | none => rfl
          | some t =>
              rw [hcommit] at hsplitTid
              exact Except.ok.inj (congrArg Prod.fst hsplitTid)
        change (Exec.lift (split c.sha256 (Client.nextSequence writes) commit roots tid) >>= _) w₁ =
          (Exec.lift (split c.sha256 (Client.nextSequence writes) commit roots tid) >>= _) w₁
        rw [Exec.bind_run, Exec.bind_run, Exec.lift_run]
        cases hsplit : split c.sha256 (Client.nextSequence writes) commit roots tid with
        | error e => rfl
        | ok calls =>
            have hcalls : bulkCalls c.sha256 (Client.nextSequence writes) commit roots tid =
                .ok (calls.1 ++ [calls.2]) := by
              rw [bulkCalls, if_neg (show ¬commit.OneCall from hone), hsplit, ok_bind]
            have hsame := h tid htid _ hcalls
            have hloop := hforEach calls.1 fun call hcall =>
              hsame call (List.mem_append_left _ hcall)
            have hlast := hsame calls.2 (by simp)
            change (Exec.forEach calls.1 (fun call => do
                let _ ← c.await (bulkCommit owner call)
                pure ()) >>= fun _ => c.await (bulkCommit owner calls.2) >>= _) w₁ = _
            rw [hloop, hlast]
            rfl

/-- The client whose server refuses a bulk commit over the limits. -/
def Client.limited (signMessage : PublicKeyHash → Bytes → Bytes) : Client σ :=
  c.withBulkCommit fun owner commit =>
    if commit.serializedSize signMessage c.sha256 ≤ maxBulkCommitSize ∧
        commit.blockCount + commit.preWrittenCount ≤ maxBulkCommitBlocks then
      c.target.bulkCommit owner commit
    else Exec.fail (.err (.protocol ("Bulk commit too big: " ++
      toString (commit.serializedSize signMessage c.sha256))))

end Send

theorem length_sampleSign (w : PublicKeyHash) (m : Bytes) :
    (sampleSign w m).length = 64 + m.length := by
  rw [sampleSign, List.length_append, List.length_replicate]

theorem sampleCommit_hasRoom {small : ℕ} (hmany : ¬ (sampleCommit small).OneCall)
    (hpre : (sampleCommit small).preWrittenCount ≤ maxBulkCommitBlocks)
    (hlast : (sampleCommit small).frameSize sampleSign Sha256.sha256 ≤
      maxBulkCommitSize - maxBulkInline)
    (hbefore : ((sampleCommit small).blocksOnly "1").frameSize sampleSign Sha256.sha256 ≤
      maxBulkCommitSize - maxBulkInline) :
    HasRoom sampleSign Sha256.sha256 (sampleCommit small) [some sampleRoot, some sampleRoot]
      "1" := by
  refine hasRoom_of_framingFits length_sampleSign Sha256.length_sha256 rfl ?_ ?_ hmany
    ⟨hpre, ?_, hlast, hbefore⟩
  · intro w hw
    obtain ⟨n, rfl⟩ := exists_of_mem_sampleCommit hw
    rfl
  · intro w hw b hb
    have hmax : 3 ≤ maxBlockSize := by decide
    exact (length_of_mem_sampleCommit hw hb).2.trans hmax
  · intro w hw b hb
    exact List.length_pos_iff.1 (length_of_mem_sampleCommit hw hb).1

/-- A split commit with too much written ahead has no room, whatever else it holds. -/
theorem not_hasRoom_samplePart {n : ℕ} (hn : maxBulkCommitBlocks < n) :
    ¬ HasRoom sampleSign Sha256.sha256 ⟨some "1", [samplePart n]⟩ [some sampleRoot] "1" := by
  intro hroom
  have hpre : BulkCommit.preWrittenCount ⟨some "1", [samplePart n]⟩ = n := by
    simp [BulkCommit.preWrittenCount, samplePart]
  have hmany : ¬ BulkCommit.OneCall ⟨some "1", [samplePart n]⟩ := by
    intro hone
    have hcount := hone.2
    omega
  have hfew := (hroom.parts hmany).pre
  omega

end Peergos
