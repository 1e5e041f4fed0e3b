import PeergosClient.Fs.Resume
import PeergosClient.Fs.SectionRead

/-!
# The search for the first absent chunk, on 64-bit numbers

`binary_search_absent_chunk` with what the search over the naturals leaves out: the arithmetic of
`u64`, which stops or wraps round, and a lookup that is given a batch of map keys with their BATs,
may fail, and changes the state it runs in.

The largest of the products of a round is `7 * n`.  If it fits, the search returns the first absent
chunk, and every probe it asks for is the location of its chunk on the chain from chunk 0.
-/

namespace Peergos

namespace AbsentChunk

/-- The probes of one round. -/
abbrev Probes := List (Bytes × Option Bat)

/-- The arguments that change from call to call. -/
structure Window where
  lo : ℕ
  hi : ℕ
  loMapKey : Bytes
  loBat : Option Bat

section Defs

variable (H : ContentHasher) (o : Overflow) (streamSecret : Bytes)

/-- `probe_indices`. -/
def probeIndices (lo rangeSize batchSize : ℕ) : Result (List ℕ) :=
  (List.range batchSize).mapM fun i : ℕ => do
    let scaled ← o.u64 (i * rangeSize : ℕ)
    o.u64 (lo + scaled / batchSize : ℕ)

/-- `derive_probes_for_indices`. -/
def deriveProbesForIndices : Bytes → Option Bat → ℕ → List ℕ → Result Probes
  | _, _, _, [] => pure []
  | prevKey, prevBat, prevIndex, index :: indices => do
      let steps ← o.u64 (index - prevIndex)
      let next ← advanceMapKey H streamSecret prevKey prevBat steps
      let rest ← deriveProbesForIndices next.1 next.2 index indices
      pure (next :: rest)

/-- The loop over the flags of a round: the first that is false. -/
def firstAbsent (flags : List Bool) : ℕ → ℕ → Result (Option ℕ)
  | 0, _ => pure none
  | remaining + 1, i => do
      let present ← vecGet flags i
      if present then firstAbsent flags remaining (i + 1) else pure (some i)

variable {σ : Type} (lookup : Probes → Exec σ Fault (List Bool))

/-- What a call of `binary_search_absent_chunk` does before it calls itself: it returns an index, or
has a window for the next call. -/
def searchRound (w : Window) : Exec σ Fault (ℕ ⊕ Window) :=
  if w.hi ≤ w.lo then pure (.inl w.lo)
  else do
    let rangeSize := w.hi - w.lo
    let batchSize := min rangeSize probeCount
    let indices ← Exec.lift (probeIndices o w.lo rangeSize batchSize)
    let rest ← Exec.lift
      (deriveProbesForIndices H o streamSecret w.loMapKey w.loBat w.lo indices.tail)
    let probes := (w.loMapKey, w.loBat) :: rest
    let flags ← lookup probes
    let absent ← Exec.lift (firstAbsent flags batchSize 0)
    match absent with
    | some 0 => pure (.inl w.lo)
    | some (i + 1) => do
        let lo ← Exec.lift (vecGet indices i)
        let hi ← Exec.lift (vecGet indices (i + 1))
        let probe ← Exec.lift (vecGet probes i)
        pure (.inr ⟨lo, hi, probe.1, probe.2⟩)
    | none => do
        let newLo ← Exec.lift (vecGet indices (batchSize - 1))
        let next ← Exec.lift (o.u64 (newLo + 1 : ℕ))
        if w.hi ≤ next then pure (.inl w.hi)
        else do
          let probe ← Exec.lift (vecGet probes (batchSize - 1))
          pure (.inr ⟨newLo, w.hi, probe.1, probe.2⟩)

/-- `binary_search_absent_chunk`. -/
def binarySearchAbsentChunk : ℕ → Window → Exec σ Fault ℕ
  | 0, _ => Exec.fail .fuel
  | fuel + 1, w => do
      match ← searchRound H o streamSecret lookup w with
      | .inl index => pure index
      | .inr next => binarySearchAbsentChunk fuel next

/-- A lookup that writes down what it is asked. -/
def logged (probes : Probes) : Exec (σ × List Probes) Fault (List Bool) := do
  Exec.update fun s => (s.1, s.2 ++ [probes])
  Exec.zoom Prod.fst (fun w s => (w, s.2)) (lookup probes)

end Defs

/-! ## One round -/

section Round

variable {H : ContentHasher} {o : Overflow} {streamSecret firstKey : Bytes} {firstBat : Option Bat}
  {lo rangeSize batchSize : ℕ}

/-- The location of chunk `i`, as the chain from chunk 0 has it. -/
def chunkLocation (H : ContentHasher) (streamSecret firstKey : Bytes) (firstBat : Option Bat)
    (i : ℕ) : Bytes × Option Bat :=
  (chunkKey H streamSecret firstKey i, chunkBat H streamSecret firstBat i)

theorem mapM_of_forall {α β : Type} {f : α → Result β} {g : α → β} {l : List α}
    (h : ∀ a ∈ l, f a = .ok (g a)) : l.mapM f = .ok (l.map g) := by
  induction l with
  | nil => rfl
  | cons a l ih =>
      rw [List.forall_mem_cons] at h
      simp [List.mapM_cons, h.1, ih h.2, pure, Except.pure]

/-- The products of a round fit when seven times its range does. -/
theorem probeIndices_eq (hb : batchSize = min rangeSize probeCount) (hr : 0 < rangeSize)
    (hfit : 7 * rangeSize < 2 ^ 64) (hend : lo + rangeSize ≤ 2 ^ 64) :
    probeIndices o lo rangeSize batchSize =
      .ok ((List.range batchSize).map (probeIndex lo rangeSize batchSize)) := by
  have hpos : 0 < batchSize := by
    rw [hb, probeCount]
    omega
  have height : batchSize ≤ 8 := by
    rw [hb, probeCount]
    omega
  unfold probeIndices
  refine mapM_of_forall fun i hi => ?_
  rw [List.mem_range] at hi
  have hprod : i * rangeSize ≤ 7 * rangeSize := Nat.mul_le_mul_right _ (by omega)
  have hlt : lo + i * rangeSize / batchSize < lo + rangeSize := probeIndex_lt_hi hpos hr hi
  rw [o.u64_ofNat (by omega), ok_bind, o.u64_ofNat (by omega)]
  rfl

theorem advanceMapKey_chunkLocation (i n : ℕ) :
    advanceMapKey H streamSecret (chunkKey H streamSecret firstKey i)
        (chunkBat H streamSecret firstBat i) n =
      .ok (chunkLocation H streamSecret firstKey firstBat (i + n)) := by
  induction n with
  | zero => rfl
  | succ n ih =>
      rw [advanceMapKey, ih]
      exact calculateNextMapKey_chunk H streamSecret firstKey firstBat (i + n)

/-- Ascending indices: each probe is derived from the one before it. -/
theorem deriveProbesForIndices_eq {indices : List ℕ} {i : ℕ}
    (hsorted : (i :: indices).Pairwise (· ≤ ·)) (hfit : ∀ j ∈ indices, j < 2 ^ 64) :
    deriveProbesForIndices H o streamSecret (chunkKey H streamSecret firstKey i)
        (chunkBat H streamSecret firstBat i) i indices =
      .ok (indices.map (chunkLocation H streamSecret firstKey firstBat)) := by
  induction indices generalizing i with
  | nil => rfl
  | cons index indices ih =>
      obtain ⟨hle, hrest⟩ := List.pairwise_cons.1 hsorted
      rw [List.forall_mem_cons] at hfit
      have hi : i ≤ index := hle index List.mem_cons_self
      have hsteps : (index : ℤ) - i = ((index - i : ℕ) : ℤ) := by omega
      unfold deriveProbesForIndices
      rw [hsteps, o.u64_ofNat (by omega), ok_bind, advanceMapKey_chunkLocation, ok_bind,
        Nat.add_sub_cancel' hi]
      rw [chunkLocation, ih hrest hfit.2]
      rfl

/-- What the flags of a round say about where the present chunks end. -/
inductive RoundEnd (index : ℕ → ℕ) (batchSize k : ℕ) : Option ℕ → Prop where
  | first (h : k ≤ index 0) : RoundEnd index batchSize k (some 0)
  | between {i : ℕ} (hi : i + 1 < batchSize) (hlo : index i < k) (hhi : k ≤ index (i + 1)) :
      RoundEnd index batchSize k (some (i + 1))
  | last (h : ∀ j < batchSize, index j < k) : RoundEnd index batchSize k none

theorem firstAbsent_eq {index : ℕ → ℕ} {k remaining i : ℕ} (hsum : i + remaining = batchSize)
    (hbefore : ∀ j < i, index j < k) :
    ∃ r, firstAbsent ((List.range batchSize).map fun j => decide (index j < k)) remaining i =
      .ok r ∧ RoundEnd index batchSize k r := by
  induction remaining generalizing i with
  | zero =>
      obtain rfl : i = batchSize := by omega
      exact ⟨none, rfl, .last hbefore⟩
  | succ remaining ih =>
      have hget : vecGet ((List.range batchSize).map fun j => decide (index j < k)) i =
          .ok (decide (index i < k)) := by
        apply vecGet_of_getElem?
        rw [List.getElem?_map, List.getElem?_range (by omega)]
        rfl
      unfold firstAbsent
      rw [hget, ok_bind]
      by_cases hi : index i < k
      · rw [if_pos (by simpa using hi)]
        refine ih (by omega) fun j hj => ?_
        rcases Nat.lt_succ_iff_lt_or_eq.1 hj with hj | rfl
        · exact hbefore j hj
        · exact hi
      · rw [if_neg (by simpa using hi)]
        refine ⟨some i, rfl, ?_⟩
        cases i with
        | zero => exact .first (not_lt.1 hi)
        | succ i => exact .between (by omega) (hbefore i (Nat.lt_succ_self i)) (not_lt.1 hi)

end Round

/-! ## The search -/

section Search

variable {σ : Type} {H : ContentHasher} {o : Overflow} {streamSecret firstKey : Bytes}
  {firstBat : Option Bat} {lookup : Probes → Exec σ Fault (List Bool)} {I : σ → Prop} {n k : ℕ}

/-- Exactly the chunks below `k` of the `n` chunks are there: so a lookup of their locations
answers, in any state of those it passes through. -/
def Answers (H : ContentHasher) (streamSecret firstKey : Bytes) (firstBat : Option Bat)
    (lookup : Probes → Exec σ Fault (List Bool)) (I : σ → Prop) (n k : ℕ) : Prop :=
  ∀ indices : List ℕ, (∀ i ∈ indices, i < n) → ∀ s, I s →
    ∃ s', lookup (indices.map (chunkLocation H streamSecret firstKey firstBat)) s =
      (.ok (indices.map fun i => decide (i < k)), s') ∧ I s'

/-- The window between two chunks of the chain. -/
def window (H : ContentHasher) (streamSecret firstKey : Bytes) (firstBat : Option Bat)
    (lo hi : ℕ) : Window :=
  ⟨lo, hi, chunkKey H streamSecret firstKey lo, chunkBat H streamSecret firstBat lo⟩

/-- What a round leaves of a window around `k`. -/
inductive Narrowed (H : ContentHasher) (streamSecret firstKey : Bytes) (firstBat : Option Bat)
    (lo hi k : ℕ) : ℕ ⊕ Window → Prop where
  | found : Narrowed H streamSecret firstKey firstBat lo hi k (.inl k)
  | next {lo' hi' : ℕ} (hlo : lo' ≤ k) (hhi : k ≤ hi') (hend : hi' ≤ hi)
      (hless : hi' - lo' < hi - lo) :
      Narrowed H streamSecret firstKey firstBat lo hi k
        (.inr (window H streamSecret firstKey firstBat lo' hi'))

/-- A round narrows the window around `k`, and the location it hands on is that of the new lower
end. -/
theorem searchRound_run (hn : 7 * n < 2 ^ 64)
    (hlookup : Answers H streamSecret firstKey firstBat lookup I n k) {lo hi : ℕ} {s : σ}
    (hlo : lo ≤ k) (hhi : k ≤ hi) (hend : hi ≤ n) (hs : I s) :
    ∃ r s', searchRound H o streamSecret lookup (window H streamSecret firstKey firstBat lo hi) s =
        (.ok r, s') ∧ Narrowed H streamSecret firstKey firstBat lo hi k r ∧ I s' := by
  unfold searchRound
  by_cases hempty : hi ≤ lo
  · refine ⟨.inl lo, s, by simp [window, hempty], ?_, hs⟩
    rw [show lo = k by omega]
    exact .found
  obtain ⟨batchSize, hb⟩ : ∃ b, b = min (hi - lo) probeCount := ⟨_, rfl⟩
  have hpos : 0 < batchSize := by
    rw [hb, probeCount]
    omega
  have hle : batchSize ≤ hi - lo := hb ▸ min_le_left _ _
  have hindices : probeIndices o lo (hi - lo) batchSize = _ :=
    probeIndices_eq hb (by omega) (by omega) (by omega)
  have hmono : ∀ {i j}, i < j →
      probeIndex lo (hi - lo) batchSize i < probeIndex lo (hi - lo) batchSize j :=
    probeIndex_lt hpos hle
  have hbelow : ∀ {j}, j < batchSize → probeIndex lo (hi - lo) batchSize j < hi := fun {j} hj => by
    have : probeIndex lo (hi - lo) batchSize j < lo + (hi - lo) :=
      probeIndex_lt_hi hpos (by omega) hj
    omega
  have hzero : probeIndex lo (hi - lo) batchSize 0 = lo := probeIndex_zero
  generalize probeIndex lo (hi - lo) batchSize = index at hindices hmono hbelow hzero
  have hrange : List.range batchSize = 0 :: List.range' 1 (batchSize - 1) := by
    obtain ⟨m, rfl⟩ := Nat.exists_eq_add_one_of_ne_zero hpos.ne'
    rw [List.range_eq_range', List.range'_succ]
    rfl
  -- the probes of the round are the locations of its indices
  have hprobes : deriveProbesForIndices H o streamSecret (chunkKey H streamSecret firstKey lo)
      (chunkBat H streamSecret firstBat lo) lo ((List.range batchSize).map index).tail =
      .ok (((List.range batchSize).map index).tail.map
        (chunkLocation H streamSecret firstKey firstBat)) := by
    refine deriveProbesForIndices_eq ?_ fun j hj => ?_
    · have hsorted : ((List.range batchSize).map index).Pairwise (· ≤ ·) :=
        List.pairwise_map.2 (List.pairwise_lt_range.imp fun hij => (hmono hij).le)
      rw [hrange, List.map_cons, hzero] at hsorted ⊢
      exact hsorted
    · obtain ⟨i, hi, rfl⟩ := List.mem_map.1 (List.mem_of_mem_tail hj)
      have := hbelow (List.mem_range.1 hi)
      omega
  have hall : (chunkKey H streamSecret firstKey lo, chunkBat H streamSecret firstBat lo) ::
      ((List.range batchSize).map index).tail.map
        (chunkLocation H streamSecret firstKey firstBat) =
      ((List.range batchSize).map index).map
        (chunkLocation H streamSecret firstKey firstBat) := by
    rw [hrange, List.map_cons, List.map_cons, hzero]
    rfl
  have hget : ∀ {j}, j < batchSize → vecGet ((List.range batchSize).map index) j =
      .ok (index j) := fun {j} hj => by
    apply vecGet_of_getElem?
    rw [List.getElem?_map, List.getElem?_range hj]
    rfl
  have hprobe : ∀ {j}, j < batchSize → vecGet (((List.range batchSize).map index).map
      (chunkLocation H streamSecret firstKey firstBat)) j =
      .ok (chunkLocation H streamSecret firstKey firstBat (index j)) := fun {j} hj => by
    apply vecGet_of_getElem?
    rw [List.getElem?_map, List.getElem?_map, List.getElem?_range hj]
    rfl
  obtain ⟨s₁, hflags, hs₁⟩ := hlookup ((List.range batchSize).map index) (fun i hi => by
    obtain ⟨j, hj, rfl⟩ := List.mem_map.1 hi
    exact (hbelow (List.mem_range.1 hj)).trans_le hend) s hs
  have hflag : (((List.range batchSize).map index).map fun i => decide (i < k)) =
      (List.range batchSize).map fun j => decide (index j < k) := List.map_map
  rw [hflag] at hflags
  obtain ⟨absent, habsent, hround⟩ : ∃ r, firstAbsent ((List.range batchSize).map fun j =>
      decide (index j < k)) batchSize 0 = .ok r ∧ RoundEnd index batchSize k r :=
    firstAbsent_eq (Nat.zero_add _) fun j hj => absurd hj (Nat.not_lt_zero j)
  rw [window, if_neg hempty]
  dsimp only
  rw [← hb, hindices, Exec.lift_ok_bind, hprobes, Exec.lift_ok_bind, hall, Exec.bind_of_ok hflags,
    habsent, Exec.lift_ok_bind]
  cases hround with
  | first h =>
      refine ⟨.inl lo, s₁, rfl, ?_, hs₁⟩
      rw [show lo = k by omega]
      exact .found
  | @between i hi' hlow hhigh =>
      have hnext := hbelow hi'
      have hfirst : lo ≤ index i := by
        rcases Nat.eq_zero_or_pos i with rfl | hi0
        · exact hzero.ge
        · exact hzero ▸ (hmono hi0).le
      refine ⟨.inr (window H streamSecret firstKey firstBat (index i) (index (i + 1))), s₁, ?_,
        .next hlow.le hhigh hnext.le (by omega), hs₁⟩
      dsimp only
      rw [hget (by omega), Exec.lift_ok_bind, hget hi', Exec.lift_ok_bind, hprobe (by omega),
        Exec.lift_ok_bind]
      rfl
  | last h =>
      have hlast := h (batchSize - 1) (by omega)
      have hsmall := hbelow (show batchSize - 1 < batchSize by omega)
      dsimp only
      rw [hget (by omega), Exec.lift_ok_bind, o.u64_ofNat (by omega), Exec.lift_ok_bind]
      by_cases hstop : hi ≤ index (batchSize - 1) + 1
      · refine ⟨.inl hi, s₁, by rw [if_pos hstop]; rfl, ?_, hs₁⟩
        rw [show hi = k by omega]
        exact .found
      · -- with one probe only, the window had one chunk
        have hmany : 0 < batchSize - 1 := by
          rcases Nat.eq_zero_or_pos (batchSize - 1) with hone | hone
          · rw [hone, hzero] at hstop
            rw [probeCount] at hb
            omega
          · exact hone
        have hprev := hmono hmany
        rw [hzero] at hprev
        refine ⟨.inr (window H streamSecret firstKey firstBat (index (batchSize - 1)) hi), s₁, ?_,
          .next hlast.le hhi le_rfl (by omega), hs₁⟩
        rw [if_neg hstop, hprobe (by omega), Exec.lift_ok_bind]
        rfl

/-- The rounds, one after the other: the induction is on the fuel, which the window uses up. -/
theorem binarySearchAbsentChunk_run (hn : 7 * n < 2 ^ 64)
    (hlookup : Answers H streamSecret firstKey firstBat lookup I n k) {fuel lo hi : ℕ} {s : σ}
    (hlo : lo ≤ k) (hhi : k ≤ hi) (hend : hi ≤ n) (hfuel : hi - lo < fuel) (hs : I s) :
    ∃ s', binarySearchAbsentChunk H o streamSecret lookup fuel
      (window H streamSecret firstKey firstBat lo hi) s = (.ok k, s') ∧ I s' := by
  induction fuel generalizing lo hi s with
  | zero => exact absurd hfuel (Nat.not_lt_zero _)
  | succ fuel ih =>
      obtain ⟨r, s₁, hrun, hround, hs₁⟩ :=
        searchRound_run (o := o) hn hlookup hlo hhi hend hs
      rw [binarySearchAbsentChunk, Exec.bind_of_ok hrun]
      cases hround with
      | found => exact ⟨s₁, rfl, hs₁⟩
      | next hlo' hhi' hend' hless => exact ih hlo' hhi' (hend'.trans hend) (by omega) hs₁

/-- What was asked so far are locations of chunks of the file. -/
def AskedLocations (H : ContentHasher) (streamSecret firstKey : Bytes) (firstBat : Option Bat)
    (n : ℕ) (log : List Probes) : Prop :=
  ∀ probes ∈ log, ∀ probe ∈ probes,
    ∃ i < n, advanceMapKey H streamSecret firstKey firstBat i = .ok probe

theorem Answers.logged (hlookup : Answers H streamSecret firstKey firstBat lookup I n k) :
    Answers H streamSecret firstKey firstBat (logged lookup)
      (fun s => I s.1 ∧ AskedLocations H streamSecret firstKey firstBat n s.2) n k := by
  intro indices hindices s hs
  obtain ⟨s', hrun, hs'⟩ := hlookup indices hindices s.1 hs.1
  refine ⟨(s', s.2 ++ [indices.map (chunkLocation H streamSecret firstKey firstBat)]), ?_, hs', ?_⟩
  · rw [AbsentChunk.logged, Exec.bind_of_ok (Exec.update_run _ s)]
    simp [Exec.zoom, hrun]
  · intro probes hprobes probe hprobe
    rcases List.mem_append.1 hprobes with hold | hnew
    · exact hs.2 probes hold probe hprobe
    · obtain rfl := List.mem_singleton.1 hnew
      obtain ⟨i, hi, rfl⟩ := List.mem_map.1 hprobe
      exact ⟨i, hindices i hi, advanceMapKey_eq H streamSecret firstKey firstBat i⟩

/-- **The search on 64-bit numbers.**  It returns the first absent chunk, and every map key and BAT
it looks up is what walking the chain from chunk 0 gives. -/
theorem binarySearchAbsentChunk_finds (o : Overflow) (hn : 7 * n < 2 ^ 64) (hk : k ≤ n) {fuel : ℕ}
    (hfuel : n < fuel) (hlookup : Answers H streamSecret firstKey firstBat lookup I n k) {s : σ}
    (hs : I s) :
    (∃ s', binarySearchAbsentChunk H o streamSecret lookup fuel ⟨0, n, firstKey, firstBat⟩ s =
        (.ok k, s')) ∧
      ∃ s' log, binarySearchAbsentChunk H o streamSecret (logged lookup) fuel
          ⟨0, n, firstKey, firstBat⟩ (s, []) = (.ok k, (s', log)) ∧
        AskedLocations H streamSecret firstKey firstBat n log := by
  constructor
  · obtain ⟨s', hrun, -⟩ := binarySearchAbsentChunk_run (o := o) hn hlookup (Nat.zero_le k) hk
      le_rfl (by omega : n - 0 < fuel) hs
    exact ⟨s', hrun⟩
  · obtain ⟨⟨s', log⟩, hrun, -, hlog⟩ := binarySearchAbsentChunk_run (o := o) (s := (s, [])) hn
      hlookup.logged (Nat.zero_le k) hk le_rfl (by omega : n - 0 < fuel)
      ⟨hs, fun probes h => absurd h List.not_mem_nil⟩
    exact ⟨s', log, hrun, hlog⟩

end Search

/-! ## Runs -/

/-- The first two chunks of a file are there. -/
def firstTwo (probes : Probes) : Exec Unit Fault (List Bool) :=
  pure (probes.map fun p => p.1 = [7] ∨ p.1 = chunkKey legacyHasher [1] [7] 1)

/-- Two of three chunks are there. -/
theorem binarySearchAbsentChunk_finds_two :
    (∃ s', binarySearchAbsentChunk legacyHasher .checked [1] firstTwo 4 ⟨0, 3, [7], none⟩ () =
        (.ok 2, s')) ∧
      ∃ s' log, binarySearchAbsentChunk legacyHasher .checked [1] (logged firstTwo) 4
          ⟨0, 3, [7], none⟩ ((), []) = (.ok 2, (s', log)) ∧
        AskedLocations legacyHasher [1] [7] none 3 log := by
  have hpresent : ∀ i < 3, decide ((chunkLocation legacyHasher [1] [7] none i).1 = [7] ∨
      (chunkLocation legacyHasher [1] [7] none i).1 = chunkKey legacyHasher [1] [7] 1) =
      decide (i < 2) := by
    decide +kernel
  have hanswers : Answers legacyHasher [1] [7] none firstTwo (fun _ => True) 3 2 := by
    intro indices hindices s _
    refine ⟨s, ?_, trivial⟩
    have hflags : ((indices.map (chunkLocation legacyHasher [1] [7] none)).map fun p =>
        decide (p.1 = [7] ∨ p.1 = chunkKey legacyHasher [1] [7] 1)) =
        indices.map fun i => decide (i < 2) := by
      rw [List.map_map]
      exact List.map_congr_left fun i hi => hpresent i (hindices i hi)
    rw [firstTwo, hflags]
    rfl
  exact binarySearchAbsentChunk_finds .checked (by norm_num) (by norm_num) (by norm_num) hanswers
    trivial

/-- No chunk of `2 ^ 63` is there: the third product of the first round does not fit.  And the index
that is returned does not tell files apart whose chunk 0 is at different locations. -/
theorem binarySearchAbsentChunk_stops :
    Answers legacyHasher [1] [7] none (fun probes => pure (probes.map fun _ => false))
        (fun _ : Unit => True) (2 ^ 63) 0 ∧
      binarySearchAbsentChunk legacyHasher .checked [1]
          (fun probes => pure (probes.map fun _ => false)) (2 ^ 63 + 1) ⟨0, 2 ^ 63, [7], none⟩ () =
        (.error .panic, ()) ∧
      binarySearchAbsentChunk legacyHasher .checked [1] firstTwo 1 ⟨0, 0, [7], none⟩ () =
        binarySearchAbsentChunk legacyHasher .checked [1] firstTwo 1 ⟨0, 0, [8], none⟩ () := by
  refine ⟨fun indices _ s _ => ⟨s, by simp, trivial⟩, ?_, rfl⟩
  rw [binarySearchAbsentChunk, searchRound]
  rfl

end AbsentChunk

end Peergos
