import PeergosClient.Champ.Slots
import PeergosClient.Lib.Outcome

/-!
# Canonical trees

The abstract champ is a finite map, kept as the sorted list of its entries.  `Canonical` says that
a node, with the blocks it links to, is the one tree of that map: a slot with at most four entries
holds them inline, one with more holds the link to the canonical node of these entries one level
down.  A canonical node is determined by the map (`Canonical.unique`), and it stays canonical when
the store gains blocks (`Canonical.mono`).
-/

namespace Peergos

namespace Slot

/-- The slot of few entries: nothing, or one bucket. -/
def ofEntries : List KeyElement → Slot
  | [] => empty
  | m :: ms => bucket (m :: ms)

theorem ofEntries_of_ne_nil {ms : List KeyElement} (h : ms ≠ []) : ofEntries ms = bucket ms := by
  cases ms with
  | nil => exact absurd rfl h
  | cons m ms => rfl

@[simp] theorem mappings_ofEntries (ms : List KeyElement) : (ofEntries ms).mappings = ms := by
  cases ms <;> rfl

@[simp] theorem back_ofEntries (ms : List KeyElement) : (ofEntries ms).back = none := by
  cases ms <;> rfl

end Slot

namespace Champ

/-- The map with one entry set. -/
abbrev upsert (a : KeyElement) (es : List KeyElement) : List KeyElement :=
  Keyed.upsert byteArrayCompare KeyElement.key a es

/-- The map without one key. -/
abbrev erase (k : Bytes) (es : List KeyElement) : List KeyElement :=
  Keyed.erase KeyElement.key k es

/-! ## The entries of one slot -/

/-- The slot an entry falls in at a level. -/
def slotOf (H : KeyHasher) (d : ℕ) (k : Bytes) : ℕ := mask (H k) d bitWidth

/-- The entries of slot `i` at level `d`. -/
def inSlot (H : KeyHasher) (d i : ℕ) (es : List KeyElement) : List KeyElement :=
  es.filter fun m => slotOf H d m.key = i

section InSlot

variable {H : KeyHasher} {d i : ℕ} {es : List KeyElement}

theorem slotOf_lt (H : KeyHasher) (d : ℕ) (k : Bytes) : slotOf H d k < slots := mask_lt _ _

@[simp] theorem mem_inSlot {m : KeyElement} : m ∈ inSlot H d i es ↔ m ∈ es ∧ slotOf H d m.key = i := by
  simp [inSlot]

theorem sorted_inSlot (h : SortedEntries es) : SortedEntries (inSlot H d i es) := h.filter _

theorem inSlot_upsert_self (h : SortedEntries es) (a : KeyElement) :
    inSlot H d (slotOf H d a.key) (upsert a es) =
      upsert a (inSlot H d (slotOf H d a.key) es) := by
  refine (sorted_inSlot (Keyed.sorted_upsert h a)).ext (Keyed.sorted_upsert (sorted_inSlot h) a) ?_
  intro x
  rw [mem_inSlot, Keyed.mem_upsert, Keyed.mem_upsert, mem_inSlot]
  constructor
  · rintro ⟨rfl | hx, hs⟩
    · exact Or.inl rfl
    · exact Or.inr ⟨⟨hx.1, hs⟩, hx.2⟩
  · rintro (rfl | ⟨⟨hx, hs⟩, hne⟩)
    · exact ⟨Or.inl rfl, rfl⟩
    · exact ⟨Or.inr ⟨hx, hne⟩, hs⟩

theorem inSlot_upsert_of_ne (h : SortedEntries es) {a : KeyElement} (hi : slotOf H d a.key ≠ i) :
    inSlot H d i (upsert a es) = inSlot H d i es := by
  refine (sorted_inSlot (Keyed.sorted_upsert h a)).ext (sorted_inSlot h) ?_
  intro x
  rw [mem_inSlot, Keyed.mem_upsert, mem_inSlot]
  constructor
  · rintro ⟨rfl | hx, hs⟩
    · exact absurd hs hi
    · exact ⟨hx.1, hs⟩
  · rintro ⟨hx, hs⟩
    refine ⟨Or.inr ⟨hx, fun hk => hi ?_⟩, hs⟩
    rw [← hk]
    exact hs

theorem inSlot_erase (k : Bytes) : inSlot H d i (erase k es) =
    erase k (inSlot H d i es) := by
  unfold inSlot erase Keyed.erase
  rw [List.filter_comm]

theorem inSlot_erase_of_ne {k : Bytes} (hi : slotOf H d k ≠ i) :
    inSlot H d i (erase k es) = inSlot H d i es := by
  rw [inSlot_erase]
  refine Keyed.erase_of_forall_ne ?_
  rintro x hx rfl
  exact hi (mem_inSlot.1 hx).2

theorem lookup_inSlot (k : Bytes) : Keyed.lookup KeyElement.key k (inSlot H d (slotOf H d k) es) =
    Keyed.lookup KeyElement.key k es := by
  unfold Keyed.lookup inSlot
  rw [List.find?_filter]
  congr 1
  funext m
  by_cases hm : m.key = k
  · simp [hm]
  · simp [hm]

end InSlot

/-! ## Canonical nodes -/

section Canonical

variable {σ : Type} (S : ContentAddressedStorage σ) (sha256 : Bytes → Bytes) (H : KeyHasher)
  (bat : Option BatId)

/-- The node `c` at level `d` is the tree of the entries `es`, all of whose other nodes are in the
store. -/
inductive Canonical (s : σ) : ℕ → Champ → List KeyElement → Prop
  | node {d : ℕ} {es : List KeyElement} (f : ℕ → Slot) (child : ℕ → Champ)
      (level : d < hashCodeLength)
      (inline : ∀ i < slots, (inSlot H d i es).length ≤ maxHashCollisionsPerLevel →
        f i = .ofEntries (inSlot H d i es))
      (linked : ∀ i < slots, maxHashCollisionsPerLevel < (inSlot H d i es).length →
        ∃ cid, f i = .shard cid ∧ S.Stored sha256 s cid (child i).toCbor)
      (below : ∀ i < slots, maxHashCollisionsPerLevel < (inSlot H d i es).length →
        Canonical s (d + 1) (child i) (inSlot H d i es)) :
      Canonical s d (ofSlots f bat) es

/-- The slot `sl` holds the entries `ei`, at level `d` if they need a node of their own. -/
def SlotHolds (s : σ) (d : ℕ) (sl : Slot) (ei : List KeyElement) : Prop :=
  (ei.length ≤ maxHashCollisionsPerLevel ∧ sl = .ofEntries ei) ∨
    (maxHashCollisionsPerLevel < ei.length ∧ ∃ cid child, sl = .shard cid ∧
      S.Stored sha256 s cid (Champ.toCbor child) ∧ Canonical S sha256 H bat s d child ei)

variable {S sha256 H bat}

theorem canonical_iff {s : σ} {d : ℕ} {c : Champ} {es : List KeyElement} :
    Canonical S sha256 H bat s d c es ↔ d < hashCodeLength ∧ ∃ f, c = ofSlots f bat ∧
      ∀ i < slots, SlotHolds S sha256 H bat s (d + 1) (f i) (inSlot H d i es) := by
  constructor
  · rintro ⟨f, child, hd, hin, hlink, hbelow⟩
    refine ⟨hd, f, rfl, ?_⟩
    intro i hi
    by_cases hlen : (inSlot H d i es).length ≤ maxHashCollisionsPerLevel
    · exact Or.inl ⟨hlen, hin i hi hlen⟩
    · obtain ⟨cid, hf, hst⟩ := hlink i hi (by omega)
      exact Or.inr ⟨by omega, cid, child i, hf, hst, hbelow i hi (by omega)⟩
  · rintro ⟨hd, f, rfl, hf⟩
    have hbig : ∀ i, ∃ child : Champ, i < slots →
        maxHashCollisionsPerLevel < (inSlot H d i es).length →
        (∃ cid, f i = .shard cid ∧ S.Stored sha256 s cid child.toCbor) ∧
          Canonical S sha256 H bat s (d + 1) child (inSlot H d i es) := by
      intro i
      by_cases hi : i < slots ∧ maxHashCollisionsPerLevel < (inSlot H d i es).length
      · rcases hf i hi.1 with ⟨hlen, -⟩ | ⟨-, cid, child, h1, h2, h3⟩
        · omega
        · exact ⟨child, fun _ _ => ⟨⟨cid, h1, h2⟩, h3⟩⟩
      · exact ⟨empty, fun h1 h2 => absurd ⟨h1, h2⟩ hi⟩
    choose child hchild using hbig
    refine ⟨f, child, hd, ?_, fun i hi hlen => (hchild i hi hlen).1,
      fun i hi hlen => (hchild i hi hlen).2⟩
    intro i hi hlen
    rcases hf i hi with ⟨-, h⟩ | ⟨h, -⟩
    · exact h
    · omega

theorem Canonical.level_lt {s : σ} {d : ℕ} {c : Champ} {es : List KeyElement}
    (h : Canonical S sha256 H bat s d c es) : d < hashCodeLength :=
  (canonical_iff.1 h).1

theorem Canonical.mirrorBat {s : σ} {d : ℕ} {c : Champ} {es : List KeyElement}
    (h : Canonical S sha256 H bat s d c es) : c.mirrorBat = bat := by
  cases h
  rfl

theorem Canonical.mono {s s' : σ} (hext : S.Extends s s') {d : ℕ} {c : Champ}
    {es : List KeyElement} (h : Canonical S sha256 H bat s d c es) :
    Canonical S sha256 H bat s' d c es := by
  induction h with
  | node f child hd hin hlink _ ih =>
      refine ⟨f, child, hd, hin, ?_, ih⟩
      intro i hi hlen
      obtain ⟨cid, hf, hst⟩ := hlink i hi hlen
      exact ⟨cid, hf, hst.mono hext⟩

theorem SlotHolds.mono {s s' : σ} (hext : S.Extends s s') {d : ℕ} {sl : Slot}
    {ei : List KeyElement} (h : SlotHolds S sha256 H bat s d sl ei) :
    SlotHolds S sha256 H bat s' d sl ei := by
  rcases h with h | ⟨hlen, cid, child, hsl, hst, hc⟩
  · exact Or.inl h
  · exact Or.inr ⟨hlen, cid, child, hsl, hst.mono hext, hc.mono hext⟩

/-- The tree of a map is unique, across stores with the same block hash. -/
theorem Canonical.unique {σ' : Type} {S' : ContentAddressedStorage σ'} {s : σ} {s' : σ'} {d : ℕ}
    {c c' : Champ} {es : List KeyElement} (h : Canonical S sha256 H bat s d c es)
    (h' : Canonical S' sha256 H bat s' d c' es) : c = c' := by
  induction h generalizing c' with
  | @node d es f child hd hin hlink _ ih =>
      obtain ⟨f', child', -, hin', hlink', hbelow'⟩ := h'
      refine ofSlots_congr ?_ bat
      intro i hi
      by_cases hlen : (inSlot H d i es).length ≤ maxHashCollisionsPerLevel
      · rw [hin i hi hlen, hin' i hi hlen]
      · have hlen : maxHashCollisionsPerLevel < (inSlot H d i es).length := by omega
        obtain ⟨cid, hf, -, hcid⟩ := hlink i hi hlen
        obtain ⟨cid', hf', -, hcid'⟩ := hlink' i hi hlen
        rw [ih i hi hlen (hbelow' i hi hlen), hcid'] at hcid
        rw [hf, hf', Except.ok.inj hcid]

/-- One slot of a canonical node changes, and the map changes in that slot only. -/
theorem Canonical.update {s s' : σ} {d : ℕ} {f : ℕ → Slot} {es es' : List KeyElement} {i : ℕ}
    {sl : Slot} (hd : d < hashCodeLength)
    (h : ∀ j < slots, SlotHolds S sha256 H bat s (d + 1) (f j) (inSlot H d j es))
    (hext : S.Extends s s')
    (hne : ∀ j < slots, j ≠ i → inSlot H d j es' = inSlot H d j es)
    (hsl : SlotHolds S sha256 H bat s' (d + 1) sl (inSlot H d i es')) :
    Canonical S sha256 H bat s' d (ofSlots (Function.update f i sl) bat) es' := by
  refine canonical_iff.2 ⟨hd, _, rfl, ?_⟩
  intro j hj
  by_cases hji : j = i
  · subst hji
    rw [Function.update_self]
    exact hsl
  · rw [Function.update_of_ne hji, hne j hj hji]
    exact (h j hj).mono hext

/-- The empty node is the tree of the empty map. -/
theorem canonical_empty (s : σ) {d : ℕ} (hd : d < hashCodeLength) :
    Canonical S sha256 H bat s d (empty.withBat bat) [] := by
  rw [empty_withBat]
  refine canonical_iff.2 ⟨hd, _, rfl, ?_⟩
  intro i _
  exact Or.inl ⟨Nat.zero_le _, rfl⟩

end Canonical

end Champ

end Peergos
