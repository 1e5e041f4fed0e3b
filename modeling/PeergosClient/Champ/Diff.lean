import PeergosClient.Champ.Merge
import PeergosClient.Champ.Refine

/-!
# The structural diff of two canonical trees

On two canonical trees `diff` lists exactly the keys with different values, each once, whatever
shape the trees have where they differ: a bucket on one side is carried down along the other
side's links.  `DiffSpec` also records an order: among keys that agree on every level, those the
left side has come before those it has not.
-/

namespace Peergos

namespace ChampMerge

open Champ

/-- The two keys fall in the same slot on every level. -/
def SameClass (k k' : Bytes) : Prop :=
  ∀ j < hashCodeLength, slotOf identityKeyHasher j k = slotOf identityKeyHasher j k'

instance (k k' : Bytes) : Decidable (SameClass k k') :=
  inferInstanceAs (Decidable (∀ j < hashCodeLength,
    slotOf identityKeyHasher j k = slotOf identityKeyHasher j k'))

/-- `ds` is the difference between the maps `L` and `R`. -/
structure DiffSpec (L R : List KeyElement) (ds : List DiffEntry) : Prop where
  nodup : (ds.map DiffEntry.key).Nodup
  mem : ∀ e, e ∈ ds ↔ e.base = valueOf L e.key ∧ e.other = valueOf R e.key ∧ e.base ≠ e.other
  ordered : ds.Pairwise fun e e' => SameClass e.key e'.key → e.base = none → e'.base = none

theorem DiffSpec.refl (L : List KeyElement) : DiffSpec L L [] where
  nodup := List.nodup_nil
  mem e := by
    refine ⟨fun h => absurd h List.not_mem_nil, ?_⟩
    rintro ⟨h1, h2, hne⟩
    exact absurd (h1.trans h2.symm) hne
  ordered := List.Pairwise.nil

/-! ## Two slots of mappings -/

theorem hashMapInsert_of_new {es : List KeyElement} {m : KeyElement}
    (h : ∀ e ∈ es, e.key ≠ m.key) : hashMapInsert es m = es ++ [m] := by
  induction es with
  | nil => rfl
  | cons e es ih =>
      rw [hashMapInsert, if_neg (h e (List.mem_cons_self ..)),
        ih fun e' he' => h e' (List.mem_cons_of_mem _ he')]
      rfl

theorem hashMapOf_eq_self {l : List KeyElement} (h : (l.map KeyElement.key).Nodup) :
    hashMapOf l = l := by
  have hgen : ∀ acc, ((acc ++ l).map KeyElement.key).Nodup →
      l.foldl hashMapInsert acc = acc ++ l := by
    clear h
    induction l with
    | nil => intro acc _; rw [List.append_nil]; rfl
    | cons m l ih =>
        intro acc hacc
        have hacc' := hacc
        rw [List.map_append, List.map_cons] at hacc'
        rw [List.foldl_cons, hashMapInsert_of_new, ih]
        · rw [List.append_assoc, List.singleton_append]
        · rw [List.append_assoc, List.singleton_append]
          exact hacc
        · intro e he hk
          refine (List.disjoint_of_nodup_append hacc') (List.mem_map_of_mem he) ?_
          rw [hk]
          exact List.mem_cons_self ..
  exact hgen [] h

section Compare

variable {L R : List KeyElement} {oL oR : List KeyElement → List KeyElement}

theorem compareMappings_eq (hL : SortedEntries L) (hR : SortedEntries R) (hvL : Valued L)
    (hoL : (oL L).Perm L) : compareMappings oL oR L R =
      ((oL L).filterMap fun m =>
        if valueOf R m.key ≠ m.value then some ⟨m.key, m.value, valueOf R m.key⟩ else none) ++
      (oR R).filterMap fun m =>
        if valueOf L m.key = none then some ⟨m.key, none, m.value⟩ else none := by
  unfold compareMappings
  rw [hashMapOf_eq_self hL.nodup_keys, hashMapOf_eq_self hR.nodup_keys]
  simp only
  congr 1
  · refine List.filterMap_congr ?_
    intro m hm
    obtain ⟨v, hv, -⟩ := hvL m (hoL.mem_iff.1 hm)
    unfold valueOf Keyed.lookup
    cases h : R.find? fun r => decide (r.key = m.key) with
    | none => simp [hv]
    | some r => simp
  · refine List.filterMap_congr ?_
    intro m _
    have hlook : (L.find? fun l => decide (l.key = m.key)) =
      Keyed.lookup KeyElement.key m.key L := rfl
    rw [hlook]
    cases h : Keyed.lookup KeyElement.key m.key L with
    | none => rw [if_pos ((valueOf_eq_none hvL).2 (Keyed.lookup_eq_none.1 h))]
    | some l =>
        rw [if_neg]
        rw [valueOf_eq_none hvL, ← Keyed.lookup_eq_none, h]
        exact Option.some_ne_none l

/-- What the first loop of a comparison lists. -/
theorem mem_leftPart (hL : SortedEntries L) (hvL : Valued L) (hoL : (oL L).Perm L)
    (e : DiffEntry) : (e ∈ (oL L).filterMap fun m =>
        if valueOf R m.key ≠ m.value then some (⟨m.key, m.value, valueOf R m.key⟩ : DiffEntry)
        else none) ↔
      e.base ≠ none ∧ e.base = valueOf L e.key ∧ e.other = valueOf R e.key ∧ e.base ≠ e.other := by
  rw [List.mem_filterMap]
  constructor
  · rintro ⟨m, hm, he⟩
    have hm := hoL.mem_iff.1 hm
    obtain ⟨v, hv, -⟩ := hvL m hm
    split at he
    · rename_i hne
      cases he
      have hval : valueOf L m.key = some v := (valueOf_eq_some hL).2 (hv ▸ hm)
      exact ⟨by simp [hv], by rw [hval, hv], rfl, fun h => hne h.symm⟩
    · cases he
  · rintro ⟨hsome, hbase, hother, hne⟩
    obtain ⟨key, base, other⟩ := e
    obtain ⟨v, rfl⟩ := Option.ne_none_iff_exists'.1 hsome
    refine ⟨⟨key, some v⟩, hoL.mem_iff.2 ((valueOf_eq_some hL).1 hbase.symm), ?_⟩
    simp only at hother hne ⊢
    rw [if_pos (by rw [← hother]; exact Ne.symm hne), ← hother]

/-- What the second loop of a comparison lists. -/
theorem mem_rightPart (hR : SortedEntries R) (hvR : Valued R) (hoR : (oR R).Perm R)
    (e : DiffEntry) : (e ∈ (oR R).filterMap fun m =>
        if valueOf L m.key = none then some (⟨m.key, none, m.value⟩ : DiffEntry) else none) ↔
      e.base = none ∧ e.base = valueOf L e.key ∧ e.other = valueOf R e.key ∧ e.base ≠ e.other := by
  rw [List.mem_filterMap]
  constructor
  · rintro ⟨m, hm, he⟩
    have hm := hoR.mem_iff.1 hm
    obtain ⟨v, hv, -⟩ := hvR m hm
    split at he
    · rename_i hnone
      cases he
      have hval : valueOf R m.key = some v := (valueOf_eq_some hR).2 (hv ▸ hm)
      exact ⟨rfl, hnone.symm, by rw [hval, hv], by simp [hv]⟩
    · cases he
  · rintro ⟨hnone, hbase, hother, hne⟩
    obtain ⟨key, base, other⟩ := e
    simp only at hnone hbase hother hne
    subst hnone
    obtain ⟨v, rfl⟩ := Option.ne_none_iff_exists'.1 (Ne.symm hne)
    refine ⟨⟨key, some v⟩, hoR.mem_iff.2 ((valueOf_eq_some hR).1 hother.symm), ?_⟩
    rw [if_pos hbase.symm]

/-- Comparing two slots that hold mappings. -/
theorem compareMappings_spec (hL : SortedEntries L) (hR : SortedEntries R) (hvL : Valued L)
    (hvR : Valued R) (hoL : (oL L).Perm L) (hoR : (oR R).Perm R) :
    DiffSpec L R (compareMappings oL oR L R) := by
  have hkeys : ∀ {l l' : List KeyElement}, l.Perm l' → SortedEntries l' →
      l.Pairwise fun m m' => m.key ≠ m'.key := by
    intro l l' hp hs
    have := (hp.map KeyElement.key).nodup_iff.2 hs.nodup_keys
    rwa [List.Nodup, List.pairwise_map] at this
  rw [compareMappings_eq hL hR hvL hoL]
  refine ⟨?_, ?_, ?_⟩
  · rw [List.Nodup, List.pairwise_map, List.pairwise_append]
    refine ⟨?_, ?_, ?_⟩
    · rw [List.pairwise_filterMap]
      refine (hkeys hoL hL).imp ?_
      intro m m' hne e he e' he'
      split at he <;> cases he
      split at he' <;> cases he'
      exact hne
    · rw [List.pairwise_filterMap]
      refine (hkeys hoR hR).imp ?_
      intro m m' hne e he e' he'
      split at he <;> cases he
      split at he' <;> cases he'
      exact hne
    · intro e he e' he' hk
      obtain ⟨hsome, hbase, -⟩ := (mem_leftPart hL hvL hoL e).1 he
      obtain ⟨hnone, hbase', -⟩ := (mem_rightPart hR hvR hoR e').1 he'
      rw [hbase, hk, ← hbase'] at hsome
      exact hsome hnone
  · intro e
    rw [List.mem_append, mem_leftPart hL hvL hoL, mem_rightPart hR hvR hoR]
    tauto
  · rw [List.pairwise_append]
    refine ⟨?_, ?_, ?_⟩
    · refine List.Pairwise.imp_of_mem (R := fun _ _ => True) ?_ (List.pairwise_of_forall (by simp))
      intro e e' he _ _ _ hnone
      exact absurd hnone ((mem_leftPart hL hvL hoL e).1 he).1
    · refine List.Pairwise.imp_of_mem (R := fun _ _ => True) ?_ (List.pairwise_of_forall (by simp))
      intro e e' _ he' _ _ _
      exact ((mem_rightPart hR hvR hoR e').1 he').1
    · intro e he e' _ _ hnone
      exact absurd hnone ((mem_leftPart hL hvL hoL e).1 he).1

end Compare

/-! ## Putting slots together -/


theorem valued_inSlot {es : List KeyElement} (h : Valued es) (d i : ℕ) :
    Valued (inSlot identityKeyHasher d i es) := fun m hm => h m (mem_inSlot.1 hm).1

theorem slotOf_eq_of_mem {L R : List KeyElement} {d i : ℕ} {ds : List DiffEntry}
    (h : DiffSpec (inSlot identityKeyHasher d i L) (inSlot identityKeyHasher d i R) ds)
    {e : DiffEntry} (he : e ∈ ds) : slotOf identityKeyHasher d e.key = i := by
  obtain ⟨hb, ho, hne⟩ := (h.mem e).1 he
  by_contra hi
  have hnone : ∀ M, valueOf (inSlot identityKeyHasher d i M) e.key = none := by
    intro M
    have : Keyed.lookup KeyElement.key e.key (inSlot identityKeyHasher d i M) = none := by
      rw [Keyed.lookup_eq_none]
      rintro m hm hk
      exact hi (hk ▸ (mem_inSlot.1 hm).2)
    rw [valueOf, this]
    rfl
  rw [hnone] at hb ho
  exact hne (hb.trans ho.symm)

/-- The differences of the slots of two maps, in any order of the slots, are the difference of the
maps. -/
theorem DiffSpec.flatMap {L R : List KeyElement} {d : ℕ} (hd : d < hashCodeLength)
    {is : List ℕ} (his : is.Perm (List.range slots)) {g : ℕ → List DiffEntry}
    (h : ∀ i < slots, DiffSpec (inSlot identityKeyHasher d i L) (inSlot identityKeyHasher d i R)
      (g i)) : DiffSpec L R (is.flatMap g) := by
  have hlt : ∀ i ∈ is, i < slots := fun i hi => List.mem_range.1 (his.mem_iff.1 hi)
  have hnd : is.Nodup := his.nodup_iff.2 List.nodup_range
  refine ⟨?_, ?_, ?_⟩
  · rw [List.Nodup, List.pairwise_map, List.pairwise_flatMap]
    refine ⟨?_, hnd.imp_of_mem ?_⟩
    · intro i hi
      have := (h i (hlt i hi)).nodup
      rwa [List.Nodup, List.pairwise_map] at this
    · intro i j hi hj hij e he e' he' hk
      rw [← slotOf_eq_of_mem (h i (hlt i hi)) he, ← slotOf_eq_of_mem (h j (hlt j hj)) he', hk] at hij
      exact hij rfl
  · intro e
    rw [List.mem_flatMap]
    constructor
    · rintro ⟨i, hi, he⟩
      have hs := slotOf_eq_of_mem (h i (hlt i hi)) he
      have := ((h i (hlt i hi)).mem e).1 he
      rw [← hs, valueOf_inSlot, valueOf_inSlot] at this
      exact this
    · intro he
      have hi := slotOf_lt identityKeyHasher d e.key
      refine ⟨slotOf identityKeyHasher d e.key, his.mem_iff.2 (List.mem_range.2 hi), ?_⟩
      rw [(h _ hi).mem, valueOf_inSlot, valueOf_inSlot]
      exact he
  · rw [List.pairwise_flatMap]
    refine ⟨fun i hi => (h i (hlt i hi)).ordered, hnd.imp_of_mem ?_⟩
    intro i j hi hj hij e he e' he' hclass
    rw [← slotOf_eq_of_mem (h i (hlt i hi)) he, ← slotOf_eq_of_mem (h j (hlt j hj)) he',
      hclass d hd] at hij
    exact absurd rfl hij

/-! ## One side of the walk -/

section Walk

variable {σ : Type} {S : ContentAddressedStorage σ} {sha256 : Bytes → Bytes} {s : σ}

/-- One side of the walk holds the map `es`: as the tree under a link, or as mappings carried down
from a bucket. -/
def Side (S : ContentAddressedStorage σ) (sha256 : Bytes → Bytes) (bat : Option BatId) (s : σ)
    (d : ℕ) (cid : Option Cid) (higher es : List KeyElement) : Prop :=
  (∃ c node, cid = some c ∧ S.Stored sha256 s c (Champ.toCbor node) ∧
    Canonical S sha256 identityKeyHasher bat s d node es ∧ higher = []) ∨
  (cid = none ∧ higher = es)

/-- The payload of a slot. -/
def payloadOf : Slot → Option Payload
  | .empty => none
  | .bucket ms => some (.mappings ms)
  | .shard cid => some (.link cid)

theorem dataStep_payloadOf (sl : Slot) : dataStep (payloadOf sl) = sl.front.isSome.toNat := by
  cases sl <;> rfl

theorem nodeStep_payloadOf (sl : Slot) : nodeStep (payloadOf sl) = sl.back.isSome.toNat := by
  cases sl <;> rfl

/-- The running counts of the walk are the ranks of the layout. -/
theorem getElement_ofSlots {f : ℕ → Slot} {bat : Option BatId} {i : ℕ} (hi : i < slots) :
    getElement i (Rank.rank (fun j => (f j).front.isSome) i)
      (Rank.rank (fun j => (f j).back.isSome) i) (some (ofSlots f bat)) =
        .ok (payloadOf (f i)) := by
  unfold getElement
  simp only
  rw [bitGet_dataMap hi, bitGet_nodeMap hi]
  cases hsl : f i with
  | empty => rfl
  | bucket ms =>
      simp only [Slot.front, Option.isSome_some, if_true, payloadOf]
      exact congrArg Except.ok (Rank.twoEnded_front_getElem? hi
        (f := fun j => (f j).front) _ (by rw [hsl]; rfl))
  | shard cid =>
      have hback : (f i).back = some (.link cid) := by rw [hsl]; rfl
      obtain ⟨pre, post, -, hle, -, -⟩ := Rank.twoEnded_back_split hi (fun j => (f j).front)
        (g := fun j => (f j).back) hback
      rw [if_neg (show ¬ (Slot.shard cid).front.isSome = true from Bool.false_ne_true),
        if_pos (show (Slot.shard cid).back.isSome = true from rfl), ofSlots_contents,
        usizeSub_of_le (by omega), ok_bind, usizeSub_of_le (by omega), ok_bind]
      exact congrArg Except.ok (Rank.twoEnded_back_getElem? hi (fun j => (f j).front)
        (g := fun j => (f j).back) hback)

/-- A loaded side, slot by slot: each slot is a side of the walk one level down. -/
theorem loadChamp_side {bat : Option BatId} (hbat : BatReadable bat) {d : ℕ} {cid : Option Cid}
    {higher es : List KeyElement} (h : Side S sha256 bat s d cid higher es) (hn : NoNull es) :
    ∃ (champ : Option Champ) (f : ℕ → Slot), loadChamp S s cid = .ok champ ∧
      (∀ i < slots, getElement i (Rank.rank (fun j => (f j).front.isSome) i)
        (Rank.rank (fun j => (f j).back.isSome) i) champ = .ok (payloadOf (f i))) ∧
      ∀ i < slots, Side S sha256 bat s (d + 1) (slotShard (payloadOf (f i)))
        (slotMappings (payloadOf (f i)) (hashAndMask higher d i))
        (inSlot identityKeyHasher d i es) := by
  rcases h with ⟨c, node, rfl, hst, hc, rfl⟩ | ⟨rfl, rfl⟩
  · obtain ⟨-, f, rfl, hf⟩ := canonical_iff.1 hc
    refine ⟨some (ofSlots f bat), f, ?_, fun i hi => getElement_ofSlots hi, ?_⟩
    · simp only [loadChamp, getBlock]
      rw [hst.1, ok_bind]
      simp only [ok_bind]
      rw [hc.fromCbor_toCbor hn hbat, ok_bind]
    · intro i hi
      rcases hf i hi with ⟨-, hsl⟩ | ⟨-, cid, child, hsl, hcid, hchild⟩
      · right
        rw [hsl]
        cases inSlot identityKeyHasher d i es <;> exact ⟨rfl, rfl⟩
      · left
        rw [hsl]
        exact ⟨cid, child, rfl, hcid, hchild, rfl⟩
  · refine ⟨none, fun _ => .empty, rfl, fun i _ => rfl, fun i _ => Or.inr ⟨rfl, rfl⟩⟩

/-! ## The loop over the slots -/

section Loop

variable {order : HashOrder} {path : List ℕ} {left right : Option Champ}
  {higherLeft higherRight : List KeyElement} {d : ℕ} (fL fR : ℕ → Slot)

/-- Whether a slot is left for the walk below. -/
def isDeep (i : ℕ) : Bool :=
  (slotShard (payloadOf (fL i))).isSome || (slotShard (payloadOf (fR i))).isSome

/-- The pair of subtrees under a slot. -/
def deeperAt (higherLeft higherRight : List KeyElement) (d i : ℕ) : Deeper :=
  ⟨i, slotShard (payloadOf (fL i)), slotShard (payloadOf (fR i)),
    slotMappings (payloadOf (fL i)) (hashAndMask higherLeft d i),
    slotMappings (payloadOf (fR i)) (hashAndMask higherRight d i)⟩

/-- The differences of a slot without links. -/
def inlineAt (order : HashOrder) (path : List ℕ) (higherLeft higherRight : List KeyElement)
    (d i : ℕ) : List DiffEntry :=
  compareMappings (order (path ++ [i, 0])) (order (path ++ [i, 1]))
    (slotMappings (payloadOf (fL i)) (hashAndMask higherLeft d i))
    (slotMappings (payloadOf (fR i)) (hashAndMask higherRight d i))

variable {fL fR}

/-- What the loop has gathered after `n` slots. -/
theorem foldlM_diffSlot
    (hL : ∀ i < slots, getElement i (Rank.rank (fun j => (fL j).front.isSome) i)
        (Rank.rank (fun j => (fL j).back.isSome) i) left = .ok (payloadOf (fL i)))
    (hR : ∀ i < slots, getElement i (Rank.rank (fun j => (fR j).front.isSome) i)
        (Rank.rank (fun j => (fR j).back.isSome) i) right = .ok (payloadOf (fR i)))
    (out : List DiffEntry) {n : ℕ} (hn : n ≤ slots) :
    (List.range n).foldlM (diffSlot order path left right higherLeft higherRight d)
        ⟨0, 0, 0, 0, [], out⟩ =
      .ok ⟨Rank.rank (fun j => (fL j).front.isSome) n, Rank.rank (fun j => (fR j).front.isSome) n,
        Rank.rank (fun j => (fL j).back.isSome) n, Rank.rank (fun j => (fR j).back.isSome) n,
        ((List.range n).filter (isDeep fL fR)).map (deeperAt fL fR higherLeft higherRight d),
        out ++ ((List.range n).filter fun i => ! isDeep fL fR i).flatMap
          (inlineAt fL fR order path higherLeft higherRight d)⟩ := by
  induction n with
  | zero =>
      simp only [Rank.rank, List.range_zero, List.filter_nil, List.map_nil, List.flatMap_nil,
        List.append_nil, List.length_nil]
      rfl
  | succ n ih =>
      rw [List.range_succ, List.foldlM_append, ih (by omega), ok_bind]
      simp only [List.foldlM_cons, List.foldlM_nil, bind_pure, diffSlot, hL n (by omega), hR n (by omega), ok_bind, dataStep_payloadOf,
        nodeStep_payloadOf, Rank.rank_succ, List.filter_append, List.map_append]
      cases hdeep : isDeep fL fR n with
      | true =>
          have hdeep' := hdeep
          unfold isDeep at hdeep'
          rw [if_pos hdeep']
          simp [hdeep, deeperAt]
      | false =>
          have hdeep' := hdeep
          unfold isDeep at hdeep'
          rw [if_neg (by rw [hdeep']; exact Bool.false_ne_true)]
          simp [hdeep, inlineAt]

end Loop

/-- A loop over slots, each of which appends a list with a property of its own. -/
theorem foldlM_append_each (step : List DiffEntry → ℕ → Result (List DiffEntry))
    (P : ℕ → List DiffEntry → Prop) {l : List ℕ} (hnd : l.Nodup)
    (h : ∀ i ∈ l, ∀ acc, ∃ ds, step acc i = .ok (acc ++ ds) ∧ P i ds) (acc : List DiffEntry) :
    ∃ g : ℕ → List DiffEntry, l.foldlM step acc = .ok (acc ++ l.flatMap g) ∧
      ∀ i ∈ l, P i (g i) := by
  induction l generalizing acc with
  | nil =>
      refine ⟨fun _ => [], ?_, fun i hi => absurd hi List.not_mem_nil⟩
      rw [List.flatMap_nil, List.append_nil]
      rfl
  | cons i l ih =>
      obtain ⟨hi, hnd⟩ := List.nodup_cons.1 hnd
      obtain ⟨ds, hds, hP⟩ := h i (List.mem_cons_self ..) acc
      obtain ⟨g, hg, hPg⟩ := ih hnd (fun j hj => h j (List.mem_cons_of_mem _ hj)) (acc ++ ds)
      have hne : ∀ j ∈ l, Function.update g i ds j = g j := by
        intro j hj
        rw [Function.update_of_ne]
        rintro rfl
        exact hi hj
      refine ⟨Function.update g i ds, ?_, ?_⟩
      · rw [List.foldlM_cons, hds, ok_bind, hg, List.flatMap_cons, Function.update_self,
          List.flatMap_congr hne, List.append_assoc]
      · intro j hj
        rcases List.mem_cons.1 hj with rfl | hj
        · rw [Function.update_self]
          exact hP
        · rw [hne j hj]
          exact hPg j hj

/-- A tree determines its map. -/
theorem Canonical.entries_eq {H : KeyHasher} {bat : Option BatId} {d : ℕ} {c : Champ}
    {es es' : List KeyElement} (hbat : BatReadable bat) (h : Canonical S sha256 H bat s d c es)
    (h' : Canonical S sha256 H bat s d c es') (hs : SortedEntries es) (hs' : SortedEntries es')
    (hn : NoNull es) (hn' : NoNull es') : es = es' := by
  have hfuel : hashCodeLength ≤ hashCodeLength + d := Nat.le_add_right _ _
  obtain ⟨out, hout, hperm⟩ := collectMappings_perm h hs hn hbat hfuel
  obtain ⟨out', hout', hperm'⟩ := collectMappings_perm h' hs' hn' hbat hfuel
  cases hout.symm.trans hout'
  exact hs.ext hs' fun x => hperm.mem_iff.symm.trans hperm'.mem_iff

/-- Two sides under one link hold the same map. -/
theorem side_eq {batL batR : Option BatId} (hbatL : BatReadable batL) (hbatR : BatReadable batR)
    {d : ℕ} {c : Cid} {hl hr L R : List KeyElement} (h : Side S sha256 batL s d (some c) hl L)
    (h' : Side S sha256 batR s d (some c) hr R) (hL : SortedEntries L) (hR : SortedEntries R)
    (hnL : NoNull L) (hnR : NoNull R) : L = R := by
  rcases h with ⟨c₁, node, hc, hst, hcan, -⟩ | ⟨hc, -⟩
  · rcases h' with ⟨c₂, node', hc', hst', hcan', -⟩ | ⟨hc', -⟩
    · cases hc
      cases hc'
      have hread := hcan.fromCbor_toCbor hnL hbatL
      rw [hst.unique hst', hcan'.fromCbor_toCbor hnR hbatR] at hread
      cases Except.ok.inj hread
      cases hcan.mirrorBat.symm.trans hcan'.mirrorBat
      exact Canonical.entries_eq hbatL hcan hcan' hL hR hnL hnR
    · cases hc'
  · cases hc

/-- A side without a link is its mappings. -/
theorem Side.higher_eq {bat : Option BatId} {d : ℕ} {cid : Option Cid}
    {higher es : List KeyElement} (h : Side S sha256 bat s d cid higher es)
    (hcid : cid.isSome = false) : higher = es := by
  rcases h with ⟨c, node, rfl, -⟩ | ⟨-, h⟩
  · cases hcid
  · exact h

/-- A link is never followed past the last level. -/
theorem side_level {batL batR : Option BatId} {d : ℕ} {original updated : Option Cid}
    {hl hr L R : List KeyElement} (h : Side S sha256 batL s d original hl L)
    (h' : Side S sha256 batR s d updated hr R)
    (hsome : (original.isSome || updated.isSome) = true) : d < hashCodeLength := by
  rcases h with ⟨c, node, rfl, -, hcan, -⟩ | ⟨rfl, -⟩
  · exact hcan.level_lt
  · rcases h' with ⟨c, node, rfl, -, hcan, -⟩ | ⟨rfl, -⟩
    · exact hcan.level_lt
    · cases hsome

/-- `diff` appends the difference of the two maps. -/
theorem diff_spec {order : HashOrder} (horder : order.Lawful) {batL batR : Option BatId}
    (hbatL : BatReadable batL) (hbatR : BatReadable batR) {fuel d : ℕ}
    (hfuel : hashCodeLength ≤ fuel + d) {p : List ℕ} {original updated : Option Cid}
    {higherLeft higherRight L R : List KeyElement}
    (hl : Side S sha256 batL s d original higherLeft L)
    (hr : Side S sha256 batR s d updated higherRight R)
    (hsome : (original.isSome || updated.isSome) = true) (hL : SortedEntries L)
    (hR : SortedEntries R) (hvL : Valued L) (hvR : Valued R) (out : List DiffEntry) :
    ∃ ds, diff S fuel s order p original updated d higherLeft higherRight out =
      .ok (out ++ ds) ∧ DiffSpec L R ds := by
  induction fuel generalizing d p original updated higherLeft higherRight L R out with
  | zero =>
      have := side_level hl hr hsome
      omega
  | succ fuel ih =>
      have hd := side_level hl hr hsome
      unfold diff
      by_cases heq : original = updated
      · rw [if_pos heq]
        subst heq
        rw [Bool.or_self, Option.isSome_iff_exists] at hsome
        obtain ⟨c, rfl⟩ := hsome
        cases side_eq hbatL hbatR hl hr hL hR hvL.noNull hvR.noNull
        exact ⟨[], by rw [List.append_nil], DiffSpec.refl L⟩
      rw [if_neg heq]
      obtain ⟨left, fL, hleft, hgetL, hsideL⟩ := loadChamp_side hbatL hl hvL.noNull
      obtain ⟨right, fR, hright, hgetR, hsideR⟩ := loadChamp_side hbatR hr hvR.noNull
      rw [hleft, ok_bind, hright, ok_bind, foldlM_diffSlot hgetL hgetR out (le_refl _), ok_bind]
      simp only
      rw [List.foldlM_map]
      obtain ⟨g, hg, hspec⟩ := foldlM_append_each
        (fun acc i => diff S fuel s order (p ++ [i]) (slotShard (payloadOf (fL i)))
          (slotShard (payloadOf (fR i))) (d + 1)
          (slotMappings (payloadOf (fL i)) (hashAndMask higherLeft d i))
          (slotMappings (payloadOf (fR i)) (hashAndMask higherRight d i)) acc)
        (fun i => DiffSpec (inSlot identityKeyHasher d i L) (inSlot identityKeyHasher d i R))
        (List.nodup_range.filter (isDeep fL fR)) (fun i hi acc => by
          obtain ⟨hi, hdeep⟩ := List.mem_filter.1 hi
          have hi := List.mem_range.1 hi
          exact ih (by omega) (hsideL i hi) (hsideR i hi) hdeep (sorted_inSlot hL)
            (sorted_inSlot hR) (valued_inSlot hvL d i) (valued_inSlot hvR d i) acc)
        (out ++ ((List.range slots).filter fun i => ! isDeep fL fR i).flatMap
          (inlineAt fL fR order p higherLeft higherRight d))
      refine ⟨((List.range slots).filter (fun i => ! isDeep fL fR i) ++
        (List.range slots).filter (isDeep fL fR)).flatMap fun i => if isDeep fL fR i then g i
          else inlineAt fL fR order p higherLeft higherRight d i, ?_, ?_⟩
      · refine hg.trans ?_
        rw [List.flatMap_append, ← List.append_assoc]
        congr 2
        · congr 1
          refine List.flatMap_congr ?_
          intro i hi
          rw [if_neg (by simpa using (List.mem_filter.1 hi).2)]
        · refine List.flatMap_congr ?_
          intro i hi
          rw [if_pos (List.mem_filter.1 hi).2]
      · refine DiffSpec.flatMap hd ?_ ?_
        · refine List.perm_append_comm.trans ?_
          exact List.filter_append_perm (isDeep fL fR) (List.range slots)
        · intro i hi
          cases hdeep : isDeep fL fR i with
          | true =>
              exact hspec i (List.mem_filter.2 ⟨List.mem_range.2 hi, hdeep⟩)
          | false =>
              obtain ⟨hdeepL, hdeepR⟩ := Bool.or_eq_false_iff.1 hdeep
              have hmapL := (hsideL i hi).higher_eq hdeepL
              have hmapR := (hsideR i hi).higher_eq hdeepR
              rw [if_neg Bool.false_ne_true, inlineAt, hmapL, hmapR]
              exact compareMappings_spec (sorted_inSlot hL) (sorted_inSlot hR) (valued_inSlot hvL d i)
                (valued_inSlot hvR d i) (horder _ _) (horder _ _)

end Walk

end ChampMerge

end Peergos
