import PeergosClient.Social.FeedReading

/-!
# The feed misses nothing

The feed is compared with the reader of the history.  Its offset into a source always stands at a
capability, at or before the one the reader has come to, and the offset it has saved at or before
that; what lies between the saved offset and the reader's place has no record, so that reading it a
second time after opening the feed again adds nothing twice.

An update does as well as the reader only for the groups whose folder it finds among the new
capabilities of the friend, which is what `Covers` asks for.
-/

namespace Peergos

open RecordStream

/-! ## The feed file -/

section FeedFile

/-- The bytes of a record. -/
def SharedItem.bytes (i : SharedItem) : Bytes := i.toCbor.toBytes

theorem SharedItem.bytes_ne_nil (i : SharedItem) : SharedItem.bytes i ≠ [] := by
  intro h
  have hpos := CborObject.length_toBytes_pos i.toCbor
  rw [show i.toCbor.toBytes = [] from h] at hpos
  exact lt_irrefl 0 hpos

/-- The offsets of all the records of a feed file. -/
def recordOffsets (records : List SharedItem) : List ℕ :=
  (List.range records.length).map (offset SharedItem.bytes records)

theorem appendRecords_concat (items records : List SharedItem) :
    appendRecords items (concat SharedItem.bytes records) (recordOffsets records) =
      (concat SharedItem.bytes (records ++ items), recordOffsets (records ++ items)) := by
  induction items generalizing records with
  | nil => simp [appendRecords]
  | cons item items ih =>
      have hdata : concat SharedItem.bytes records ++ item.toCbor.toBytes =
          concat SharedItem.bytes (records ++ [item]) := by
        simp [SharedItem.bytes]
      have hindex : recordOffsets records ++ [(concat SharedItem.bytes records).length] =
          recordOffsets (records ++ [item]) := by
        have hlast : offset SharedItem.bytes (records ++ [item]) records.length =
            (concat SharedItem.bytes records).length := by
          rw [offset_append le_rfl, offset_length]
        have hold : ∀ i ∈ List.range records.length, offset SharedItem.bytes records i =
            offset SharedItem.bytes (records ++ [item]) i := fun i hi =>
          (offset_append (List.mem_range.1 hi).le).symm
        rw [recordOffsets, recordOffsets, List.length_append, List.length_singleton,
          List.range_succ, List.map_append, List.map_singleton, hlast, List.map_congr_left hold]
      rw [appendRecords, hdata, hindex, ih]
      simp

theorem readRecords_stop {first want fuel record : ℕ} {buf : Bytes} {out : List SharedItem}
    (h : buf = [] ∨ want ≤ out.length) :
    SocialFeed.readRecords first want fuel buf record out = .ok out := by
  cases fuel <;> rw [SocialFeed.readRecords, if_pos h]

/-- The loop over the feed file gives the records it begins with, as many as are wanted. -/
theorem readRecords_concat {first want record fuel : ℕ} {records out : List SharedItem}
    (hrecord : first ≤ record) (hfuel : (concat SharedItem.bytes records).length ≤ fuel)
    (hlen : (concat SharedItem.bytes records).length < 2 ^ 63)
    (henc : ∀ r ∈ records, r.cap.Encodable) :
    SocialFeed.readRecords first want fuel (concat SharedItem.bytes records) record out =
      .ok (out ++ records.take (want - out.length)) := by
  induction records generalizing record fuel out with
  | nil =>
      rw [concat_nil, readRecords_stop (.inl rfl)]
      simp
  | cons r records ih =>
      have hpos := List.length_pos_iff.2 (SharedItem.bytes_ne_nil r)
      have hne : concat SharedItem.bytes (r :: records) ≠ [] := by
        rw [concat_cons]
        exact fun h => SharedItem.bytes_ne_nil r (List.append_eq_nil_iff.1 h).1
      by_cases hwant : want ≤ out.length
      · rw [readRecords_stop (.inr hwant), Nat.sub_eq_zero_of_le hwant]
        simp
      · rw [concat_cons, List.length_append] at hfuel hlen
        cases fuel with
        | zero => omega
        | succ fuel =>
            have hread : CborObject.fromBytesConsumed (concat SharedItem.bytes (r :: records)) =
                .ok (r.toCbor, (SharedItem.bytes r).length) := by
              rw [concat_cons]
              refine CborObject.fromBytesConsumed_encoded r.ordered_toCbor ?_
              rw [List.length_append]
              exact lt_trans hlen (by norm_num)
            have hdrop : (concat SharedItem.bytes (r :: records)).drop
                (SharedItem.bytes r).length = concat SharedItem.bytes records := by
              rw [concat_cons, List.drop_left]
            have hrest : SocialFeed.readRecords first want fuel (concat SharedItem.bytes records)
                (record + 1) (out ++ [r]) = _ :=
              ih (by omega) (by omega) (by omega) fun r' hr' => henc r' (List.mem_cons_of_mem _ hr')
            have htake : want - out.length = (want - (out ++ [r]).length) + 1 := by
              rw [List.length_append, List.length_singleton]
              omega
            rw [SocialFeed.readRecords, if_neg (not_or.2 ⟨hne, hwant⟩)]
            simp only [hread, liftCbor, ok_bind, if_neg hpos.ne', if_pos hrecord,
              SharedItem.fromCbor_toCbor (henc r List.mem_cons_self), hdrop, hrest]
            rw [htake, List.take_succ_cons]
            simp

/-- `get_shared` on a feed file whose index and size are right. -/
theorem getShared_of_records {s : SocialFeed} {records : List SharedItem}
    (hfile : s.dir.feedFile.getD [] = concat SharedItem.bytes records)
    (hindex : s.dir.feedIndex.getD [] = recordOffsets records)
    (hsize : s.state.feedSizeRecords = records.length) (henc : ∀ r ∈ records, r.cap.Encodable)
    (hlen : (s.dir.feedFile.getD []).length < 2 ^ 63) (first upTo : ℕ) :
    s.getShared first upTo = .ok ((records.take (min upTo s.feedSize)).drop first) := by
  unfold SocialFeed.getShared
  cases hbytes : s.dir.feedFile with
  | none =>
      have hnil : records = [] := by
        cases records with
        | nil => rfl
        | cons r records =>
            rw [hbytes, concat_cons] at hfile
            exact absurd (List.append_eq_nil_iff.1 hfile.symm).1 (SharedItem.bytes_ne_nil r)
      simp [hnil]
  | some bytes =>
      rw [hbytes] at hfile hlen
      obtain rfl : bytes = concat SharedItem.bytes records := hfile
      simp only [SocialFeed.priorByteOffset, hindex, recordOffsets, List.getElem?_map, hsize,
        SocialFeed.feedSize]
      by_cases hfirst : first < records.length
      · have hoff : offset SharedItem.bytes records first ≤
            (concat SharedItem.bytes records).length := offset_le
        have hle : (concat SharedItem.bytes (records.drop first)).length ≤
            (concat SharedItem.bytes records).length := by
          rw [← drop_offset, List.length_drop]
          exact Nat.sub_le _ _
        simp only [List.getElem?_range hfirst, Option.map_some, min_eq_left hoff, drop_offset]
        rw [readRecords_concat le_rfl hle (lt_of_le_of_lt hle hlen)
          fun r hr => henc r (List.mem_of_mem_drop hr), List.drop_take, min_comm]
        simp
      · have hnone : (List.range records.length)[first]? = none := by simpa using hfirst
        have hwant : min records.length upTo - first = 0 := by omega
        have hdrop : (records.take (min upTo records.length)).drop first = [] :=
          List.drop_eq_nil_of_le (by rw [List.length_take]; omega)
        rw [hnone, hdrop, hwant, Option.map_none, readRecords_stop (.inr (Nat.zero_le _))]

end FeedFile

/-! ## The invariant -/

/-- The feed against the reader: `seen` and `saved` are the places its offsets stand at, in memory
and in its folder. -/
structure FeedInv (w : Shares) (g : Reader) (s : SocialFeed) (records : List SharedItem)
    (places : List (Source × ℕ)) (seen saved : Source → ℕ) : Prop where
  file : s.dir.feedFile.getD [] = concat SharedItem.bytes records
  index : s.dir.feedIndex.getD [] = recordOffsets records
  size : s.state.feedSizeRecords = records.length
  savedSize : s.dir.saved.feedSizeRecords = records.length
  none_twice : places.Nodup
  recordOf : List.Forall₂ (RecordOf w g) places records
  none_missing : ∀ src i path, g.Resolved src i path → (src, i) ∈ places
  seen_offset : ∀ src, s.state.offset src = offset SharedCap.bytes (w.entries src) (seen src)
  saved_offset : ∀ src, s.dir.saved.offset src =
    offset SharedCap.bytes (w.entries src) (saved src)
  saved_le : ∀ src, saved src ≤ seen src
  seen_le : ∀ src, seen src ≤ g.count src
  count_le : ∀ src, g.count src ≤ (w.entries src).length
  places_lt : ∀ t ∈ places, t.2 < saved t.1

theorem state_load (dir : FeedDir) : (SocialFeed.load dir).state = dir.saved := by
  rw [SocialFeed.load, FeedDir.saved]
  cases dir.feedState <;> rfl

namespace FeedInv

variable {w w' : Shares} {g : Reader} {s : SocialFeed} {records : List SharedItem}
  {places : List (Source × ℕ)} {seen saved : Source → ℕ}

theorem encodable (h : FeedInv w g s records places seen saved) :
    ∀ r ∈ records, r.cap.Encodable := by
  intro r hr
  obtain ⟨i, hi, rfl⟩ := List.getElem_of_mem hr
  have hlen := h.recordOf.length_eq
  obtain ⟨⟨c, -, hcap⟩, -⟩ := List.Forall₂.get h.recordOf (hlen ▸ hi) hi
  rw [List.get_eq_getElem] at hcap
  rw [hcap]
  exact c.2

theorem holds (h : FeedInv w g s records places seen saved) : FeedHolds w g s records places where
  none_twice := h.none_twice
  recordOf := h.recordOf
  none_missing := h.none_missing
  size := h.size
  getShared hlen := getShared_of_records h.file h.index h.size h.encodable hlen

/-- A feed that has never been opened. -/
theorem start (w : Shares) :
    FeedInv w Reader.empty ⟨default, ⟨none, none, none⟩⟩ [] [] (fun _ => 0) fun _ => 0 where
  file := rfl
  index := rfl
  size := rfl
  savedSize := rfl
  none_twice := List.nodup_nil
  recordOf := .nil
  none_missing := by
    rintro src i path ⟨h, -⟩
    cases h
  seen_offset := by
    rintro ⟨friend, _ | uid, _ | _⟩ <;> rfl
  saved_offset := by
    rintro ⟨friend, _ | uid, _ | _⟩ <;> rfl
  saved_le _ := le_rfl
  seen_le _ := le_rfl
  count_le _ := Nat.zero_le _
  places_lt := by simp

/-- What friends add lies beyond everything the feed and the reader have seen. -/
theorem grows (h : FeedInv w g s records places seen saved) (hw : w.Grows w') :
    FeedInv w' g s records places seen saved := by
  have hoff : ∀ src n, n ≤ g.count src → offset SharedCap.bytes (w.entries src) n =
      offset SharedCap.bytes (w'.entries src) n := by
    intro src n hn
    obtain ⟨rest, hrest⟩ := hw src
    rw [← hrest, offset_append (hn.trans (h.count_le src))]
  refine { h with recordOf := ?_, seen_offset := ?_, saved_offset := ?_, count_le := ?_ }
  · refine h.recordOf.imp fun t r hr => ?_
    obtain ⟨⟨c, hc, hcap⟩, hr⟩ := hr
    obtain ⟨rest, hrest⟩ := hw t.1
    have hlt := (List.getElem?_eq_some_iff.1 hc).1
    rw [← List.getElem?_append_left hlt, hrest] at hc
    exact ⟨⟨c, hc, hcap⟩, hr⟩
  · exact fun src => (h.seen_offset src).trans (hoff src _ (h.seen_le src))
  · exact fun src => (h.saved_offset src).trans
      (hoff src _ ((h.saved_le src).trans (h.seen_le src)))
  · exact fun src => (h.count_le src).trans (hw src).length_le

/-- Opening the feed again goes back to what was saved. -/
theorem load (h : FeedInv w g s records places seen saved) :
    FeedInv w g (SocialFeed.load s.dir) records places saved saved := by
  have hstate := state_load s.dir
  have hsaved : (SocialFeed.load s.dir).dir.saved = s.dir.saved := by
    rw [SocialFeed.load, FeedDir.saved, FeedDir.saved]
    cases hs : s.dir.feedState <;> simp [hs]
  have hfiles : (SocialFeed.load s.dir).dir.feedFile = s.dir.feedFile ∧
      (SocialFeed.load s.dir).dir.feedIndex = s.dir.feedIndex := by
    rw [SocialFeed.load]
    cases s.dir.feedState <;> exact ⟨rfl, rfl⟩
  refine
    { h with
      file := ?_
      index := ?_
      size := ?_
      savedSize := ?_
      seen_offset := ?_
      saved_offset := ?_
      saved_le := fun _ => le_rfl
      seen_le := ?_ }
  · rw [hfiles.1]
    exact h.file
  · rw [hfiles.2]
    exact h.index
  · rw [hstate]
    exact h.savedSize
  · rw [hsaved]
    exact h.savedSize
  · rw [hstate]
    exact h.saved_offset
  · rw [hsaved]
    exact h.saved_offset
  · exact fun src => (h.saved_le src).trans (h.seen_le src)

end FeedInv

/-! ## One friend -/

section Friend

variable {env : FeedEnv} {w : Shares} {g : Reader} {s : SocialFeed} {records : List SharedItem}
  {places : List (Source × ℕ)} {seen saved : Source → ℕ} {f : EntryPoint} {name : String}

/-- The sources an update reads to the end. -/
def ReadsTo (w : Shares) (name : String) (seen : Source → ℕ) (src : Source) : Prop :=
  src.friend = name ∧ ∀ uid ∈ src.group, uid ∈ (newDirs w name seen).map Prod.fst

instance (w : Shares) (name : String) (seen : Source → ℕ) (src : Source) :
    Decidable (ReadsTo w name seen src) := inferInstanceAs (Decidable (_ ∧ _))

/-- The places of the feed's offsets after an update has gone through a friend. -/
def seenAfter (w : Shares) (name : String) (seen : Source → ℕ) (src : Source) : ℕ :=
  if ReadsTo w name seen src then (w.entries src).length else seen src

/-- A source that an update reads is one the reader looks at. -/
theorem ReadsTo.looksAt {src : Source} (h : ReadsTo w name seen src) : g.looksAt w name src := by
  refine ⟨h.1, fun uid huid => .inr ?_⟩
  obtain ⟨d, hd, rfl⟩ := List.mem_map.1 (h.2 uid huid)
  obtain ⟨file, c, hc, path, hres, hgroup, -⟩ := mem_newDirs hd
  exact ⟨file, c, hc, path, hres, hgroup⟩

theorem capOffsets_of_offsets {o : CapOffsets} {group : Option String}
    (hr : o.readCapBytes = offset SharedCap.bytes (w.entries ⟨name, group, .read⟩)
      (seen ⟨name, group, .read⟩))
    (hw : o.writeCapBytes = offset SharedCap.bytes (w.entries ⟨name, group, .write⟩)
      (seen ⟨name, group, .write⟩)) : o = offsetsAt w name group seen := by
  cases o
  cases hr
  cases hw
  rfl

theorem FeedInv.readFriend (h : FeedInv w g s records places seen saved) (henv : Serves env w)
    (hf : f ∈ w.friends) : readFriend env f (s.state.processed f.ownerName) =
      .ok (processedAfter w f.ownerName seen (s.state.processed f.ownerName),
        (freshOf w f.ownerName seen).map fun x => x.2.toItem f.ownerName) := by
  refine readFriend_offsetsAt henv hf ?_ fun uid => ?_
  · exact capOffsets_of_offsets (h.seen_offset ⟨_, none, .read⟩) (h.seen_offset ⟨_, none, .write⟩)
  · exact capOffsets_of_offsets (h.seen_offset ⟨_, some uid, .read⟩)
      (h.seen_offset ⟨_, some uid, .write⟩)

/-- The offsets in memory after a friend has been read. -/
theorem FeedInv.offset_setProcessed (h : FeedInv w g s records places seen saved) (src : Source) :
    (s.setProcessed name (processedAfter w name seen (s.state.processed name))).state.offset src =
      offset SharedCap.bytes (w.entries src) (seenAfter w name seen src) := by
  have hold := h.seen_offset src
  obtain ⟨friend, group, file⟩ := src
  by_cases hname : friend = name
  · subst hname
    cases group with
    | none =>
        have hreads : ReadsTo w friend seen ⟨friend, none, file⟩ := ⟨rfl, by simp⟩
        rw [seenAfter, if_pos hreads, offset_length]
        cases file <;> simp [FeedState.offset, SocialFeed.setProcessed, processedAfter, offsetsEnd,
          Shares.fileLength]
    | some uid =>
        by_cases hmem : uid ∈ (newDirs w friend seen).map Prod.fst
        · have hreads : ReadsTo w friend seen ⟨friend, some uid, file⟩ := ⟨rfl, by simpa using hmem⟩
          rw [seenAfter, if_pos hreads, offset_length]
          cases file <;> simp only [FeedState.offset, SocialFeed.setProcessed, processedAfter,
            offsetsEnd, Function.update_self, if_pos hmem] <;> rfl
        · have hreads : ¬ ReadsTo w friend seen ⟨friend, some uid, file⟩ :=
            fun hr => hmem (hr.2 uid rfl)
          rw [seenAfter, if_neg hreads, ← hold]
          cases file <;> simp only [FeedState.offset, SocialFeed.setProcessed, processedAfter,
            Function.update_self, if_neg hmem]
  · have hreads : ¬ ReadsTo w name seen ⟨friend, group, file⟩ := fun hr => hname hr.1
    rw [seenAfter, if_neg hreads, ← hold]
    simp only [FeedState.offset, SocialFeed.setProcessed, Function.update_of_ne hname]

theorem forM_ok {α : Type} {f : α → Result Unit} {l : List α} (h : ∀ a ∈ l, f a = .ok ()) :
    l.forM f = .ok () := by
  induction l with
  | nil => rfl
  | cons a l ih =>
      rw [List.forM_eq_forM, List.forM_cons, h a List.mem_cons_self, ok_bind]
      exact ih fun a' ha' => h a' (List.mem_cons_of_mem _ ha')

/-- The comments among the new records can be merged. -/
theorem FeedInv.mergeInComments (h : FeedInv w g s records places seen saved)
    (hcov : CoversFriend env w g s.state name) :
    mergeInComments env ((freshOf w name seen).map fun x => x.2.toItem name) = .ok () := by
  unfold Peergos.mergeInComments
  cases hu : env.username with
  | none => rfl
  | some username =>
      refine forM_ok fun parent hparent => ?_
      obtain ⟨i, hi, hown⟩ :=
        List.mem_filterMap.1 (List.mem_dedup.1 ((List.mergeSort_perm _ _).mem_iff.1 hparent))
      obtain ⟨x, hx, rfl⟩ := List.mem_map.1 hi
      obtain ⟨hfresh, hname, -, -⟩ := mem_freshOf.1 hx
      obtain ⟨-, hle, c, hc, hcap, -⟩ := mem_fresh.1 hfresh
      obtain ⟨hpost, hmine⟩ := Option.filter_eq_some_iff.1 hown
      refine hcov.comments x.1.1 hname c ?_ username hu parent ?_ hmine _
      · rw [h.seen_offset, Shares.unread, recordsAfter_offset SharedCap.bytes_ne_nil
          ((h.seen_le _).trans (h.count_le _))]
        refine List.mem_of_getElem? (i := x.1.2 - seen x.1.1) ?_
        rw [List.getElem?_drop, Nat.add_sub_cancel' hle]
        exact hc
      · rw [← hcap]
        exact hpost

/-- A group whose folder stands among the new capabilities of the friend is read. -/
theorem mem_newDirs_of_unread {file : SharingFile} {c : SharedCap} {path uid : String}
    (hc : c ∈ (w.entries ⟨name, none, file⟩).drop (seen ⟨name, none, file⟩))
    (hres : w.resolve c.1 = some path) (huid : groupUidFromPath path = some uid) :
    uid ∈ (newDirs w name seen).map Prod.fst := by
  obtain ⟨i, hi⟩ := List.mem_iff_getElem?.1 hc
  rw [List.getElem?_drop] at hi
  have hfresh : ((⟨name, none, file⟩, seen ⟨name, none, file⟩ + i), ⟨path, c.1⟩) ∈
      fresh w ⟨name, none, file⟩ (seen ⟨name, none, file⟩) :=
    mem_fresh.2 ⟨rfl, Nat.le_add_right _ _, c, hi, rfl, hres⟩
  exact (groupDirs_spec _).2.2 ⟨path, c.1⟩
    (List.mem_map.2 ⟨_, mem_freshFolder.2 ⟨file, hfresh⟩, rfl⟩) uid huid

/-- What the reader finds for the first time at a friend, the update finds too. -/
theorem FeedInv.resolved_pollFriend (h : FeedInv w g s records places seen saved)
    (hcov : CoversFriend env w g s.state name) {src : Source} {i : ℕ} {path : String}
    (hres : (g.pollFriend w name).Resolved src i path) : g.Resolved src i path ∨
      g.count src ≤ i ∧ ∃ cap, ((src, i), ⟨path, cap⟩) ∈ freshOf w name seen := by
  obtain ⟨hpath, hnone⟩ := hres
  by_cases hlook : g.looksAt w name src ∧ g.count src ≤ i
  · right
    simp only [Reader.pollFriend, if_pos hlook] at hpath
    obtain ⟨c, hc, hcpath⟩ := Option.bind_eq_some_iff.1 hpath
    have hi : seen src ≤ i := (h.seen_le src).trans hlook.2
    refine ⟨hlook.2, c.1, mem_freshOf.2 ⟨mem_fresh.2 ⟨rfl, hi, c, hc, rfl, hcpath⟩,
      hlook.1.1, hnone, fun uid huid => ?_⟩⟩
    -- the group has a capability the feed has not read, so its folder has been given anew
    have hlt : seen src < (w.entries src).length :=
      lt_of_le_of_lt hi (List.getElem?_eq_some_iff.1 hc).1
    obtain ⟨friend, group, file⟩ := src
    obtain rfl : group = some uid := huid
    obtain rfl : friend = name := hlook.1.1
    obtain ⟨file', c', hc', path', hres', huid'⟩ := hcov.groups uid (hlook.1.2 uid rfl) file (by
      rw [h.seen_offset]
      exact offset_lt_length SharedCap.bytes_ne_nil hlt)
    rw [h.seen_offset, Shares.unread, recordsAfter_offset SharedCap.bytes_ne_nil
      ((h.seen_le _).trans (h.count_le _))] at hc'
    exact mem_newDirs_of_unread hc' hres' huid'
  · left
    simp only [Reader.pollFriend, if_neg hlook] at hpath
    exact ⟨hpath, hnone⟩

theorem FeedInv.lt_count (h : FeedInv w g s records places seen saved) {t : Source × ℕ}
    (ht : t ∈ places) : t.2 < seen t.1 ∧ t.2 < g.count t.1 :=
  have hlt := lt_of_lt_of_le (h.places_lt t ht) (h.saved_le t.1)
  ⟨hlt, lt_of_lt_of_le hlt (h.seen_le t.1)⟩

/-- The new records are records of the places they come from. -/
theorem FeedInv.recordOf_fresh (h : FeedInv w g s records places seen saved)
    (hcov : CoversFriend env w g s.state name) {x : (Source × ℕ) × CapabilityWithPath}
    (hx : x ∈ freshOf w name seen) :
    RecordOf w (g.pollFriend w name) x.1 (x.2.toItem name) := by
  obtain ⟨hfresh, hname, -, -⟩ := mem_freshOf.1 hx
  obtain ⟨-, hle, c, hc, hcap, hres⟩ := mem_fresh.1 hfresh
  refine ⟨⟨c, hc, hcap⟩, hname.symm, rfl, fun path hpath => ?_⟩
  rcases h.resolved_pollFriend hcov hpath with hold | ⟨-, cap, hmem⟩
  · have hlt := (h.lt_count (h.none_missing _ _ _ hold)).1
    exact absurd hle (Nat.not_le_of_lt hlt)
  · obtain ⟨-, -, c', hc', -, hres'⟩ := mem_fresh.1 (mem_freshOf.1 hmem).1
    rw [hc] at hc'
    obtain rfl := Option.some.inj hc'
    rw [hres] at hres'
    exact Option.some.inj hres'

theorem FeedInv.recordOf_old (h : FeedInv w g s records places seen saved)
    (hcov : CoversFriend env w g s.state name) :
    List.Forall₂ (RecordOf w (g.pollFriend w name)) places records := by
  refine List.forall₂_iff_zip.2 ⟨h.recordOf.length_eq, fun {t r} htr => ?_⟩
  obtain ⟨hcap, hsharer, howner, hpath⟩ := (List.forall₂_iff_zip.1 h.recordOf).2 htr
  refine ⟨hcap, hsharer, howner, fun path hres => ?_⟩
  rcases h.resolved_pollFriend hcov hres with hold | ⟨hle, -⟩
  · exact hpath path hold
  · exact absurd hle (Nat.not_le_of_lt (h.lt_count (List.of_mem_zip htr).1).2)

/-- The places of the new records have no record yet. -/
theorem FeedInv.nodup_fresh (h : FeedInv w g s records places seen saved) :
    (places ++ (freshOf w name seen).map Prod.fst).Nodup := by
  refine List.Nodup.append h.none_twice nodup_freshOf fun t ht hnew => ?_
  obtain ⟨x, hx, rfl⟩ := List.mem_map.1 hnew
  have hle := (mem_fresh.1 (mem_freshOf.1 hx).1).2.1
  exact absurd hle (Nat.not_le_of_lt (h.lt_count ht).1)

theorem FeedInv.seen_le_seenAfter (h : FeedInv w g s records places seen saved) (name : String)
    (src : Source) :
    seen src ≤ seenAfter w name seen src ∧
      seenAfter w name seen src ≤ (g.pollFriend w name).count src ∧
      (g.pollFriend w name).count src ≤ (w.entries src).length := by
  have hseen := h.seen_le src
  have hcount := h.count_le src
  rw [seenAfter]
  by_cases hreads : ReadsTo w name seen src
  · have hlook : g.looksAt w name src := hreads.looksAt
    simp only [Reader.pollFriend, if_pos hreads, if_pos hlook]
    omega
  · simp only [Reader.pollFriend, if_neg hreads]
    split_ifs <;> omega

/-- The records after an update has gone through a friend, whatever it then writes. -/
theorem FeedInv.pollFriend (h : FeedInv w g s records places seen saved)
    (hcov : CoversFriend env w g s.state name) :
    List.Forall₂ (RecordOf w (g.pollFriend w name)) (places ++ (freshOf w name seen).map Prod.fst)
        (records ++ (freshOf w name seen).map fun x => x.2.toItem name) ∧
      ∀ src i path, (g.pollFriend w name).Resolved src i path →
        (src, i) ∈ places ++ (freshOf w name seen).map Prod.fst := by
  refine ⟨List.rel_append (h.recordOf_old hcov) ?_, fun src i path hres => ?_⟩
  · rw [List.forall₂_map_left_iff, List.forall₂_map_right_iff, List.forall₂_same]
    exact fun x hx => h.recordOf_fresh hcov hx
  · rw [List.mem_append]
    rcases h.resolved_pollFriend hcov hres with hold | ⟨-, cap, hmem⟩
    · exact .inl (h.none_missing src i path hold)
    · exact .inr (List.mem_map.2 ⟨_, hmem, rfl⟩)

/-- The feed once a friend's files have been read and before anything is written. -/
def readUpTo (w : Shares) (s : SocialFeed) (name : String) (seen : Source → ℕ) : SocialFeed :=
  s.setProcessed name (processedAfter w name seen (s.state.processed name))

/-- With nothing new the feed's folder stays as it is, and the offsets in it too. -/
theorem FeedInv.nothingNew (h : FeedInv w g s records places seen saved)
    (hcov : CoversFriend env w g s.state name) (hnil : freshOf w name seen = []) :
    FeedInv w (g.pollFriend w name) (readUpTo w s name seen) records places
      (seenAfter w name seen) saved := by
  obtain ⟨hrecords, hmissing⟩ := h.pollFriend hcov
  have hseen := fun src => h.seen_le_seenAfter name src
  rw [hnil, List.map_nil, List.map_nil, List.append_nil, List.append_nil] at hrecords
  rw [hnil, List.map_nil, List.append_nil] at hmissing
  exact
    { h with
      recordOf := hrecords
      none_missing := hmissing
      seen_offset := fun src => h.offset_setProcessed src
      saved_le := fun src => (h.saved_le src).trans (hseen src).1
      seen_le := fun src => (hseen src).2.1
      count_le := fun src => (hseen src).2.2 }

/-- New records are saved together with everything read so far. -/
theorem FeedInv.append (h : FeedInv w g s records places seen saved)
    (hcov : CoversFriend env w g s.state name) {items : List SharedItem}
    (hitems : items = (freshOf w name seen).map fun x => x.2.toItem name) :
    FeedInv w (g.pollFriend w name) ((readUpTo w s name seen).append items) (records ++ items)
      (places ++ (freshOf w name seen).map Prod.fst) (seenAfter w name seen)
      (seenAfter w name seen) := by
  obtain ⟨hrecords, hmissing⟩ := h.pollFriend hcov
  have hseen := fun src => h.seen_le_seenAfter name src
  have happend : appendRecords items ((readUpTo w s name seen).dir.feedFile.getD [])
      ((readUpTo w s name seen).dir.feedIndex.getD []) =
        (concat SharedItem.bytes (records ++ items), recordOffsets (records ++ items)) := by
    rw [show (readUpTo w s name seen).dir = s.dir from rfl, h.file, h.index]
    exact appendRecords_concat items records
  have hsize : ((readUpTo w s name seen).append items).state.feedSizeRecords =
      (records ++ items).length := by
    rw [List.length_append, ← h.size]
    rfl
  refine
    { file := ?_
      index := ?_
      size := hsize
      savedSize := hsize
      none_twice := h.nodup_fresh
      recordOf := hitems ▸ hrecords
      none_missing := hmissing
      seen_offset := h.offset_setProcessed
      saved_offset := h.offset_setProcessed
      saved_le := fun _ => le_rfl
      seen_le := fun src => (hseen src).2.1
      count_le := fun src => (hseen src).2.2
      places_lt := fun t ht => ?_ }
  · simp only [SocialFeed.append, happend, Option.getD_some]
  · simp only [SocialFeed.append, happend, Option.getD_some]
  · rcases List.mem_append.1 ht with ht | ht
    · exact lt_of_lt_of_le (h.lt_count ht).1 (hseen t.1).1
    · obtain ⟨x, hx, rfl⟩ := List.mem_map.1 ht
      obtain ⟨hfresh, hname, -, hgroup⟩ := mem_freshOf.1 hx
      obtain ⟨-, -, c, hc, -⟩ := mem_fresh.1 hfresh
      rw [seenAfter, if_pos ⟨hname, hgroup⟩]
      exact (List.getElem?_eq_some_iff.1 hc).1

theorem FeedInv.updateFriend_run (h : FeedInv w g s records places seen saved)
    (henv : Serves env w) (hf : f ∈ w.friends) : Peergos.updateFriend env f s = addToFeed env
      ((freshOf w f.ownerName seen).map fun x => x.2.toItem f.ownerName)
      (readUpTo w s f.ownerName seen) := by
  rw [Peergos.updateFriend]
  simp only [Exec.bind_run, Exec.query_run, h.readFriend henv hf, Exec.update_run]
  rfl

/-- An update goes through a friend as the reader does. -/
theorem FeedInv.updateFriend (h : FeedInv w g s records places seen saved) (henv : Serves env w)
    (hf : f ∈ w.friends) (hcov : CoversFriend env w g s.state f.ownerName) :
    ∃ s' records' places' saved', updateFriend env f s = (.ok (), s') ∧
      FeedInv w (g.pollFriend w f.ownerName) s' records' places'
        (seenAfter w f.ownerName seen) saved' ∧
      ∀ src, src.friend ≠ f.ownerName → s'.state.offset src = s.state.offset src := by
  have hother : ∀ src : Source, src.friend ≠ f.ownerName →
      (readUpTo w s f.ownerName seen).state.offset src = s.state.offset src := by
    intro src hne
    rw [readUpTo, h.offset_setProcessed, seenAfter,
      if_neg fun hr : ReadsTo _ _ _ _ => hne hr.1, h.seen_offset]
  rw [h.updateFriend_run henv hf, addToFeed]
  by_cases hnil : freshOf w f.ownerName seen = []
  · rw [if_pos (List.map_eq_nil_iff.2 hnil)]
    exact ⟨_, records, places, saved, rfl, h.nothingNew hcov hnil, hother⟩
  · rw [if_neg fun hmap => hnil (List.map_eq_nil_iff.1 hmap)]
    refine ⟨_, _, _, _, ?_, h.append hcov rfl, hother⟩
    simp only [Exec.bind_run, Exec.lift_run, h.mergeInComments hcov, Exec.update_run]

end Friend

/-! ## Whole updates and whole histories -/

section History

variable {env : FeedEnv} {w : Shares} {g g' : Reader} {s : SocialFeed} {st st' : FeedState}
  {records : List SharedItem} {places : List (Source × ℕ)} {seen saved : Source → ℕ}
  {name : String}

/-- The condition on a friend is about that friend's sources only. -/
theorem CoversFriend.congr (h : CoversFriend env w g st name)
    (hoff : ∀ src, src.friend = name → st'.offset src = st.offset src)
    (hgroups : g'.groups name = g.groups name) : CoversFriend env w g' st' name where
  groups uid huid file hlt := by
    rw [Reader.known, hgroups] at huid
    rw [hoff _ rfl] at hlt
    obtain ⟨file', c, hc, hpath⟩ := h.groups uid huid file hlt
    exact ⟨file', c, by rw [hoff _ rfl]; exact hc, hpath⟩
  comments src hsrc c hc := by
    rw [hoff src hsrc] at hc
    exact h.comments src hsrc c hc

/-- The loop over the friends. -/
theorem FeedInv.updateFriends {fs : List EntryPoint} (henv : Serves env w)
    (hfs : ∀ f ∈ fs, f ∈ w.friends) (hnodup : (fs.map EntryPoint.ownerName).Nodup)
    (h : FeedInv w g s records places seen saved)
    (hcov : ∀ f ∈ fs, CoversFriend env w g s.state f.ownerName) :
    ∃ s' records' places' seen' saved', Exec.forEach fs (Peergos.updateFriend env) s = (.ok (), s') ∧
      FeedInv w ((fs.map EntryPoint.ownerName).foldl (Reader.pollFriend w) g) s' records' places'
        seen' saved' := by
  induction fs generalizing g s records places seen saved with
  | nil => exact ⟨s, records, places, seen, saved, rfl, h⟩
  | cons f fs ih =>
      rw [List.map_cons, List.nodup_cons] at hnodup
      obtain ⟨s₁, records₁, places₁, saved₁, hrun, h₁, hother⟩ :=
        h.updateFriend henv (hfs f List.mem_cons_self) (hcov f List.mem_cons_self)
      have hcov₁ : ∀ f' ∈ fs, CoversFriend env w (g.pollFriend w f.ownerName) s₁.state
          f'.ownerName := by
        intro f' hf'
        have hne : f'.ownerName ≠ f.ownerName :=
          fun heq => hnodup.1 (List.mem_map.2 ⟨f', hf', heq⟩)
        refine (hcov f' (List.mem_cons_of_mem _ hf')).congr (fun src hsrc => ?_) ?_
        · exact hother src (hsrc ▸ hne)
        · exact Function.update_of_ne hne _ _
      obtain ⟨s', records', places', seen', saved', hrest, h'⟩ :=
        ih (fun f' hf' => hfs f' (List.mem_cons_of_mem _ hf')) hnodup.2 h₁ hcov₁
      refine ⟨s', records', places', seen', saved', ?_, h'⟩
      rw [Exec.forEach_cons_of_ok hrun]
      exact hrest

/-- `SocialFeed::update` does what the reader does. -/
theorem FeedInv.updateFeed (h : FeedInv w g s records places seen saved) (henv : Serves env w)
    (hcov : Covers env w g s.state) :
    ∃ s' records' places' seen' saved', updateFeed env s = (.ok (), s') ∧
      FeedInv w (g.poll w) s' records' places' seen' saved' := by
  obtain ⟨s', records', places', seen', saved', hrun, h'⟩ :=
    h.updateFriends henv (fun f hf => hf) w.nodup_names
      fun f hf => hcov _ (List.mem_map_of_mem hf)
  refine ⟨s', records', places', seen', saved', ?_, h'⟩
  obtain ⟨username, hu⟩ := Option.ne_none_iff_exists'.1 henv.signedIn
  rw [Peergos.updateFeed, hu, henv.friends]
  exact hrun

/-- The invariant holds all along. -/
theorem FeedRun.inv (h : FeedRun Covers w s g) :
    ∃ records places seen saved, FeedInv w g s records places seen saved := by
  induction h with
  | start w => exact ⟨_, _, _, _, FeedInv.start w⟩
  | shared _ hgrows ih =>
      obtain ⟨records, places, seen, saved, hinv⟩ := ih
      exact ⟨records, places, seen, saved, hinv.grows hgrows⟩
  | updated _ env henv hcond ih =>
      obtain ⟨records, places, seen, saved, hinv⟩ := ih
      obtain ⟨s', records', places', seen', saved', hrun, hinv'⟩ := hinv.updateFeed henv hcond
      rw [hrun]
      exact ⟨records', places', seen', saved', hinv'⟩
  | created _ env henv hcond ih =>
      obtain ⟨records, places, seen, saved, hinv⟩ := ih
      rw [← state_load] at hcond
      obtain ⟨s', records', places', seen', saved', hrun, hinv'⟩ :=
        hinv.load.updateFeed henv hcond
      rw [createFeed, hrun]
      exact ⟨records', places', seen', saved', hinv'⟩

end History

/-! ## A group that is shared into again -/

section Sample

theorem bobHash_valid : multihashRefusal .id [1] = none := by decide

/-- The key of a friend. -/
def bobKey : PublicKeyHash := ⟨⟨.v1, .dagCbor, ⟨.id, [1], bobHash_valid⟩⟩, .inr rfl⟩

theorem bobKey_encodable : bobKey.Encodable := by decide

/-- Capabilities of the friend, told apart by a byte. -/
def bobCap (b : UInt8) : SharedCap :=
  ⟨⟨bobKey, bobKey, List.replicate 32 b, none, ⟨List.replicate 32 b, false⟩, none, by simp⟩,
    ⟨bobKey_encodable, bobKey_encodable, by simp, by simp⟩⟩

/-- The friend's folder for us is capability 0, the folder of a group is 1, a picture is 2. -/
def bobPath (c : AbsoluteCapability) : String :=
  if c = (bobCap 1).1 then "/bob/shared/.g" else "/bob/pic"

/-- The friend has let us into a group, and has shared some capabilities with it. -/
def bobShares (group : List SharedCap) : Shares where
  friends := [⟨(bobCap 0).1, "bob"⟩]
  entries src :=
    if src = ⟨"bob", none, .read⟩ then [bobCap 1]
    else if src = ⟨"bob", some ".g", .read⟩ then group else []
  resolve c := some (bobPath c)
  nodup_names := List.nodup_singleton _

/-- Where the friend's files are found. -/
def bobFeedEnv (group : List SharedCap) : FeedEnv where
  username := some "alice"
  friends := .ok [⟨(bobCap 0).1, "bob"⟩]
  sharingFile cap file := .ok (
    if file = "sharing.r" then
      if cap = (bobCap 0).1 then some (concat SharedCap.bytes [bobCap 1])
      else some (concat SharedCap.bytes group)
    else none)
  resolveCapabilityPath c := .ok (bobPath c)
  parentPost _ := none
  addCommentsToParent _ _ := .ok ()

theorem bobPath_eq_group {c : AbsoluteCapability} {uid : String}
    (h : groupUidFromPath (bobPath c) = some uid) : c = (bobCap 1).1 ∧ uid = ".g" := by
  by_cases hc : c = (bobCap 1).1
  · rw [bobPath, if_pos hc] at h
    exact ⟨hc, Option.some.inj (h.symm.trans (by decide))⟩
  · rw [bobPath, if_neg hc, show groupUidFromPath "/bob/pic" = none by decide] at h
    cases h

theorem bobFeedEnv_serves {group : List SharedCap}
    (hlen : (concat SharedCap.bytes group).length < 2 ^ 63) :
    Serves (bobFeedEnv group) (bobShares group) where
  signedIn := nofun
  friends := rfl
  resolve _ := rfl
  direct f hf file := by
    obtain rfl := List.mem_singleton.1 hf
    have hfolder : (concat SharedCap.bytes [bobCap 1]).length < 2 ^ 63 := by decide +kernel
    cases file with
    | read =>
        refine ⟨⟨some (concat SharedCap.bytes [bobCap 1]), ?_, by simp [bobShares]⟩, ?_⟩
        · simp [bobFeedEnv, SharingFile.filename]
        · simpa [bobShares] using hfolder
    | write => exact ⟨⟨none, rfl, by simp [bobShares]⟩, by simp [bobShares]⟩
  group f hf file c hc path uid hpath huid file' := by
    obtain rfl := List.mem_singleton.1 hf
    obtain rfl : bobPath c.1 = path := Option.some.inj hpath
    obtain ⟨hc1, rfl⟩ := bobPath_eq_group huid
    have hne : (bobCap 1).1 ≠ (bobCap 0).1 := by decide
    rw [hc1]
    cases file' with
    | read =>
        refine ⟨⟨some (concat SharedCap.bytes group), ?_, by simp [bobShares]⟩, by
          simpa [bobShares] using hlen⟩
        simp [bobFeedEnv, SharingFile.filename, hne]
    | write => exact ⟨⟨none, rfl, by simp [bobShares]⟩, by simp [bobShares]⟩

/-- Opening the feed for the first time reads the group along with its folder. -/
theorem bobFeedEnv_covers (group : List SharedCap) :
    Covers (bobFeedEnv group) (bobShares group) Reader.empty default := by
  intro name _
  refine ⟨fun uid huid file _ => ?_, fun src _ c _ username _ parent hparent => ?_⟩
  · obtain ⟨file', c, hc, path, hres, hgroup⟩ := huid.resolve_left (Set.notMem_empty uid)
    refine ⟨file', c, ?_, path, hres, hgroup⟩
    have hzero : (default : FeedState).offset ⟨name, none, file'⟩ = 0 := by cases file' <;> rfl
    rw [hzero, Shares.unread, recordsAfter_zero]
    exact hc
  · cases hparent

/-- Once the group's folder has been read, or while the group is empty, the friend has nothing new
for an update. -/
theorem bob_nothingNew {group : List SharedCap} {seen : Source → ℕ}
    (h : group = [] ∨ seen ⟨"bob", none, .read⟩ = 1) :
    freshOf (bobShares group) "bob" seen = [] := by
  refine List.eq_nil_iff_forall_not_mem.2 fun x hx => ?_
  obtain ⟨hfresh, -, hnone, hgroup⟩ := mem_freshOf.1 hx
  obtain ⟨-, -, c, hc, -, hres⟩ := mem_fresh.1 hfresh
  by_cases hdirect : x.1.1 = ⟨"bob", none, .read⟩
  · rw [hdirect] at hc hnone
    have hc1 : c = bobCap 1 := List.mem_singleton.1 (List.mem_of_getElem? hc)
    have hpath : x.2.path = "/bob/shared/.g" := by
      rw [← Option.some.inj hres, hc1]
      exact if_pos rfl
    have huid := hnone rfl
    rw [hpath] at huid
    exact absurd huid (by decide)
  · by_cases hsrc : x.1.1 = ⟨"bob", some ".g", .read⟩
    · rw [hsrc] at hc hgroup
      rcases h with rfl | hseen
      · cases (show ([] : List SharedCap)[x.1.2]? = some c from hc)
      · obtain ⟨d, hd, -⟩ := List.mem_map.1 (hgroup ".g" rfl)
        obtain ⟨cp, hcp, -⟩ := (groupDirs_spec _).2.1 d hd
        obtain ⟨y, hy, -⟩ := List.mem_map.1 hcp
        obtain ⟨file, hy⟩ := mem_freshFolder.1 hy
        obtain ⟨-, hle, c', hc', -⟩ := mem_fresh.1 hy
        cases file with
        | read =>
            rw [hseen] at hle
            have hlt : y.1.2 < [bobCap 1].length := (List.getElem?_eq_some_iff.1 hc').1
            exact absurd hle (Nat.not_le_of_lt hlt)
        | write => cases (show ([] : List SharedCap)[y.1.2]? = some c' from hc')
    · have hnil : (bobShares group).entries x.1.1 = [] := by
        simp only [bobShares, if_neg hdirect, if_neg hsrc]
      rw [hnil] at hc
      cases hc

/-- An update that finds nothing new. -/
theorem bob_update {group : List SharedCap} {g : Reader} {s : SocialFeed}
    {records : List SharedItem} {places : List (Source × ℕ)} {seen saved : Source → ℕ}
    (hlen : (concat SharedCap.bytes group).length < 2 ^ 63)
    (h : FeedInv (bobShares group) g s records places seen saved)
    (hnil : freshOf (bobShares group) "bob" seen = []) :
    (updateFeed (bobFeedEnv group) s).2 = readUpTo (bobShares group) s "bob" seen := by
  have hfriend : (⟨(bobCap 0).1, "bob"⟩ : EntryPoint) ∈ (bobShares group).friends :=
    List.mem_singleton_self _
  have hrun := h.updateFriend_run (bobFeedEnv_serves hlen) hfriend
  rw [hnil, List.map_nil, addToFeed, if_pos rfl] at hrun
  have hloop : updateFeed (bobFeedEnv group) s =
      Exec.forEach (bobShares group).friends (updateFriend (bobFeedEnv group)) s := rfl
  rw [hloop]
  exact congrArg Prod.snd (Exec.forEach_cons_of_ok hrun)

end Sample

end Peergos
