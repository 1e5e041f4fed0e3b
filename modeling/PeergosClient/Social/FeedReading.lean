import PeergosClient.Social.FeedHistory

/-!
# What an update reads

The loops over a sharing file, over the folders of a friend's groups and over a friend's files, in
terms of the capabilities the files hold: from the place the feed has come to, those that resolve,
each with its place.
-/

namespace Peergos

open RecordStream

/-! ## The new capabilities of a source -/

section Fresh

variable (w : Shares) (src : Source)

/-- The capabilities of a list that resolve, each with its place. -/
def freshFrom : ℕ → List SharedCap → List ((Source × ℕ) × CapabilityWithPath)
  | _, [] => []
  | i, c :: caps =>
      match w.resolve c.1 with
      | some path => ((src, i), ⟨path, c.1⟩) :: freshFrom (i + 1) caps
      | none => freshFrom (i + 1) caps

/-- The capabilities of a source from some place on that resolve. -/
def fresh (n : ℕ) : List ((Source × ℕ) × CapabilityWithPath) :=
  freshFrom w src n ((w.entries src).drop n)

variable {w src} {n : ℕ}

theorem mem_freshFrom {caps : List SharedCap} {x : (Source × ℕ) × CapabilityWithPath}
    (h : x ∈ freshFrom w src n caps) : x.1.1 = src ∧ n ≤ x.1.2 ∧
      ∃ c, caps[x.1.2 - n]? = some c ∧ x.2.cap = c.1 ∧ w.resolve c.1 = some x.2.path := by
  induction caps generalizing n with
  | nil => cases h
  | cons c caps ih =>
      have htail : x ∈ freshFrom w src (n + 1) caps → x.1.1 = src ∧ n ≤ x.1.2 ∧
          ∃ d, (c :: caps)[x.1.2 - n]? = some d ∧ x.2.cap = d.1 ∧
            w.resolve d.1 = some x.2.path := by
        intro h
        obtain ⟨hsrc, hle, d, hd, hcap⟩ := ih h
        have hsub : x.1.2 - n = (x.1.2 - (n + 1)) + 1 := by omega
        refine ⟨hsrc, by omega, d, ?_, hcap⟩
        rw [hsub, List.getElem?_cons_succ]
        exact hd
      rw [freshFrom] at h
      cases hres : w.resolve c.1 with
      | none =>
          rw [hres] at h
          exact htail h
      | some path =>
          rw [hres] at h
          rcases List.mem_cons.1 h with rfl | h
          · exact ⟨rfl, le_rfl, c, by simp, rfl, hres⟩
          · exact htail h

theorem freshFrom_of_resolve {caps : List SharedCap} {i : ℕ} {c : SharedCap} {path : String}
    (hc : caps[i]? = some c) (hres : w.resolve c.1 = some path) :
    ((src, n + i), ⟨path, c.1⟩) ∈ freshFrom w src n caps := by
  induction caps generalizing n i with
  | nil => cases hc
  | cons d caps ih =>
      cases i with
      | zero =>
          obtain rfl : d = c := by simpa using hc
          simp [freshFrom, hres]
      | succ i =>
          have hmem := ih (n := n + 1) (by simpa using hc)
          rw [show n + 1 + i = n + (i + 1) by omega] at hmem
          rw [freshFrom]
          cases w.resolve d.1 with
          | none => exact hmem
          | some _ => exact List.mem_cons_of_mem _ hmem

/-- The capabilities of a source that resolve, from some place on. -/
theorem mem_fresh {x : (Source × ℕ) × CapabilityWithPath} : x ∈ fresh w src n ↔
    x.1.1 = src ∧ n ≤ x.1.2 ∧ ∃ c, (w.entries src)[x.1.2]? = some c ∧ x.2.cap = c.1 ∧
      w.resolve c.1 = some x.2.path := by
  constructor
  · intro h
    obtain ⟨hsrc, hle, c, hc, hcap⟩ := mem_freshFrom h
    rw [List.getElem?_drop, Nat.add_sub_cancel' hle] at hc
    exact ⟨hsrc, hle, c, hc, hcap⟩
  · rintro ⟨hsrc, hle, c, hc, hcap, hres⟩
    obtain ⟨⟨src', i⟩, path, cap⟩ := x
    obtain ⟨k, rfl⟩ := Nat.exists_eq_add_of_le hle
    obtain rfl : src' = src := hsrc
    obtain rfl : cap = c.1 := hcap
    exact freshFrom_of_resolve (by rw [List.getElem?_drop]; exact hc) hres

theorem nodup_freshFrom (caps : List SharedCap) :
    ((freshFrom w src n caps).map Prod.fst).Nodup := by
  induction caps generalizing n with
  | nil => exact List.nodup_nil
  | cons c caps ih =>
      rw [freshFrom]
      cases w.resolve c.1 with
      | none => exact ih
      | some path =>
          rw [List.map_cons, List.nodup_cons]
          refine ⟨fun hmem => ?_, ih⟩
          obtain ⟨x, hx, heq⟩ := List.mem_map.1 hmem
          have hle := (mem_freshFrom hx).2.1
          rw [heq] at hle
          exact absurd hle (Nat.not_succ_le_self n)

theorem nodup_fresh : ((fresh w src n).map Prod.fst).Nodup := nodup_freshFrom _

end Fresh

/-! ## Reading the files -/

section Reading

variable {env : FeedEnv} {w : Shares}

theorem SharedCap.bytes_ne_nil (c : SharedCap) : SharedCap.bytes c ≠ [] := by
  intro h
  have hpos := CborObject.length_toBytes_pos c.1.toCbor
  rw [show c.1.toCbor.toBytes = [] from h] at hpos
  exact lt_irrefl 0 hpos

/-- The loop over a sharing file gives the capabilities that resolve. -/
theorem readSharedCaps_concat (henv : Serves env w) (src : Source) (n : ℕ) {caps : List SharedCap}
    {fuel : ℕ} (hfuel : (concat SharedCap.bytes caps).length ≤ fuel)
    (hlen : (concat SharedCap.bytes caps).length < 2 ^ 63) :
    readSharedCaps env fuel (concat SharedCap.bytes caps) =
      .ok ((freshFrom w src n caps).map Prod.snd) := by
  induction caps generalizing fuel n with
  | nil => cases fuel <;> rfl
  | cons c caps ih =>
      have hpos := List.length_pos_iff.2 (SharedCap.bytes_ne_nil c)
      rw [concat_cons, List.length_append] at hfuel hlen
      obtain ⟨b, buf, hb⟩ : ∃ b buf, concat SharedCap.bytes (c :: caps) = b :: buf := by
        cases h : concat SharedCap.bytes (c :: caps) with
        | nil =>
            rw [concat_cons] at h
            exact absurd (List.append_eq_nil_iff.1 h).1 (SharedCap.bytes_ne_nil c)
        | cons b buf => exact ⟨b, buf, rfl⟩
      cases fuel with
      | zero => omega
      | succ fuel =>
          have hread : CborObject.fromBytesConsumed (concat SharedCap.bytes (c :: caps)) =
              .ok (c.1.toCbor, (SharedCap.bytes c).length) := by
            rw [concat_cons]
            refine CborObject.fromBytesConsumed_encoded c.1.ordered_toCbor ?_
            rw [List.length_append]
            exact lt_trans hlen (by norm_num)
          have hrest : readSharedCaps env fuel (concat SharedCap.bytes caps) = _ :=
            ih (n + 1) (by omega) (by omega)
          have hdrop : (concat SharedCap.bytes (c :: caps)).drop (SharedCap.bytes c).length =
              concat SharedCap.bytes caps := by rw [concat_cons, List.drop_left]
          have hres := henv.resolve c.1
          rw [hb, readSharedCaps, ← hb, hread]
          simp only [liftCbor, ok_bind, if_neg hpos.ne', AbsoluteCapability.fromCbor_toCbor c.2,
            freshFrom, hdrop, hrest]
          cases hpath : env.resolveCapabilityPath c.1 with
          | ok path =>
              rw [hpath] at hres
              rw [← hres]
              rfl
          | error e =>
              rw [hpath] at hres
              rw [← hres]
              rfl

/-- What a sharing file gives from the place a reader has come to. -/
theorem readSharingFile_offset (henv : Serves env w) {folder : AbsoluteCapability} (src : Source)
    (h : StoresCaps env folder src.file (w.entries src)) (n : ℕ) :
    readSharingFile env folder src.file.filename (offset SharedCap.bytes (w.entries src) n) =
      .ok (w.fileLength src, (fresh w src n).map Prod.snd) := by
  obtain ⟨⟨bytes, hfile, hbytes⟩, hlen⟩ := h
  rw [readSharingFile, hfile, ok_bind]
  cases bytes with
  | none =>
      have hnil : w.entries src = [] := by
        cases hcaps : w.entries src with
        | nil => rfl
        | cons c caps =>
            rw [hcaps, concat_cons] at hbytes
            exact absurd (List.append_eq_nil_iff.1 hbytes.symm).1 (SharedCap.bytes_ne_nil c)
      simp [Shares.fileLength, fresh, hnil, freshFrom]
  | some bytes =>
      obtain rfl : bytes = concat SharedCap.bytes (w.entries src) := hbytes
      have hoff : offset SharedCap.bytes (w.entries src) n ≤
          (concat SharedCap.bytes (w.entries src)).length := offset_le
      have hle : (concat SharedCap.bytes ((w.entries src).drop n)).length ≤
          (concat SharedCap.bytes (w.entries src)).length := by
        rw [← drop_offset, List.length_drop]
        exact Nat.sub_le _ _
      simp only [min_eq_left hoff, drop_offset]
      rw [readSharedCaps_concat henv src n hle (lt_of_le_of_lt hle hlen), ok_bind]
      rfl

/-- The offsets of a folder's files at given places. -/
def offsetsAt (w : Shares) (name : String) (group : Option String) (pos : Source → ℕ) :
    CapOffsets :=
  ⟨offset SharedCap.bytes (w.entries ⟨name, group, .read⟩) (pos ⟨name, group, .read⟩),
    offset SharedCap.bytes (w.entries ⟨name, group, .write⟩) (pos ⟨name, group, .write⟩)⟩

/-- The offsets at the ends of a folder's files. -/
def offsetsEnd (w : Shares) (name : String) (group : Option String) : CapOffsets :=
  ⟨w.fileLength ⟨name, group, .read⟩, w.fileLength ⟨name, group, .write⟩⟩

/-- The new capabilities of a folder. -/
def freshFolder (w : Shares) (name : String) (group : Option String) (pos : Source → ℕ) :
    List ((Source × ℕ) × CapabilityWithPath) :=
  fresh w ⟨name, group, .read⟩ (pos ⟨name, group, .read⟩) ++
    fresh w ⟨name, group, .write⟩ (pos ⟨name, group, .write⟩)

variable {name : String} {group : Option String} {pos : Source → ℕ}

theorem mem_freshFolder {x : (Source × ℕ) × CapabilityWithPath} :
    x ∈ freshFolder w name group pos ↔ ∃ file, x ∈ fresh w ⟨name, group, file⟩
      (pos ⟨name, group, file⟩) := by
  rw [freshFolder, List.mem_append]
  constructor
  · rintro (h | h)
    · exact ⟨_, h⟩
    · exact ⟨_, h⟩
  · rintro ⟨_ | _, h⟩
    · exact .inl h
    · exact .inr h

theorem nodup_freshFolder : ((freshFolder w name group pos).map Prod.fst).Nodup := by
  rw [freshFolder, List.map_append]
  refine List.Nodup.append nodup_fresh nodup_fresh fun t hr hw => ?_
  obtain ⟨x, hx, rfl⟩ := List.mem_map.1 hr
  obtain ⟨y, hy, hxy⟩ := List.mem_map.1 hw
  have hsrc := (mem_fresh.1 hy).1
  rw [hxy, (mem_fresh.1 hx).1] at hsrc
  cases hsrc

/-- `load_new` on a folder whose files have been read up to some places. -/
theorem loadNew_offsetsAt (henv : Serves env w) {dir : AbsoluteCapability}
    (h : ∀ file, StoresCaps env dir file (w.entries ⟨name, group, file⟩)) :
    loadNew env dir (offsetsAt w name group pos) =
      .ok (offsetsEnd w name group, (freshFolder w name group pos).map Prod.snd) := by
  have hr := readSharingFile_offset henv ⟨name, group, .read⟩ (h .read)
    (pos ⟨name, group, .read⟩)
  have hw := readSharingFile_offset henv ⟨name, group, .write⟩ (h .write)
    (pos ⟨name, group, .write⟩)
  simp only [SharingFile.filename] at hr hw
  simp only [loadNew, offsetsAt, hr, hw, ok_bind, freshFolder, List.map_append]
  rfl

/-- The loop over the group folders. -/
theorem readGroups_offsetsAt (henv : Serves env w) {dirs : List (String × AbsoluteCapability)}
    {groups : String → CapOffsets} (hnodup : (dirs.map Prod.fst).Nodup)
    (hdirs : ∀ d ∈ dirs, ∀ file, StoresCaps env d.2 file (w.entries ⟨name, some d.1, file⟩))
    (hgroups : ∀ d ∈ dirs, groups d.1 = offsetsAt w name (some d.1) pos) :
    readGroups env name dirs groups =
      .ok (fun uid => if uid ∈ dirs.map Prod.fst then offsetsEnd w name (some uid) else groups uid,
        (dirs.flatMap fun d => freshFolder w name (some d.1) pos).map
          fun x => x.2.toItem name) := by
  induction dirs generalizing groups with
  | nil => simp [readGroups]
  | cons d dirs ih =>
      obtain ⟨uid, dir⟩ := d
      rw [List.map_cons, List.nodup_cons] at hnodup
      have hload : loadNew env dir (groups uid) = .ok (offsetsEnd w name (some uid),
          (freshFolder w name (some uid) pos).map Prod.snd) := by
        rw [hgroups _ List.mem_cons_self]
        exact loadNew_offsetsAt henv (hdirs _ List.mem_cons_self)
      have hkeep : ∀ d ∈ dirs, Function.update groups uid (offsetsEnd w name (some uid)) d.1 =
          offsetsAt w name (some d.1) pos := by
        intro d hd
        have hne : d.1 ≠ uid := fun heq => hnodup.1 (List.mem_map.2 ⟨d, hd, heq⟩)
        rw [Function.update_of_ne hne]
        exact hgroups d (List.mem_cons_of_mem _ hd)
      have hrest := ih hnodup.2 (fun d hd => hdirs d (List.mem_cons_of_mem _ hd)) hkeep
      rw [readGroups, hload]
      simp only [ok_bind, hrest]
      congr 2
      · funext uid'
        by_cases heq : uid' = uid
        · subst heq
          simp [hnodup.1]
        · simp only [Function.update_of_ne heq, List.map_cons, List.mem_cons, heq, false_or]
      · simp

end Reading

/-! ## What an update reads for one friend -/

section Friend

/-- The folders found are those of the groups named among the capabilities, each once. -/
theorem groupDirs_spec (direct : List CapabilityWithPath) :
    Keyed.Sorted compare Prod.fst (groupDirs direct) ∧
    (∀ d ∈ groupDirs direct, ∃ c ∈ direct, groupUidFromPath c.path = some d.1 ∧ c.cap = d.2) ∧
    ∀ c ∈ direct, ∀ uid, groupUidFromPath c.path = some uid →
      uid ∈ (groupDirs direct).map Prod.fst := by
  induction direct using List.reverseRecOn with
  | nil => exact ⟨List.Pairwise.nil, by simp [groupDirs], by simp⟩
  | append_singleton direct c ih =>
      obtain ⟨hsorted, hfrom, hall⟩ := ih
      have hstep : groupDirs (direct ++ [c]) =
          match groupUidFromPath c.path with
          | some uid => Keyed.upsert compare Prod.fst (uid, c.cap) (groupDirs direct)
          | none => groupDirs direct := by
        rw [groupDirs, List.foldl_append]
        rfl
      rw [hstep]
      cases huid : groupUidFromPath c.path with
      | none =>
          refine ⟨hsorted, fun d hd => ?_, fun c' hc' uid huid' => ?_⟩
          · obtain ⟨c', hc', h⟩ := hfrom d hd
            exact ⟨c', List.mem_append_left _ hc', h⟩
          · rcases List.mem_append.1 hc' with hc' | hc'
            · exact hall c' hc' uid huid'
            · rw [List.mem_singleton.1 hc', huid] at huid'
              cases huid'
      | some uid =>
          refine ⟨Keyed.sorted_upsert hsorted _, fun d hd => ?_, fun c' hc' uid' huid' => ?_⟩
          · rcases Keyed.mem_upsert.1 hd with rfl | ⟨hd, -⟩
            · exact ⟨c, by simp, huid, rfl⟩
            · obtain ⟨c', hc', h⟩ := hfrom d hd
              exact ⟨c', List.mem_append_left _ hc', h⟩
          · by_cases heq : uid' = uid
            · exact List.mem_map.2 ⟨(uid, c.cap), Keyed.mem_upsert.2 (.inl rfl), heq.symm⟩
            · rcases List.mem_append.1 hc' with hc' | hc'
              · obtain ⟨d, hd, hkey⟩ := List.mem_map.1 (hall c' hc' uid' huid')
                refine List.mem_map.2 ⟨d, Keyed.mem_upsert.2 (.inr ⟨hd, ?_⟩), hkey⟩
                rw [hkey]
                exact heq
              · rw [List.mem_singleton.1 hc', huid] at huid'
                exact absurd (Option.some.inj huid').symm heq

variable (w : Shares) (name : String) (pos : Source → ℕ)

/-- The groups of a friend whose folder is among the new capabilities. -/
def newDirs : List (String × AbsoluteCapability) :=
  groupDirs ((freshFolder w name none pos).map Prod.snd)

/-- The new capabilities of a friend that become records: those in the friend's own files but for
the folders of groups, and those in the files of the groups found there. -/
def freshOf : List ((Source × ℕ) × CapabilityWithPath) :=
  (freshFolder w name none pos).filter (fun x => groupUidFromPath x.2.path = none) ++
    (newDirs w name pos).flatMap fun d => freshFolder w name (some d.1) pos

/-- The offsets for a friend after an update. -/
def processedAfter (current : ProcessedCaps) : ProcessedCaps :=
  ⟨offsetsEnd w name none, fun uid =>
    if uid ∈ (newDirs w name pos).map Prod.fst then offsetsEnd w name (some uid)
    else current.groups uid⟩

variable {w name pos} {env : FeedEnv} {f : EntryPoint} {current : ProcessedCaps}

theorem mem_newDirs {d : String × AbsoluteCapability} (h : d ∈ newDirs w name pos) :
    ∃ file, ∃ c ∈ w.entries ⟨name, none, file⟩, ∃ path, w.resolve c.1 = some path ∧
      groupUidFromPath path = some d.1 ∧ c.1 = d.2 := by
  obtain ⟨cp, hcp, huid, hcap⟩ := (groupDirs_spec _).2.1 d h
  obtain ⟨x, hx, rfl⟩ := List.mem_map.1 hcp
  obtain ⟨file, hx⟩ := mem_freshFolder.1 hx
  obtain ⟨-, -, c, hc, hxc, hres⟩ := mem_fresh.1 hx
  exact ⟨file, c, List.mem_of_getElem? hc, x.2.path, hres, huid, hxc.symm.trans hcap⟩

theorem nodup_newDirs : ((newDirs w name pos).map Prod.fst).Nodup := (groupDirs_spec _).1.nodup_keys

/-- `update` reads for a friend exactly these capabilities. -/
theorem readFriend_offsetsAt (henv : Serves env w) (hf : f ∈ w.friends)
    (hdirect : current.toCapOffsets = offsetsAt w f.ownerName none pos)
    (hgroups : ∀ uid, current.groups uid = offsetsAt w f.ownerName (some uid) pos) :
    readFriend env f current = .ok (processedAfter w f.ownerName pos current,
      (freshOf w f.ownerName pos).map fun x => x.2.toItem f.ownerName) := by
  have hload : loadNew env f.pointer current.toCapOffsets = .ok (offsetsEnd w f.ownerName none,
      (freshFolder w f.ownerName none pos).map Prod.snd) := by
    rw [hdirect]
    exact loadNew_offsetsAt henv (henv.direct f hf)
  have hread : readGroups env f.ownerName (newDirs w f.ownerName pos) current.groups = _ :=
    readGroups_offsetsAt henv nodup_newDirs (fun d hd file' => by
      obtain ⟨file, c, hc, path, hres, huid, hcap⟩ := mem_newDirs hd
      rw [← hcap]
      exact henv.group f hf file c hc path d.1 hres huid file') fun d _ => hgroups d.1
  simp only [readFriend, hload, ok_bind]
  rw [show groupDirs ((freshFolder w f.ownerName none pos).map Prod.snd) =
    newDirs w f.ownerName pos from rfl, hread]
  simp only [ok_bind, processedAfter, freshOf, List.map_append, List.filter_map, List.map_map]
  rfl

theorem mem_freshOf {x : (Source × ℕ) × CapabilityWithPath} : x ∈ freshOf w name pos ↔
    x ∈ fresh w x.1.1 (pos x.1.1) ∧ x.1.1.friend = name ∧
      (x.1.1.group = none → groupUidFromPath x.2.path = none) ∧
      ∀ uid ∈ x.1.1.group, uid ∈ (newDirs w name pos).map Prod.fst := by
  rw [freshOf, List.mem_append, List.mem_filter, List.mem_flatMap]
  constructor
  · rintro (⟨hx, huid⟩ | ⟨d, hd, hx⟩)
    · obtain ⟨file, hx⟩ := mem_freshFolder.1 hx
      have hsrc := (mem_fresh.1 hx).1
      rw [hsrc]
      exact ⟨hx, rfl, fun _ => of_decide_eq_true huid, by simp⟩
    · obtain ⟨file, hx⟩ := mem_freshFolder.1 hx
      have hsrc := (mem_fresh.1 hx).1
      rw [hsrc]
      refine ⟨hx, rfl, nofun, fun uid huid => ?_⟩
      obtain rfl : d.1 = uid := Option.some.inj huid
      exact List.mem_map_of_mem hd
  · obtain ⟨⟨⟨friend, group, file⟩, i⟩, cp⟩ := x
    rintro ⟨hx, rfl, hnone, hgroup⟩
    cases group with
    | none => exact .inl ⟨mem_freshFolder.2 ⟨file, hx⟩, decide_eq_true (hnone rfl)⟩
    | some uid =>
        obtain ⟨d, hd, rfl⟩ := List.mem_map.1 (hgroup uid rfl)
        exact .inr ⟨d, hd, mem_freshFolder.2 ⟨file, hx⟩⟩

theorem nodup_freshOf : ((freshOf w name pos).map Prod.fst).Nodup := by
  have hsource : ∀ {group x}, x ∈ (freshFolder w name group pos).map Prod.fst →
      x.1.group = group := by
    intro group x hx
    obtain ⟨y, hy, rfl⟩ := List.mem_map.1 hx
    obtain ⟨file, hy⟩ := mem_freshFolder.1 hy
    rw [(mem_fresh.1 hy).1]
  rw [freshOf, List.map_append, List.map_flatMap]
  refine List.Nodup.append (nodup_freshFolder.sublist (List.filter_sublist.map _)) ?_ ?_
  · refine List.nodup_flatMap.2 ⟨fun _ _ => nodup_freshFolder, ?_⟩
    refine (List.pairwise_map.1 nodup_newDirs).imp fun {d d'} hne x hx hx' => hne ?_
    exact Option.some.inj ((hsource hx).symm.trans (hsource hx'))
  · intro x hx hx'
    obtain ⟨d, hd, hx'⟩ := List.mem_flatMap.1 hx'
    have hnone := hsource ((List.filter_sublist.map _).subset hx)
    rw [hsource hx'] at hnone
    cases hnone

end Friend

end Peergos
