import PeergosClient.Core.Mutable

/-!
# The pointer cache

`CachedMutablePointers` keeps what it last read of a pointer for a short time and drops it around
its own writes.  A call is a task that runs up to its `await`, is answered by the server, and then
runs on, so that any number of reads and writes may be between their two halves at once.  Pointers
also change by a bulk commit, which goes through the storage and leaves the cache alone.

A write makes a new *version* of the pointers it names.  A read that starts after a write has
returned should not come back with an older version; `floor` notes the newest version a returned
write has made, and each answer keeps the floor its read started from.
-/

namespace Peergos

/-! ## State -/

/-- The owner and the writer of a pointer. -/
abbrev PointerKey := PublicKeyHash × PublicKeyHash

/-- What the server holds of a pointer, and how often it has been written. -/
structure Versioned where
  version : ℕ
  value : Option Bytes
  deriving DecidableEq

/-- A call that writes pointers. -/
inductive PointerWrite where
  /-- `CachedMutablePointers::set_pointer`. -/
  | setPointer (key : PointerKey) (payload : Bytes)
  /-- `CachedMutablePointers::set_pointers`. -/
  | setPointers (owner : PublicKeyHash) (updates : List (PublicKeyHash × Bytes))
  /-- `CachedStorage::bulk_commit`, as far as its pointer updates go. -/
  | bulkCommit (owner : PublicKeyHash) (updates : List (PublicKeyHash × Bytes))

/-- The pointers a call writes, in order. -/
def PointerWrite.updates : PointerWrite → List (PointerKey × Bytes)
  | setPointer key payload => [(key, payload)]
  | setPointers owner updates => updates.map fun u => ((owner, u.1), u.2)
  | bulkCommit owner updates => updates.map fun u => ((owner, u.1), u.2)

/-- `get_pointer` at its `await`: its key, the floor it started from, and the server's answer. -/
structure PendingGet where
  key : PointerKey
  floor : ℕ
  answer : Option Versioned

/-- A write at its `await`, with the versions it made once the server has answered. -/
structure PendingWrite where
  write : PointerWrite
  made : Option (List (PointerKey × ℕ))

/-- What a read returned, and the floor it started from. -/
structure Answered where
  floor : ℕ
  answer : Versioned
  deriving DecidableEq

/-- The cache, the server and the calls under way. -/
structure CachedMutablePointers where
  now : ℕ
  cache : PointerKey → Option (ℕ × Versioned)
  server : PointerKey → Versioned
  gets : ℕ → Option PendingGet
  writes : ℕ → Option PendingWrite
  floor : PointerKey → ℕ
  answers : List Answered

namespace CachedMutablePointers

/-- A client that has done nothing yet. -/
def new (server : PointerKey → Versioned) : CachedMutablePointers :=
  ⟨0, fun _ => none, server, fun _ => none, fun _ => none, fun _ => 0, []⟩

/-! ## Steps -/

/-- The value the cache answers with, unless its time is over. -/
def hit (ttl : ℕ) (s : CachedMutablePointers) (key : PointerKey) : Option Versioned :=
  match s.cache key with
  | some (stored, val) => if s.now - stored < ttl then some val else none
  | none => none

/-- What a write drops from the cache, before it is sent and again when it has come back. -/
def invalidate (cache : PointerKey → Option (ℕ × Versioned)) :
    PointerWrite → PointerKey → Option (ℕ × Versioned)
  | .setPointer key _ => Function.update cache key none
  | .setPointers _ _ => fun _ => none
  | .bulkCommit _ _ => cache

/-- A write as the server does it. -/
def apply (server : PointerKey → Versioned) (updates : List (PointerKey × Bytes)) :
    PointerKey → Versioned :=
  updates.foldl (fun server u =>
    Function.update server u.1 ⟨(server u.1).version + 1, some u.2⟩) server

/-- The floor, with the versions of a write that has returned. -/
def raise (floor : PointerKey → ℕ) (made : List (PointerKey × ℕ)) (key : PointerKey) : ℕ :=
  made.foldr (fun p n => if p.1 = key then max p.2 n else n) (floor key)

/-- What can happen next.  The numbers tell the calls under way apart. -/
inductive Action where
  /-- Time passes. -/
  | tick (time : ℕ)
  /-- Another client writes a pointer. -/
  | remoteWrite (key : PointerKey) (payload : Bytes)
  /-- `get_pointer` up to its `await`. -/
  | getStart (call : ℕ) (key : PointerKey)
  /-- The server answers a read. -/
  | getServe (call : ℕ)
  /-- A read comes back with an error. -/
  | getFail (call : ℕ)
  /-- `get_pointer` from its `await` on. -/
  | getFinish (call : ℕ)
  /-- A write up to its `await`. -/
  | writeStart (call : ℕ) (write : PointerWrite)
  /-- The server does a write. -/
  | writeServe (call : ℕ)
  /-- The server refuses a write. -/
  | writeRefuse (call : ℕ)
  /-- A write from its `await` on. -/
  | writeFinish (call : ℕ)

/-- One step; `none` if there is no such call at that point. -/
def step (ttl : ℕ) (s : CachedMutablePointers) : Action → Option CachedMutablePointers
  | .tick time => some { s with now := s.now + time }
  | .remoteWrite key payload => some { s with server := apply s.server [(key, payload)] }
  | .getStart call key =>
      match s.gets call with
      | some _ => none
      | none =>
          match s.hit ttl key with
          | some val => some { s with answers := s.answers ++ [⟨s.floor key, val⟩] }
          | none =>
              some { s with gets := Function.update s.gets call (some ⟨key, s.floor key, none⟩) }
  | .getServe call =>
      match s.gets call with
      | some ⟨key, floor, none⟩ =>
          some { s with gets := Function.update s.gets call (some ⟨key, floor, some (s.server key)⟩) }
      | _ => none
  | .getFail call =>
      match s.gets call with
      | some _ => some { s with gets := Function.update s.gets call none }
      | none => none
  | .getFinish call =>
      match s.gets call with
      | some ⟨key, floor, some val⟩ =>
          some { s with cache := Function.update s.cache key (some (s.now, val))
                        gets := Function.update s.gets call none
                        answers := s.answers ++ [⟨floor, val⟩] }
      | _ => none
  | .writeStart call write =>
      match s.writes call with
      | some _ => none
      | none => some { s with cache := invalidate s.cache write
                              writes := Function.update s.writes call (some ⟨write, none⟩) }
  | .writeServe call =>
      match s.writes call with
      | some ⟨write, none⟩ =>
          let server := apply s.server write.updates
          let made := write.updates.map fun u => (u.1, (server u.1).version)
          some { s with server := server
                        writes := Function.update s.writes call (some ⟨write, some made⟩) }
      | _ => none
  | .writeRefuse call =>
      match s.writes call with
      | some ⟨write, none⟩ =>
          some { s with writes := Function.update s.writes call (some ⟨write, some []⟩) }
      | _ => none
  | .writeFinish call =>
      match s.writes call with
      | some ⟨write, some made⟩ =>
          some { s with cache := invalidate s.cache write
                        writes := Function.update s.writes call none
                        floor := raise s.floor made }
      | _ => none

/-- A run. -/
def run (ttl : ℕ) (s : CachedMutablePointers) (actions : List Action) :
    Option CachedMutablePointers := actions.foldlM (step ttl) s

/-- No read that started after a write had returned came back with an older version. -/
def Fresh (s : CachedMutablePointers) : Prop := ∀ a ∈ s.answers, a.floor ≤ a.answer.version

/-- A write that returns leaves nothing older behind: no read of one of its pointers still has an
older answer to put into the cache, and, as a bulk commit drops nothing, neither has the cache. -/
def Settled (ttl : ℕ) (s : CachedMutablePointers) : Action → Prop
  | .writeFinish call => ∀ write made, s.writes call = some ⟨write, some made⟩ →
      ∀ p ∈ made,
        (∀ i g val, s.gets i = some g → g.key = p.1 → g.answer = some val → p.2 ≤ val.version) ∧
        ((∃ owner updates, write = .bulkCommit owner updates) →
          ∀ val, s.hit ttl p.1 = some val → p.2 ≤ val.version)
  | _ => True

/-- Every step of a run meets the condition. -/
def SettledRun (ttl : ℕ) (s : CachedMutablePointers) : List Action → Prop
  | [] => True
  | a :: actions => Settled ttl s a ∧ ∀ s', step ttl s a = some s' → SettledRun ttl s' actions

/-! ## Versions -/

theorem version_le_apply (server : PointerKey → Versioned) (updates : List (PointerKey × Bytes))
    (key : PointerKey) : (server key).version ≤ (apply server updates key).version := by
  induction updates generalizing server with
  | nil => exact le_rfl
  | cons u updates ih =>
      refine le_trans ?_ (ih _)
      by_cases h : key = u.1
      · subst h
        simp
      · simp [Function.update_of_ne h]

theorem raise_le {floor : PointerKey → ℕ} {made : List (PointerKey × ℕ)} {key : PointerKey}
    {b : ℕ} : raise floor made key ≤ b ↔ floor key ≤ b ∧ ∀ p ∈ made, p.1 = key → p.2 ≤ b := by
  induction made with
  | nil => simp [raise]
  | cons p made ih =>
      have hcons : raise floor (p :: made) key =
          if p.1 = key then max p.2 (raise floor made key) else raise floor made key := rfl
      rw [hcons, List.forall_mem_cons]
      by_cases h : p.1 = key
      · rw [if_pos h, max_le_iff, ih]
        constructor
        · rintro ⟨hp, hfloor, hmade⟩
          exact ⟨hfloor, fun _ => hp, hmade⟩
        · rintro ⟨hfloor, hp, hmade⟩
          exact ⟨hp h, hfloor, hmade⟩
      · rw [if_neg h, ih]
        constructor
        · rintro ⟨hfloor, hmade⟩
          exact ⟨hfloor, fun hp => absurd hp h, hmade⟩
        · rintro ⟨hfloor, -, hmade⟩
          exact ⟨hfloor, hmade⟩

theorem le_raise (floor : PointerKey → ℕ) (made : List (PointerKey × ℕ)) (key : PointerKey) :
    floor key ≤ raise floor made key := (raise_le.1 le_rfl).1

theorem mem_le_raise {floor : PointerKey → ℕ} {made : List (PointerKey × ℕ)} {p : PointerKey × ℕ}
    (h : p ∈ made) : p.2 ≤ raise floor made p.1 := (raise_le.1 le_rfl).2 p h rfl

/-! ## The invariant -/

/-- Nothing a read may still come back with is older than the floor. -/
structure Inv (ttl : ℕ) (s : CachedMutablePointers) : Prop where
  floor_le : ∀ key, s.floor key ≤ (s.server key).version
  hit_fresh : ∀ key val, s.hit ttl key = some val → s.floor key ≤ val.version
  get_fresh : ∀ i g val, s.gets i = some g → g.answer = some val → s.floor g.key ≤ val.version
  get_floor : ∀ i g, s.gets i = some g → g.floor ≤ s.floor g.key
  made_le : ∀ i write made, s.writes i = some ⟨write, some made⟩ → ∀ p ∈ made,
    (∃ payload, (p.1, payload) ∈ write.updates) ∧ p.2 ≤ (s.server p.1).version
  fresh : s.Fresh

theorem inv_new (ttl : ℕ) (server : PointerKey → Versioned) : Inv ttl (new server) := by
  refine ⟨fun _ => Nat.zero_le _, ?_, ?_, ?_, ?_, ?_⟩
  · intro key val h
    cases h
  · intro i g val h
    cases h
  · intro i g h
    cases h
  · intro i write made h
    cases h
  · intro a ha
    cases ha

variable {ttl : ℕ} {s s' : CachedMutablePointers}

/-- The cache after it was emptied in part. -/
theorem hit_of_hit_invalidate {write : PointerWrite} {key : PointerKey} {val : Versioned}
    (h : hit ttl { s with cache := invalidate s.cache write } key = some val) :
    s.hit ttl key = some val := by
  cases write with
  | setPointer k payload =>
      by_cases hk : key = k
      · subst hk
        simp [hit, invalidate] at h
      · simpa [hit, invalidate, Function.update_of_ne hk] using h
  | setPointers owner updates => simp [hit, invalidate] at h
  | bulkCommit owner updates => exact h

/-- A pointer that was set is not in the cache when the call returns. -/
theorem hit_invalidate_of_mem {write : PointerWrite}
    (hwrite : ¬∃ owner updates, write = .bulkCommit owner updates) {key : PointerKey}
    {payload : Bytes} (h : (key, payload) ∈ write.updates) :
    hit ttl { s with cache := invalidate s.cache write } key = none := by
  cases write with
  | setPointer k p =>
      cases List.mem_singleton.1 h
      simp [hit, invalidate]
  | setPointers owner updates => rfl
  | bulkCommit owner updates => exact absurd ⟨owner, updates, rfl⟩ hwrite

/-! ## One step -/

theorem fresh_append {answers : List Answered} {floor : ℕ} {val : Versioned}
    (h : ∀ a ∈ answers, a.floor ≤ a.answer.version) (hval : floor ≤ val.version) :
    ∀ a ∈ answers ++ [⟨floor, val⟩], a.floor ≤ a.answer.version := by
  intro a ha
  rcases List.mem_append.1 ha with ha | ha
  · exact h a ha
  · cases List.mem_singleton.1 ha
    exact hval

/-- The server only moves on. -/
theorem Inv.apply (h : Inv ttl s) (updates : List (PointerKey × Bytes)) :
    Inv ttl { s with server := apply s.server updates } where
  floor_le key := le_trans (h.floor_le key) (version_le_apply s.server updates key)
  hit_fresh := h.hit_fresh
  get_fresh := h.get_fresh
  get_floor := h.get_floor
  made_le i write made hw p hp :=
    ⟨(h.made_le i write made hw p hp).1,
      le_trans (h.made_le i write made hw p hp).2 (version_le_apply s.server updates p.1)⟩
  fresh := h.fresh

/-- A call of `get_pointer` that is not older than the floor may be under way. -/
theorem Inv.setGet (h : Inv ttl s) {call : ℕ} {g : Option PendingGet}
    (hfresh : ∀ g', g = some g' → ∀ val, g'.answer = some val → s.floor g'.key ≤ val.version)
    (hfloor : ∀ g', g = some g' → g'.floor ≤ s.floor g'.key) :
    Inv ttl { s with gets := Function.update s.gets call g } where
  floor_le := h.floor_le
  hit_fresh := h.hit_fresh
  get_fresh i g' val hg := by
    by_cases hi : i = call
    · subst hi
      exact hfresh g' (by simpa using hg) val
    · exact h.get_fresh i g' val (by simpa [Function.update_of_ne hi] using hg)
  get_floor i g' hg := by
    by_cases hi : i = call
    · subst hi
      exact hfloor g' (by simpa using hg)
    · exact h.get_floor i g' (by simpa [Function.update_of_ne hi] using hg)
  made_le := h.made_le
  fresh := h.fresh

/-- So may a write whose versions the server has. -/
theorem Inv.setWrite (h : Inv ttl s) {call : ℕ} {w : Option PendingWrite}
    (hmade : ∀ write made, w = some ⟨write, some made⟩ → ∀ p ∈ made,
      (∃ payload, (p.1, payload) ∈ write.updates) ∧ p.2 ≤ (s.server p.1).version) :
    Inv ttl { s with writes := Function.update s.writes call w } where
  floor_le := h.floor_le
  hit_fresh := h.hit_fresh
  get_fresh := h.get_fresh
  get_floor := h.get_floor
  made_le i write made hw := by
    by_cases hi : i = call
    · subst hi
      exact hmade write made (by simpa using hw)
    · exact h.made_le i write made (by simpa [Function.update_of_ne hi] using hw)
  fresh := h.fresh

theorem Inv.invalidate (h : Inv ttl s) (write : PointerWrite) :
    Inv ttl { s with cache := invalidate s.cache write } where
  floor_le := h.floor_le
  hit_fresh key val hit := h.hit_fresh key val (hit_of_hit_invalidate hit)
  get_fresh := h.get_fresh
  get_floor := h.get_floor
  made_le := h.made_le
  fresh := h.fresh

/-- A settled write raises the floor under nothing that is still to come. -/
theorem Inv.raise (h : Inv ttl s) {made : List (PointerKey × ℕ)}
    (hmade : ∀ p ∈ made, p.2 ≤ (s.server p.1).version)
    (hgets : ∀ p ∈ made, ∀ i g val, s.gets i = some g → g.key = p.1 → g.answer = some val →
      p.2 ≤ val.version)
    (hcache : ∀ p ∈ made, ∀ val, s.hit ttl p.1 = some val → p.2 ≤ val.version) :
    Inv ttl { s with floor := raise s.floor made } where
  floor_le key := raise_le.2 ⟨h.floor_le key, by rintro p hp rfl; exact hmade p hp⟩
  hit_fresh key val hit :=
    raise_le.2 ⟨h.hit_fresh key val hit, by rintro p hp rfl; exact hcache p hp val hit⟩
  get_fresh i g val hg hval :=
    raise_le.2 ⟨h.get_fresh i g val hg hval, fun p hp hkey => hgets p hp i g val hg hkey.symm hval⟩
  get_floor i g hg := le_trans (h.get_floor i g hg) (le_raise s.floor made g.key)
  made_le := h.made_le
  fresh := h.fresh

theorem Inv.tick (h : Inv ttl s) (time : ℕ) : Inv ttl { s with now := s.now + time } where
  floor_le := h.floor_le
  hit_fresh key val hhit := by
    refine h.hit_fresh key val ?_
    unfold hit at hhit ⊢
    cases hc : s.cache key with
    | none =>
        simp only [hc] at hhit
        cases hhit
    | some entry =>
        simp only [hc] at hhit ⊢
        split at hhit
        · next hlt => rw [if_pos (by omega), hhit]
        · cases hhit
  get_fresh := h.get_fresh
  get_floor := h.get_floor
  made_le := h.made_le
  fresh := h.fresh

/-- An answer that is not older than the floor may be returned, and kept. -/
theorem Inv.finish (h : Inv ttl s) {key : PointerKey} {floor : ℕ} {val : Versioned}
    (hfloor : floor ≤ s.floor key) (hval : s.floor key ≤ val.version) :
    Inv ttl { s with cache := Function.update s.cache key (some (s.now, val))
                     answers := s.answers ++ [⟨floor, val⟩] } where
  floor_le := h.floor_le
  hit_fresh k v hhit := by
    by_cases hk : k = key
    · subst hk
      simp only [hit, Function.update_self, Nat.sub_self] at hhit
      split at hhit
      · cases hhit
        exact hval
      · cases hhit
    · exact h.hit_fresh k v (by simpa [hit, Function.update_of_ne hk] using hhit)
  get_fresh := h.get_fresh
  get_floor := h.get_floor
  made_le := h.made_le
  fresh := fresh_append h.fresh (le_trans hfloor hval)

theorem inv_step {a : Action} (h : Inv ttl s) (hsettled : Settled ttl s a)
    (hstep : step ttl s a = some s') : Inv ttl s' := by
  cases a with
  | tick time =>
      cases hstep
      exact h.tick time
  | remoteWrite key payload =>
      cases hstep
      exact h.apply [(key, payload)]
  | getStart call key =>
      simp only [step] at hstep
      split at hstep
      · cases hstep
      · split at hstep
        · next val hhit =>
            cases hstep
            exact { h with fresh := fresh_append h.fresh (h.hit_fresh key val hhit) }
        · cases hstep
          refine h.setGet ?_ ?_
          · intro g hg val hval
            cases hg
            cases hval
          · intro g hg
            cases hg
            exact le_rfl
  | getServe call =>
      simp only [step] at hstep
      split at hstep
      · next key floor hget =>
          cases hstep
          refine h.setGet ?_ ?_
          · intro g hg val hval
            cases hg
            cases hval
            exact h.floor_le key
          · intro g hg
            cases hg
            exact h.get_floor call ⟨key, floor, none⟩ hget
      · cases hstep
  | getFail call =>
      simp only [step] at hstep
      split at hstep
      · cases hstep
        refine h.setGet ?_ ?_
        · intro g hg
          cases hg
        · intro g hg
          cases hg
      · cases hstep
  | getFinish call =>
      simp only [step] at hstep
      split at hstep
      · next key floor val hget =>
          cases hstep
          have hfinish := h.finish (h.get_floor call _ hget) (h.get_fresh call _ val hget rfl)
          refine hfinish.setGet ?_ ?_
          · intro g hg
            cases hg
          · intro g hg
            cases hg
      · cases hstep
  | writeStart call write =>
      simp only [step] at hstep
      split at hstep
      · cases hstep
      · cases hstep
        refine (h.invalidate write).setWrite ?_
        intro write made hw
        cases hw
  | writeServe call =>
      simp only [step] at hstep
      split at hstep
      · next write hwrite =>
          cases hstep
          refine (h.apply write.updates).setWrite ?_
          intro write' made hw p hp
          cases hw
          obtain ⟨u, hu, rfl⟩ := List.mem_map.1 hp
          exact ⟨⟨u.2, hu⟩, le_rfl⟩
      · cases hstep
  | writeRefuse call =>
      simp only [step] at hstep
      split at hstep
      · cases hstep
        refine h.setWrite ?_
        intro write made hw p hp
        cases hw
        cases hp
      · cases hstep
  | writeFinish call =>
      simp only [step] at hstep
      split at hstep
      · next write made hwrite =>
          cases hstep
          have hsettled := hsettled write made hwrite
          have hmade := h.made_le call write made hwrite
          have hdropped : ∀ p ∈ made, ∀ val,
              hit ttl { s with cache := CachedMutablePointers.invalidate s.cache write } p.1 =
                some val → p.2 ≤ val.version := by
            intro p hp val hhit
            by_cases hbulk : ∃ owner updates, write = .bulkCommit owner updates
            · exact (hsettled p hp).2 hbulk val (hit_of_hit_invalidate hhit)
            · obtain ⟨payload, hmem⟩ := (hmade p hp).1
              rw [hit_invalidate_of_mem hbulk hmem] at hhit
              cases hhit
          have hraise := (h.invalidate write).raise (fun p hp => (hmade p hp).2)
            (fun p hp => (hsettled p hp).1) hdropped
          refine hraise.setWrite ?_
          intro write made hw
          cases hw
      · cases hstep

/-! ## Whole runs -/

theorem inv_run {actions : List Action} (h : Inv ttl s) (hsettled : SettledRun ttl s actions)
    (hrun : run ttl s actions = some s') : Inv ttl s' := by
  induction actions generalizing s with
  | nil =>
      cases hrun
      exact h
  | cons a actions ih =>
      simp only [run, List.foldlM_cons] at hrun
      obtain ⟨s₁, hstep, hrest⟩ := Option.bind_eq_some_iff.1 hrun
      exact ih (inv_step h hsettled.1 hstep) (hsettled.2 s₁ hstep) hrest

/-- A read of a value that is still in the cache. -/
theorem step_getStart_hit {call : ℕ} {key : PointerKey} {val : Versioned}
    (hfree : s.gets call = none) (hhit : s.hit ttl key = some val) :
    step ttl s (.getStart call key) =
      some { s with answers := s.answers ++ [⟨s.floor key, val⟩] } := by
  simp only [step, hfree, hhit]

theorem not_fresh_append {floor : ℕ} {val : Versioned} (h : val.version < floor)
    (hs : ⟨floor, val⟩ ∈ s.answers) : ¬s.Fresh := fun hfresh =>
  absurd (hfresh _ hs) (not_le.2 h)

/-- A value older than the floor in the cache is soon returned. -/
theorem stale_of_hit {key : PointerKey} {val : Versioned} (hhit : s.hit ttl key = some val)
    (hold : val.version < s.floor key) :
    ∃ actions s', run ttl s actions = some s' ∧ ¬s'.Fresh := by
  cases hget : s.gets 0 with
  | none =>
      refine ⟨[.getStart 0 key], { s with answers := s.answers ++ [⟨s.floor key, val⟩] }, ?_,
        not_fresh_append hold (by simp)⟩
      simp only [run, List.foldlM_cons, List.foldlM_nil, step_getStart_hit hget hhit]
      rfl
  | some g =>
      -- the number is taken: let that call fail first
      set s₁ : CachedMutablePointers := { s with gets := Function.update s.gets 0 none } with hs₁
      have hfail : step ttl s (.getFail 0) = some s₁ := by
        simp only [step, hget, hs₁]
      have hfree : s₁.gets 0 = none := by
        simp [hs₁]
      have hhit₁ : s₁.hit ttl key = some val := hhit
      refine ⟨[.getFail 0, .getStart 0 key],
        { s₁ with answers := s₁.answers ++ [⟨s₁.floor key, val⟩] }, ?_,
        not_fresh_append (show val.version < s₁.floor key from hold) (by simp)⟩
      simp only [run, List.foldlM_cons, List.foldlM_nil, hfail, Option.bind_eq_bind,
        Option.bind_some, step_getStart_hit hfree hhit₁]
      rfl

/-- A write that returns while something older is left behind is followed by a read that comes back
with it. -/
theorem stale_of_not_settled (httl : 0 < ttl) {call : ℕ}
    (hstep : step ttl s (.writeFinish call) = some s') (h : ¬Settled ttl s (.writeFinish call)) :
    ∃ actions s'', run ttl s' actions = some s'' ∧ ¬s''.Fresh := by
  simp only [Settled, not_forall] at h
  obtain ⟨write, made, hwrite, p, hp, h⟩ := h
  simp only [step, hwrite] at hstep
  cases hstep
  have hraised : p.2 ≤ raise s.floor made p.1 := mem_le_raise hp
  rcases not_and_or.1 h with h | h
  · -- a read finishes after the write: it puts its answer into the cache, and the next one is stale
    simp only [not_forall] at h
    obtain ⟨i, g, val, hget, hkey, hval, hold⟩ := h
    obtain ⟨key, floor, answer⟩ := g
    cases hkey
    cases hval
    set s₁ : CachedMutablePointers :=
      { s with cache := Function.update (invalidate s.cache write) p.1 (some (s.now, val))
               writes := Function.update s.writes call none
               floor := CachedMutablePointers.raise s.floor made
               gets := Function.update s.gets i none
               answers := s.answers ++ [⟨floor, val⟩] } with hs₁
    have hhit : s₁.hit ttl p.1 = some val := by
      simp [hit, hs₁, httl]
    obtain ⟨actions, s'', hrun, hstale⟩ :=
      stale_of_hit hhit (show val.version < s₁.floor p.1 from lt_of_lt_of_le (not_le.1 hold) hraised)
    refine ⟨.getFinish i :: actions, s'', ?_, hstale⟩
    rw [run, List.foldlM_cons]
    simp only [step, hget, Option.bind_eq_bind, Option.bind_some]
    exact hrun
  · -- a bulk commit left an older value in the cache
    simp only [not_forall] at h
    obtain ⟨⟨owner, updates, rfl⟩, val, hhit, hold⟩ := h
    exact stale_of_hit hhit (lt_of_lt_of_le (not_le.1 hold) hraised)

/-- A read that starts after a write of ours has returned never comes back with an older version in
a run where each write that returns leaves nothing older behind; and as soon as one does, some read
may. -/
theorem own_write_not_stale (ttl : ℕ) (server : PointerKey → Versioned) :
    (∀ actions s, SettledRun ttl (new server) actions →
      run ttl (new server) actions = some s → s.Fresh) ∧
    (0 < ttl → ∀ actions s call s', run ttl (new server) actions = some s →
      step ttl s (.writeFinish call) = some s' → ¬Settled ttl s (.writeFinish call) →
      ∃ more s'', run ttl s' more = some s'' ∧ ¬s''.Fresh) := by
  refine ⟨fun actions s hsettled hrun => ?_, fun httl actions s call s' _ hstep h => ?_⟩
  · exact (inv_run (inv_new ttl server) hsettled hrun).fresh
  · exact stale_of_not_settled httl hstep h

theorem SettledRun.cons {a : Action} {actions : List Action} (hstep : step ttl s a = some s')
    (ha : Settled ttl s a) (hrest : SettledRun ttl s' actions) :
    SettledRun ttl s (a :: actions) := by
  refine ⟨ha, fun s₁ hs₁ => ?_⟩
  cases hstep.symm.trans hs₁
  exact hrest

/-- The pointer of the runs below. -/
def somePointer : PointerKey :=
  let key : PublicKeyHash := ⟨⟨.v1, .raw, ⟨.id, [1], by decide⟩⟩, Or.inr rfl⟩
  (key, key)

theorem own_write_not_stale_sample :
    ∃ s, run 7 (new fun _ => ⟨0, none⟩) [.getStart 0 somePointer, .getServe 0, .getFinish 0,
        .writeStart 0 (.setPointer somePointer [1]), .writeServe 0, .writeFinish 0,
        .getStart 0 somePointer, .getServe 0, .getFinish 0] = some s ∧ s.Fresh := by
  refine ⟨_, rfl, (own_write_not_stale 7 fun _ => ⟨0, none⟩).1 [.getStart 0 somePointer,
    .getServe 0, .getFinish 0, .writeStart 0 (.setPointer somePointer [1]), .writeServe 0,
    .writeFinish 0, .getStart 0 somePointer, .getServe 0, .getFinish 0] _ ?_ rfl⟩
  refine .cons rfl trivial (.cons rfl trivial (.cons rfl trivial (.cons rfl trivial (.cons rfl
    trivial (.cons rfl ?_ (.cons rfl trivial (.cons rfl trivial (.cons rfl trivial trivial))))))))
  -- when the write returns, no read is under way
  rintro write made hw p hp
  refine ⟨?_, ?_⟩
  · intro i g val hg
    have hnone : (Function.update (Function.update (Function.update (fun _ => none) 0
      (some (⟨somePointer, 0, none⟩ : PendingGet))) 0
        (some ⟨somePointer, 0, some ⟨0, none⟩⟩)) 0 none : ℕ → Option PendingGet) i = some g := hg
    rcases i with _ | i <;> simp at hnone
  · rintro ⟨owner, updates, rfl⟩
    cases hw

/-- A read that missed puts its answer into the cache after the write has dropped the entry for the
second time; and a bulk commit leaves what was read before it. -/
theorem own_write_stale :
    (∃ s, run 7 (new fun _ => ⟨0, none⟩) [.getStart 0 somePointer, .getServe 0,
        .writeStart 0 (.setPointer somePointer [1]), .writeServe 0, .writeFinish 0,
        .getFinish 0, .getStart 0 somePointer] = some s ∧ ¬s.Fresh) ∧
    ∃ s, run 7 (new fun _ => ⟨0, none⟩) [.getStart 0 somePointer, .getServe 0, .getFinish 0,
        .writeStart 0 (.bulkCommit somePointer.1 [(somePointer.2, [1])]), .writeServe 0,
        .writeFinish 0, .getStart 0 somePointer] = some s ∧ ¬s.Fresh := by
  constructor
  · refine ⟨_, rfl, not_fresh_append (show (⟨0, none⟩ : Versioned).version < 1 by decide) ?_⟩
    decide
  · refine ⟨_, rfl, not_fresh_append (show (⟨0, none⟩ : Versioned).version < 1 by decide) ?_⟩
    decide

end CachedMutablePointers

end Peergos
