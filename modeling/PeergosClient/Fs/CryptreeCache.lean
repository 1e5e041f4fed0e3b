import PeergosClient.Core.Mutable
import PeergosClient.Lib.Lru

/-!
# The cache of decrypted nodes

`CryptreeCache` keeps decrypted nodes by the champ root they were read under and their map key: a
least-recently-used map of roots, each with a least-recently-used map of its own.  A commit moves
the group of the old root to the new one, less what it changed.  Over any run of reads and commits
whose callers tell the truth about what they read and changed, a hit is what the champ holds.
-/

namespace Peergos

/-- `Entry`.  A key stands for itself serialized. -/
structure CacheEntry (κ ν : Type) where
  /-- The key the node was parsed with, if it was parsed from a block. -/
  parsedWith : Option κ
  /-- `none` is a known-absent map key. -/
  node : Option ν

/-- `Entry::valid_for`. -/
def CacheEntry.validFor {κ ν : Type} [DecidableEq κ] (e : CacheEntry κ ν) (key : κ) : Bool :=
  e.parsedWith = none ∨ e.parsedWith = some key

/-- `ForRoot`: the nodes read under one root. -/
abbrev ForRoot (κ ν : Type) := Lru Bytes (CacheEntry κ ν)

/-- `CryptreeCache`. -/
structure CryptreeCache (κ ν : Type) where
  byRoot : Lru Cid (ForRoot κ ν)
  cap : ℕ

namespace CryptreeCache

variable {κ ν : Type}

/-- `MAX_ROOTS`. -/
def maxRoots : ℕ := 4

/-- `DEFAULT_CRYPTREE_CACHE_SIZE`. -/
def defaultSize : ℕ := 1000

/-- `with_capacity`. -/
def withCapacity (cap : ℕ) : CryptreeCache κ ν := ⟨.new maxRoots, max cap 1⟩

/-- `new`. -/
def new : CryptreeCache κ ν := withCapacity defaultSize

/-- What is done to the group that `for_root` returns. -/
def forRoot (c : CryptreeCache κ ν) (root : Cid) (f : ForRoot κ ν → ForRoot κ ν) :
    Result (CryptreeCache κ ν) :=
  let (found, byRoot) := c.byRoot.get root
  let byRoot := if found.isNone then byRoot.insert root (.new c.cap) else byRoot
  match byRoot.access root fun g => ((), f g) with
  | (some (), byRoot) => .ok { c with byRoot }
  | (none, _) => .error .panic

/-- `carry_over`. -/
def carryOver (c : CryptreeCache κ ν) (prior new : Cid) : CryptreeCache κ ν :=
  if prior = new then c
  else
    match c.byRoot.remove prior with
    | (some carried, byRoot) => { c with byRoot := byRoot.insert new carried }
    | (none, byRoot) => { c with byRoot }

/-- `get`. -/
def get [DecidableEq κ] (c : CryptreeCache κ ν) (root : Cid) (mapKey : Bytes) (key : κ) :
    Option (Option ν) × CryptreeCache κ ν :=
  let (found, byRoot) := c.byRoot.access root fun g => g.get mapKey
  ((found.join.filter fun e => e.validFor key).map CacheEntry.node, { c with byRoot })

/-- `put_parsed`. -/
def putParsed (c : CryptreeCache κ ν) (root : Cid) (mapKey : Bytes) (key : κ) (node : ν) :
    Result (CryptreeCache κ ν) :=
  c.forRoot root fun g => g.insert mapKey ⟨some key, some node⟩

/-- `put_absent`. -/
def putAbsent (c : CryptreeCache κ ν) (root : Cid) (mapKey : Bytes) :
    Result (CryptreeCache κ ν) :=
  c.forRoot root fun g => g.insert mapKey ⟨none, none⟩

/-- `put_lookup`. -/
def putLookup (c : CryptreeCache κ ν) (root : Cid) (mapKey : Bytes) (key : κ) :
    Option ν → Result (CryptreeCache κ ν)
  | some node => c.putParsed root mapKey key node
  | none => c.putAbsent root mapKey

/-- `update`. -/
def update (c : CryptreeCache κ ν) (prior : Option Cid) (new : Cid) (mapKey : Bytes)
    (val : Option ν) : Result (CryptreeCache κ ν) :=
  let c := match prior with
    | some prior => c.carryOver prior new
    | none => c
  c.forRoot new fun g => g.insert mapKey ⟨none, val⟩

/-- `migrate`. -/
def migrate (c : CryptreeCache κ ν) (prior new : Cid) (changedKeys : List Bytes) :
    CryptreeCache κ ν :=
  let c := c.carryOver prior new
  { c with
    byRoot := (c.byRoot.access new fun g =>
      ((), changedKeys.foldl (fun g k => (g.remove k).2) g)).2 }

/-- `clear`. -/
def clear (c : CryptreeCache κ ν) : CryptreeCache κ ν := ⟨.new maxRoots, c.cap⟩

/-! ## What the cache knows -/

section Faithful

variable [DecidableEq κ] {Held Held' : Cid → Bytes → κ → Option ν → Prop}
  {c : CryptreeCache κ ν} {root prior new : Cid} {mapKey : Bytes} {key : κ}

/-- Every reader for whom an entry is valid is told what the champ holds. -/
def EntryTrue (Held : Cid → Bytes → κ → Option ν → Prop) (root : Cid) (mapKey : Bytes)
    (e : CacheEntry κ ν) : Prop :=
  ∀ key, e.validFor key = true → Held root mapKey key e.node

/-- The entries of a group are true, and it is as large as it may be. -/
def GroupTrue (Held : Cid → Bytes → κ → Option ν → Prop) (cap : ℕ) (root : Cid)
    (g : ForRoot κ ν) : Prop :=
  g.cap = cap ∧ ∃ l, g.Represents l ∧ ∀ e ∈ l, EntryTrue Held root e.1 e.2

/-- What is in the cache under a root is what the champ holds. -/
structure Faithful (Held : Cid → Bytes → κ → Option ν → Prop) (c : CryptreeCache κ ν) : Prop where
  roots : c.byRoot.cap = maxRoots
  cap_pos : 0 < c.cap
  groups : ∃ l, c.byRoot.Represents l ∧ ∀ g ∈ l, GroupTrue Held c.cap g.1 g.2

theorem GroupTrue.mono {cap : ℕ} {g : ForRoot κ ν} (h : GroupTrue Held cap root g)
    (hheld : ∀ mapKey key node, Held root mapKey key node → Held' new mapKey key node) :
    GroupTrue Held' cap new g := by
  obtain ⟨hcap, l, hl, htrue⟩ := h
  exact ⟨hcap, l, hl, fun e he key hkey => hheld _ _ _ (htrue e he key hkey)⟩

theorem groupTrue_new {cap : ℕ} (hcap : 0 < cap) :
    GroupTrue Held cap root (.new cap : ForRoot κ ν) :=
  ⟨by simp only [Lru.new]; omega, [], Lru.represents_new cap, by simp⟩

/-- A new entry makes up for what is not known of its key. -/
theorem GroupTrue.insert {cap : ℕ} {g : ForRoot κ ν} (h : GroupTrue Held cap root g)
    (hheld : ∀ k key node, k ≠ mapKey → Held root k key node → Held' root k key node)
    {e : CacheEntry κ ν} (he : EntryTrue Held' root mapKey e) :
    GroupTrue Held' cap root (g.insert mapKey e) := by
  obtain ⟨hcap, l, hl, htrue⟩ := h
  refine ⟨hcap, _, hl.insert mapKey e, fun e' he' => ?_⟩
  rcases Lru.mem_push he' with rfl | ⟨he', hne⟩
  · exact he
  · exact fun key hkey => hheld _ _ _ hne (htrue e' he' key hkey)

theorem faithful_withCapacity (cap : ℕ) : (withCapacity cap : CryptreeCache κ ν).Faithful Held where
  roots := rfl
  cap_pos := by simp [withCapacity]
  groups := ⟨[], Lru.represents_new _, by simp⟩

/-- The groups of a list after something was done to one of them. -/
theorem groupTrue_touch {cap : ℕ} {l : List (Cid × ForRoot κ ν)}
    {f : ForRoot κ ν → ForRoot κ ν} (hnodup : (l.map Prod.fst).Nodup)
    (htrue : ∀ g ∈ l, GroupTrue Held cap g.1 g.2)
    (hother : ∀ root' k key node, root' ≠ root → Held root' k key node → Held' root' k key node)
    (hf : ∀ g, GroupTrue Held cap root g → GroupTrue Held' cap root (f g)) :
    ∀ g ∈ Lru.touch l root f, GroupTrue Held' cap g.1 g.2 := by
  intro g hg
  rcases Lru.mem_touch hg with ⟨hg, hne⟩ | ⟨g', hg', rfl⟩
  · exact (htrue g hg).mono fun _ _ _ => hother _ _ _ _ hne
  · exact hf g' (htrue _ ((Lru.lookup_eq_some hnodup).1 hg'))

/-- What is done to one group. -/
theorem Faithful.access (h : c.Faithful Held) {α : Type} (f : ForRoot κ ν → α × ForRoot κ ν)
    (hother : ∀ root' k key node, root' ≠ root → Held root' k key node → Held' root' k key node)
    (hf : ∀ g, GroupTrue Held c.cap root g → GroupTrue Held' c.cap root (f g).2) :
    ({ c with byRoot := (c.byRoot.access root f).2 } : CryptreeCache κ ν).Faithful Held' := by
  obtain ⟨l, hl, htrue⟩ := h.groups
  exact ⟨h.roots, h.cap_pos, _, hl.access_snd f, groupTrue_touch hl.nodup htrue hother hf⟩

/-- `for_root` always finds the group, or has just inserted it. -/
theorem Faithful.forRoot (h : c.Faithful Held) (f : ForRoot κ ν → ForRoot κ ν)
    (hother : ∀ root' k key node, root' ≠ root → Held root' k key node → Held' root' k key node)
    (hf : ∀ g, GroupTrue Held c.cap root g → GroupTrue Held' c.cap root (f g)) :
    ∃ c', c.forRoot root f = .ok c' ∧ c'.Faithful Held' := by
  obtain ⟨l, hl, htrue⟩ := h.groups
  set byRoot := if (c.byRoot.get root).1.isNone then
    (c.byRoot.get root).2.insert root (.new c.cap) else (c.byRoot.get root).2 with hbyRoot
  have hget := hl.access_snd (k := root) fun g : ForRoot κ ν => (g, g)
  have htouched : ∀ g ∈ Lru.touch l root (fun g : ForRoot κ ν => g),
      GroupTrue Held c.cap g.1 g.2 :=
    groupTrue_touch hl.nodup htrue (fun _ _ _ _ _ hheld => hheld) fun _ hg => hg
  have hready : ∃ l', byRoot.Represents l' ∧ (∀ g ∈ l', GroupTrue Held c.cap g.1 g.2) ∧
      byRoot.cap = maxRoots ∧ ∃ g, Lru.lookup l' root = some g := by
    rw [hbyRoot, Lru.get, hl.access_fst]
    cases hfound : Lru.lookup l root with
    | none =>
        simp only [Option.map_none, Option.isNone_none, if_true]
        have hinsert := hget.insert root (.new c.cap : ForRoot κ ν)
        refine ⟨_, hinsert, fun g hg => ?_, h.roots, .new c.cap, ?_⟩
        · rcases Lru.mem_push hg with rfl | ⟨hg, -⟩
          · exact groupTrue_new h.cap_pos
          · exact htouched g hg
        · exact (Lru.lookup_eq_some hinsert.nodup).2 (Lru.mem_push_self hget.cap_pos)
    | some g =>
        simp only [Option.map_some, Option.isNone_some, Bool.false_eq_true, if_false]
        refine ⟨_, hget, htouched, h.roots, g, ?_⟩
        rw [Lru.lookup_touch, if_pos rfl, hfound]
        rfl
  obtain ⟨l', hl', htrue', hroots, g, hg⟩ := hready
  have hfst := hl'.access_fst (k := root) fun g : ForRoot κ ν => ((), f g)
  have hsnd := hl'.access_snd (k := root) fun g : ForRoot κ ν => ((), f g)
  refine ⟨{ c with byRoot := (byRoot.access root fun g => ((), f g)).2 }, ?_, ?_⟩
  · rw [hg, Option.map_some] at hfst
    unfold CryptreeCache.forRoot
    dsimp only
    rw [← hbyRoot]
    rcases hacc : byRoot.access root fun g => ((), f g) with ⟨found, byRoot'⟩
    rw [hacc] at hfst
    cases hfst
    rfl
  · exact ⟨hroots, h.cap_pos, _, hsnd, groupTrue_touch hl'.nodup htrue' hother hf⟩

/-- A hit is what the champ holds. -/
theorem Faithful.get_fst (h : c.Faithful Held) {node : Option ν}
    (hhit : (c.get root mapKey key).1 = some node) : Held root mapKey key node := by
  obtain ⟨l, hl, htrue⟩ := h.groups
  have hfst := hl.access_fst (k := root) fun g : ForRoot κ ν => g.get mapKey
  simp only [CryptreeCache.get, hfst] at hhit
  cases hfound : Lru.lookup l root with
  | none => simp [hfound] at hhit
  | some g =>
      obtain ⟨-, lg, hlg, hentries⟩ := htrue _ ((Lru.lookup_eq_some hl.nodup).1 hfound)
      have hentry : (g.get mapKey).1 = Lru.lookup lg mapKey := by
        rw [Lru.get, hlg.access_fst]
        cases Lru.lookup lg mapKey <;> rfl
      simp only [hfound, Option.map_some, Option.join_some, hentry, Option.map_eq_some_iff,
        Option.filter_eq_some_iff] at hhit
      obtain ⟨e, ⟨he, hvalid⟩, rfl⟩ := hhit
      exact hentries _ ((Lru.lookup_eq_some hlg.nodup).1 he) key hvalid

/-- A read changes nothing but when things were read. -/
theorem Faithful.get_snd (h : c.Faithful Held) : (c.get root mapKey key).2.Faithful Held := by
  refine h.access (fun g => g.get mapKey) (fun _ _ _ _ _ hheld => hheld) fun g hg => ?_
  obtain ⟨hcap, l, hl, htrue⟩ := hg
  refine ⟨hcap, _, hl.access_snd _, fun e he => ?_⟩
  rcases Lru.mem_touch he with ⟨he, -⟩ | ⟨v, hv, rfl⟩
  · exact htrue e he
  · exact htrue _ ((Lru.lookup_eq_some hl.nodup).1 hv)

/-- Something can always be kept. -/
theorem Faithful.putLookup_ok (h : c.Faithful Held) (root : Cid) (mapKey : Bytes) (key : κ)
    (node : Option ν) : ∃ c', c.putLookup root mapKey key node = .ok c' := by
  have hany : c.Faithful (fun _ _ (_ : κ) (_ : Option ν) => True) := by
    obtain ⟨l, hl, htrue⟩ := h.groups
    exact ⟨h.roots, h.cap_pos, l, hl, fun g hg => (htrue g hg).mono fun _ _ _ _ => trivial⟩
  have hput : ∀ e, ∃ c', c.forRoot root (fun g => g.insert mapKey e) = .ok c' := fun e => by
    have hinsert : ∀ g, GroupTrue (fun _ _ (_ : κ) (_ : Option ν) => True) c.cap root g →
        GroupTrue (fun _ _ _ _ => True) c.cap root (g.insert mapKey e) := fun g hg =>
      hg.insert (fun _ _ _ _ h => h) fun _ _ => trivial
    obtain ⟨c', hc', -⟩ := hany.forRoot _ (fun _ _ _ _ _ h => h) hinsert
    exact ⟨c', hc'⟩
  cases node with
  | some node => exact hput _
  | none => exact hput _

/-- What a cache knows, save what it may have wrong of some keys of one root. -/
def Save (Held : Cid → Bytes → κ → Option ν → Prop) (root : Cid) (keys : List Bytes) :
    Cid → Bytes → κ → Option ν → Prop :=
  fun root' k key node => root' = root ∧ k ∈ keys ∨ Held root' k key node

omit [DecidableEq κ] in
theorem Save.of_ne {keys : List Bytes} {root' : Cid} {k : Bytes} {node : Option ν}
    (hne : root' ≠ root) (h : Save Held root keys root' k key node) : Held root' k key node :=
  h.resolve_left fun h => hne h.1

/-- A new entry makes up for what was not known of its key. -/
theorem Faithful.insert (h : c.Faithful (Save Held root [mapKey])) {e : CacheEntry κ ν}
    (he : EntryTrue Held root mapKey e) :
    ∃ c', c.forRoot root (fun g => g.insert mapKey e) = .ok c' ∧ c'.Faithful Held := by
  refine h.forRoot _ (fun _ _ _ _ hne => Save.of_ne hne) fun g hg => hg.insert ?_ he
  intro k key node hne hheld
  exact hheld.resolve_left fun h => hne (List.mem_singleton.1 h.2)

theorem Faithful.weaken (h : c.Faithful Held) (keys : List Bytes) :
    c.Faithful (Save Held root keys) := by
  obtain ⟨l, hl, htrue⟩ := h.groups
  exact ⟨h.roots, h.cap_pos, l, hl, fun g hg => (htrue g hg).mono fun _ _ _ => Or.inr⟩

/-- A commit hands the group of one root on to another, with the keys it changed. -/
theorem Faithful.carryOver (h : c.Faithful Held) {keys : List Bytes}
    (hcarry : ∀ k key node, k ∉ keys → Held prior k key node → Held new k key node) :
    (c.carryOver prior new).Faithful (Save Held new keys) := by
  obtain ⟨l, hl, htrue⟩ := h.groups
  have hweaken : ∀ g ∈ l, GroupTrue (Save Held new keys) c.cap g.1 g.2 := fun g hg =>
    (htrue g hg).mono fun _ _ _ => Or.inr
  unfold CryptreeCache.carryOver
  split
  · exact h.weaken keys
  · have hfst := hl.remove_fst prior
    have hsnd := hl.remove_snd prior
    have hroots : (c.byRoot.remove prior).2.cap = maxRoots := h.roots
    rcases hremove : c.byRoot.remove prior with ⟨found, byRoot⟩
    rw [hremove] at hfst hsnd hroots
    have hrest : ∀ g ∈ l.filter fun e => e.1 ≠ prior,
        GroupTrue (Save Held new keys) c.cap g.1 g.2 := fun g hg =>
      hweaken g (List.mem_of_mem_filter hg)
    cases found with
    | none => exact ⟨hroots, h.cap_pos, _, hsnd, hrest⟩
    | some carried =>
        refine ⟨hroots, h.cap_pos, _, hsnd.insert new carried, fun g hg => ?_⟩
        rcases Lru.mem_push hg with rfl | ⟨hg, -⟩
        · have hmem := (Lru.lookup_eq_some hl.nodup).1 hfst.symm
          refine (htrue _ hmem).mono fun k key node hheld => ?_
          by_cases hk : k ∈ keys
          · exact Or.inl ⟨rfl, hk⟩
          · exact Or.inr (hcarry k key node hk hheld)
        · exact hrest g hg

/-- A group from which the keys that may be wrong were taken. -/
theorem groupTrue_removed {cap : ℕ} {keys : List Bytes} {g : ForRoot κ ν}
    (h : GroupTrue (Save Held root keys) cap root g) :
    GroupTrue Held cap root (keys.foldl (fun g k => (g.remove k).2) g) := by
  induction keys generalizing g with
  | nil => exact h.mono fun _ _ _ hheld => hheld.resolve_left fun h => List.not_mem_nil h.2
  | cons k keys ih =>
      refine ih ?_
      obtain ⟨hcap, l, hl, htrue⟩ := h
      refine ⟨hcap, _, hl.remove_snd k, fun e he key hkey => ?_⟩
      obtain ⟨he, hne⟩ := List.mem_filter.1 he
      rcases htrue e he key hkey with ⟨-, hmem⟩ | hheld
      · rcases List.mem_cons.1 hmem with heq | hmem
        · exact absurd heq (by simpa using hne)
        · exact Or.inl ⟨rfl, hmem⟩
      · exact Or.inr hheld

end Faithful

/-! ## Runs -/

/-- What the cache is asked to do. -/
inductive CacheOp (κ ν : Type) where
  | get (root : Cid) (mapKey : Bytes) (key : κ)
  | putLookup (root : Cid) (mapKey : Bytes) (key : κ) (node : Option ν)
  | update (prior : Option Cid) (new : Cid) (mapKey : Bytes) (val : Option ν)
  | migrate (prior new : Cid) (changedKeys : List Bytes)
  | clear

section Runs

variable [DecidableEq κ]

/-- The cache after a call. -/
def apply (c : CryptreeCache κ ν) : CacheOp κ ν → Result (CryptreeCache κ ν)
  | .get root mapKey key => .ok (c.get root mapKey key).2
  | .putLookup root mapKey key node => c.putLookup root mapKey key node
  | .update prior new mapKey val => c.update prior new mapKey val
  | .migrate prior new changedKeys => .ok (c.migrate prior new changedKeys)
  | .clear => .ok c.clear

/-- What the caller of a call says is so: what was looked up is what the champ holds, a chunk that
was not there is not there for any reader, and a commit changes nothing but the keys it names. -/
def CacheOp.Truthful (Held : Cid → Bytes → κ → Option ν → Prop) : CacheOp κ ν → Prop
  | .get _ _ _ => True
  | .putLookup root mapKey key (some node) => Held root mapKey key (some node)
  | .putLookup root mapKey _ none => ∀ key, Held root mapKey key none
  | .update prior new mapKey val => (∀ key, Held new mapKey key val) ∧
      ∀ p ∈ prior, ∀ k key node, k ≠ mapKey → Held p k key node → Held new k key node
  | .migrate prior new changedKeys =>
      ∀ k key node, k ∉ changedKeys → Held prior k key node → Held new k key node
  | .clear => True

variable {Held : Cid → Bytes → κ → Option ν → Prop} {c : CryptreeCache κ ν}

theorem entryTrue_any {root : Cid} {mapKey : Bytes} {node : Option ν}
    (h : ∀ key, Held root mapKey key node) : EntryTrue Held root mapKey ⟨none, node⟩ :=
  fun key _ => h key

theorem entryTrue_parsed {root : Cid} {mapKey : Bytes} {key : κ} {node : ν}
    (h : Held root mapKey key (some node)) :
    EntryTrue Held root mapKey ⟨some key, some node⟩ := by
  intro key' hkey
  simp only [CacheEntry.validFor, reduceCtorEq, Option.some.injEq, false_or,
    decide_eq_true_eq] at hkey
  exact hkey ▸ h

/-- A call whose caller tells the truth succeeds and leaves the cache true. -/
theorem Faithful.apply (h : c.Faithful Held) {op : CacheOp κ ν} (ht : op.Truthful Held) :
    ∃ c', c.apply op = .ok c' ∧ c'.Faithful Held := by
  cases op with
  | get root mapKey key => exact ⟨_, rfl, h.get_snd⟩
  | putLookup root mapKey key node =>
      cases node with
      | some node => exact (h.weaken _).insert (entryTrue_parsed ht)
      | none => exact (h.weaken _).insert (entryTrue_any ht)
  | update prior new mapKey val =>
      obtain ⟨hval, hprior⟩ := ht
      refine Faithful.insert ?_ (entryTrue_any hval)
      cases prior with
      | none => exact h.weaken _
      | some prior =>
          refine h.carryOver fun k key node hk => ?_
          exact hprior prior rfl k key node fun heq => hk (List.mem_singleton.2 heq)
  | migrate prior new changedKeys =>
      refine ⟨_, rfl, ?_⟩
      exact (h.carryOver ht).access _ (fun _ _ _ _ hne => Save.of_ne hne) fun _ => groupTrue_removed
  | clear =>
      exact ⟨_, rfl, ⟨rfl, h.cap_pos, [], Lru.represents_new _, by simp⟩⟩

omit [DecidableEq κ] in
theorem forRoot_cap {c' : CryptreeCache κ ν} {root : Cid} {f : ForRoot κ ν → ForRoot κ ν}
    (h : c.forRoot root f = .ok c') : c'.cap = c.cap := by
  unfold forRoot at h
  dsimp only at h
  split at h
  · cases h
    rfl
  · cases h

omit [DecidableEq κ] in
theorem carryOver_cap (c : CryptreeCache κ ν) (prior new : Cid) :
    (c.carryOver prior new).cap = c.cap := by
  unfold carryOver
  split
  · rfl
  · split <;> rfl

/-- No call changes how much the cache may keep. -/
theorem apply_cap {c' : CryptreeCache κ ν} {op : CacheOp κ ν} (h : c.apply op = .ok c') :
    c'.cap = c.cap := by
  cases op with
  | get root mapKey key =>
      cases h
      rfl
  | putLookup root mapKey key node =>
      cases node with
      | some node => exact forRoot_cap h
      | none => exact forRoot_cap h
  | update prior new mapKey val =>
      cases prior with
      | some prior => exact (forRoot_cap h).trans (carryOver_cap c prior new)
      | none => exact forRoot_cap h
  | migrate prior new changedKeys =>
      cases h
      exact carryOver_cap c prior new
  | clear =>
      cases h
      rfl

/-- After any run of calls whose callers tell the truth the cache has not panicked, it keeps no more
than it may, and a hit is what the champ under the root holds for the map key and the reader. -/
theorem run_hits_held (cap : ℕ) (ops : List (CacheOp κ ν)) (ht : ∀ op ∈ ops, op.Truthful Held) :
    ∃ c : CryptreeCache κ ν, ops.foldlM apply (withCapacity cap) = .ok c ∧
      c.byRoot.map.length ≤ maxRoots ∧ (∀ g ∈ c.byRoot.map, g.2.2.map.length ≤ max cap 1) ∧
      ∀ root mapKey key node, (c.get root mapKey key).1 = some node →
        Held root mapKey key node := by
  suffices hrun : ∀ c : CryptreeCache κ ν, c.Faithful Held →
      ∃ c', ops.foldlM apply c = .ok c' ∧ c'.Faithful Held ∧ c'.cap = c.cap by
    obtain ⟨c, hc, hfaithful, hcap⟩ := hrun _ (faithful_withCapacity cap)
    obtain ⟨l, hl, htrue⟩ := hfaithful.groups
    refine ⟨c, hc, ?_, fun g hg => ?_, fun _ _ _ _ hhit => hfaithful.get_fst hhit⟩
    · rw [hl.length_eq, ← hfaithful.roots]
      exact hl.length_le
    · obtain ⟨hgcap, lg, hlg, -⟩ := htrue (g.1, g.2.2) (hl.mem_iff.2 ⟨g.2.1, hg⟩)
      rw [hlg.length_eq]
      exact hlg.length_le.trans_eq (hgcap.trans hcap)
  induction ops with
  | nil => exact fun c hc => ⟨c, rfl, hc, rfl⟩
  | cons op ops ih =>
      intro c hc
      obtain ⟨c', hop, hc'⟩ := hc.apply (ht op List.mem_cons_self)
      obtain ⟨c'', hops, hc'', hcap⟩ :=
        ih (fun op hop => ht op (List.mem_cons_of_mem _ hop)) c' hc'
      exact ⟨c'', by rw [List.foldlM_cons, hop]; exact hops, hc'', hcap.trans (apply_cap hop)⟩

end Runs

/-- Two nodes: one can be parsed with the key 5, and one came with a commit. -/
def SampleHeld (root : Cid) (mapKey : Bytes) (key : ℕ) (node : Option ℕ) : Prop :=
  (mapKey = [1] ∧ key = 5 ∧ node = some 10) ∨
    (root = byteCid 2 ∧ mapKey = [2] ∧ node = some 20)

/-- The first is looked up, then the commit comes. -/
def sampleOps : List (CacheOp ℕ ℕ) :=
  [.putLookup (byteCid 1) [1] 5 (some 10), .update (some (byteCid 1)) (byteCid 2) [2] (some 20)]

/-- The commit takes the first node along, but no other reader is told of it. -/
theorem run_hits_held_sample : ∃ c, sampleOps.foldlM apply (withCapacity 3) = .ok c ∧
    (c.get (byteCid 2) [1] 5).1 = some (some 10) ∧ (c.get (byteCid 2) [1] 6).1 = none := by
  have htruthful : ∀ op ∈ sampleOps, op.Truthful SampleHeld := by
    simp only [sampleOps, List.forall_mem_cons, CacheOp.Truthful]
    refine ⟨.inl ⟨rfl, rfl, rfl⟩, ⟨fun key => .inr ⟨rfl, rfl, rfl⟩, ?_⟩, by simp⟩
    rintro p - k key node hk (h | ⟨-, rfl, -⟩)
    · exact .inl h
    · exact absurd rfl hk
  obtain ⟨c, hc, -, -, hheld⟩ := run_hits_held 3 sampleOps htruthful
  have hhit : (sampleOps.foldlM apply (withCapacity 3)).toOption.map
      (fun c => (c.get (byteCid 2) [1] 5).1) = some (some (some 10)) := by decide +kernel
  rw [hc] at hhit
  refine ⟨c, hc, Option.some.inj hhit, Option.eq_none_iff_forall_ne_some.2 fun node hnode => ?_⟩
  simpa [SampleHeld] using hheld _ _ _ _ hnode

end CryptreeCache

end Peergos
