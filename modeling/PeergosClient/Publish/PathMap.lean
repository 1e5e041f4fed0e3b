import PeergosClient.Publish.Inodes

/-!
# Published paths

The public filesystem read as what it is for: a map from paths to what is published there.  The
inodes are a way to store it, and stand for the map as long as no two nodes of the tree have the
same one (`Valid.inj`).

A leaf takes the number `inode_count` without reserving it.  If a second leaf of its name is made
in another directory before the next directory is, the two share an inode, and with it a directory
once one of them gets children: what is then published below the one is found below the other
(`sharedInode_exposes`).  As long as every node that is made gets an inode of its own, the
filesystem is the map (`publish_refines_paths`).
-/

namespace Peergos

/-- What an entry publishes. -/
def InodeCap.publication (e : InodeCap) : Option (AbsoluteCapability × Option PublishedLink) :=
  e.cap.map (·, e.link)

namespace InodeFileSystem

/-! ## Nodes by their paths -/

/-- The child of a directory. -/
def child (fs : InodeFileSystem) (k : Inode) (name : String) : Option InodeCap :=
  (fs.champ k).bind fun d => d.getChild name

/-- The inode reached from `k` along a path. -/
def inodeFrom (fs : InodeFileSystem) (k : Inode) (path : List String) : Option Inode :=
  path.foldlM (fun k name => (fs.child k name).map InodeCap.inode) k

/-- The inode at a path. -/
def inodeAt (fs : InodeFileSystem) (path : List String) : Option Inode := fs.inodeFrom .root path

/-- The entry `name` of the directory at a path. -/
def entryAt (fs : InodeFileSystem) (path : List String) (name : String) : Option InodeCap :=
  (fs.inodeAt path).bind fun k => fs.child k name

/-- What is published at the path `path ++ [name]`. -/
def capAt (fs : InodeFileSystem) (path : List String) (name : String) :
    Option (AbsoluteCapability × Option PublishedLink) :=
  (fs.entryAt path name).bind InodeCap.publication

variable {fs fs' : InodeFileSystem} {k : Inode} {q : List String} {n : String}

theorem champ_putValue (fs : InodeFileSystem) (k : Inode) (d : DirectoryInode) (j : Inode) :
    (fs.putValue k d).champ j = if j = k then some d else fs.champ j :=
  Function.update_apply fs.champ k (some d) j

@[simp] theorem inodeAt_nil (fs : InodeFileSystem) : fs.inodeAt [] = some .root := rfl

theorem inodeFrom_append (fs : InodeFileSystem) (k : Inode) (p q : List String) :
    fs.inodeFrom k (p ++ q) = (fs.inodeFrom k p).bind fun k => fs.inodeFrom k q := by
  unfold inodeFrom
  rw [List.foldlM_append]
  rfl

theorem inodeFrom_singleton (fs : InodeFileSystem) (k : Inode) (n : String) :
    fs.inodeFrom k [n] = (fs.child k n).map InodeCap.inode := by
  unfold inodeFrom
  rw [List.foldlM_cons]
  cases fs.child k n <;> rfl

theorem inodeFrom_cons (fs : InodeFileSystem) (k : Inode) (n : String) (q : List String) :
    fs.inodeFrom k (n :: q) = (fs.child k n).bind fun e => fs.inodeFrom e.inode q := by
  rw [← List.singleton_append, inodeFrom_append, inodeFrom_singleton, Option.bind_map]
  rfl

theorem inodeAt_concat (fs : InodeFileSystem) (q : List String) (n : String) :
    fs.inodeAt (q ++ [n]) = (fs.entryAt q n).map InodeCap.inode := by
  unfold inodeAt entryAt
  rw [inodeFrom_append]
  unfold inodeAt
  cases fs.inodeFrom .root q with
  | none => rfl
  | some k => exact inodeFrom_singleton fs k n

theorem entryAt_of_inodeAt (h : fs.inodeAt q = some k) (n : String) :
    fs.entryAt q n = fs.child k n := by
  rw [entryAt, h]
  rfl

theorem child_of_champ {d : DirectoryInode} (h : fs.champ k = some d) (n : String) :
    fs.child k n = d.getChild n := by
  rw [child, h]
  rfl

/-- Nothing is below an entry that is not there. -/
theorem entryAt_below_none (h : fs.entryAt q n = none) (s : List String) (m : String) :
    fs.entryAt (q ++ n :: s) m = none := by
  have hsplit : q ++ n :: s = q ++ [n] ++ s := by simp
  rw [hsplit, entryAt, inodeAt, inodeFrom_append, ← inodeAt, inodeAt_concat, h]
  rfl

/-- Nor is a path that goes through it. -/
theorem entryAt_of_through (h : fs.entryAt q n = none) {r rest : List String} {m : String}
    (hr : r ++ [m] = q ++ n :: rest) : fs.entryAt r m = none := by
  rcases List.eq_nil_or_concat rest with rfl | ⟨s, m', rfl⟩
  · obtain ⟨hrq, hm⟩ := List.append_inj' hr rfl
    rw [hrq, List.singleton_injective hm]
    exact h
  · have hsplit : q ++ n :: s.concat m' = q ++ n :: s ++ [m'] := by simp
    obtain ⟨hrq, -⟩ := List.append_inj' (hr.trans hsplit) rfl
    rw [hrq]
    exact entryAt_below_none h s m

/-- The entries are those of the directories alone. -/
theorem inodeAt_congr (h : ∀ k n, fs'.child k n = fs.child k n) (p : List String) :
    fs'.inodeAt p = fs.inodeAt p := by
  unfold inodeAt inodeFrom
  simp only [h]

/-- The filesystem stands for a tree: no two of its nodes have the same inode. -/
structure Valid (fs : InodeFileSystem) : Prop where
  inj : ∀ p q k, fs.inodeAt p = some k → fs.inodeAt q = some k → p = q
  bound : ∀ q n e, fs.entryAt q n = some e → 0 < e.inode.inode ∧ e.inode.inode ≤ fs.inodeCount
  dirs : ∀ k d, fs.champ k = some d → k.inode < fs.inodeCount ∧ d.Distinct

/-- A change of one entry: of the directory at `q`, the child `n`. -/
structure EntryChange (fs : InodeFileSystem) (q : List String) (n : String) (x : Option InodeCap)
    (k : Inode) (d d' : DirectoryInode) : Prop where
  inode : fs.inodeAt q = some k
  dir : fs.champ k = some d
  distinct : d'.Distinct
  children : ∀ m, d'.getChild m = if m = n then x else d.getChild m
  /-- The new child's inode is not that of another node. -/
  own : ∀ e, x = some e → ∀ p, fs.inodeAt p = some e.inode → p = q ++ [n]
  bound : ∀ e, x = some e → 0 < e.inode.inode ∧ e.inode.inode ≤ fs.inodeCount
  /-- What is below the child stays. -/
  below : ∀ m, (x.map InodeCap.inode).bind (fun j => fs.child j m) = fs.entryAt (q ++ [n]) m

theorem ne_concat (q : List String) (n : String) : q ≠ q ++ [n] := by
  intro h
  have := congrArg List.length h
  simp at this

section Change

variable {x : Option InodeCap} {d d' : DirectoryInode}

/-- One level of the walk after the change of an entry. -/
private theorem entryAt_putValue_step (hv : fs.Valid) (h : EntryChange fs q n x k d d')
    {r : List String}
    (hr : (fs.putValue k d').inodeAt r = if r = q ++ [n] then x.map InodeCap.inode else fs.inodeAt r)
    (m : String) :
    (fs.putValue k d').entryAt r m = if r = q ∧ m = n then x else fs.entryAt r m := by
  have hother : ∀ j m, j ≠ k → (fs.putValue k d').child j m = fs.child j m := fun j m hj => by
    rw [child, child, champ_putValue, if_neg hj]
  have hself : ∀ m, (fs.putValue k d').child k m = d'.getChild m := fun m =>
    child_of_champ (by rw [champ_putValue, if_pos rfl]) m
  rw [entryAt, hr]
  by_cases hbelow : r = q ++ [n]
  · subst hbelow
    rw [if_pos rfl, if_neg fun heq => ne_concat q n heq.1.symm, ← h.below m]
    cases x with
    | none => rfl
    | some e =>
        have hek : e.inode ≠ k := fun heq => ne_concat q n (h.own e rfl q (heq ▸ h.inode))
        rw [Option.map_some, Option.bind_some, Option.bind_some, hother _ _ hek]
  · rw [if_neg hbelow, entryAt]
    cases hj : fs.inodeAt r with
    | none =>
        have hrq : ¬(r = q ∧ m = n) := fun heq => by
          rw [heq.1, h.inode] at hj
          cases hj
        rw [if_neg hrq]
        rfl
    | some j =>
        rw [Option.bind_some, Option.bind_some]
        by_cases hjk : j = k
        · subst hjk
          obtain rfl := hv.inj r q j hj h.inode
          rw [hself, h.children, child_of_champ h.dir]
          by_cases hm : m = n
          · rw [if_pos hm, if_pos ⟨rfl, hm⟩]
          · rw [if_neg hm, if_neg fun heq => hm heq.2]
        · have hrq : ¬(r = q ∧ m = n) := fun heq => by
            rw [heq.1] at hj
            exact hjk (Option.some.inj (hj.symm.trans h.inode))
          rw [if_neg hrq, hother j m hjk]

/-- The inodes after the change of an entry. -/
theorem inodeAt_putValue (hv : fs.Valid) (h : EntryChange fs q n x k d d') (p : List String) :
    (fs.putValue k d').inodeAt p = if p = q ++ [n] then x.map InodeCap.inode else fs.inodeAt p := by
  induction p using List.reverseRecOn with
  | nil => simp
  | append_singleton r m ih =>
      rw [inodeAt_concat, inodeAt_concat, entryAt_putValue_step hv h ih m]
      by_cases hrm : r = q ∧ m = n
      · rw [if_pos hrm, if_pos (by rw [hrm.1, hrm.2])]
      · rw [if_neg hrm, if_neg fun heq => hrm ?_]
        obtain ⟨hr, hm⟩ := List.append_inj' heq rfl
        exact ⟨hr, List.singleton_injective hm⟩

/-- The entries after the change of one. -/
theorem entryAt_putValue (hv : fs.Valid) (h : EntryChange fs q n x k d d') (r : List String)
    (m : String) :
    (fs.putValue k d').entryAt r m = if r = q ∧ m = n then x else fs.entryAt r m :=
  entryAt_putValue_step hv h (inodeAt_putValue hv h r) m

theorem inodeCount_putValue (hk : fs.champ k = some d) (d' : DirectoryInode) :
    (fs.putValue k d').inodeCount = fs.inodeCount := by
  rw [putValue, hk]
  rfl

/-- The change of an entry keeps the filesystem a tree. -/
theorem Valid.putValue (hv : fs.Valid) (h : EntryChange fs q n x k d d') :
    (fs.putValue k d').Valid := by
  have hcount := inodeCount_putValue h.dir d'
  have hown : ∀ p j, (fs.putValue k d').inodeAt p = some j →
      (p = q ++ [n] ∧ ∃ e, x = some e ∧ e.inode = j) ∨ (p ≠ q ++ [n] ∧ fs.inodeAt p = some j) := by
    intro p j hp
    rw [inodeAt_putValue hv h] at hp
    split at hp
    · next heq => exact Or.inl ⟨heq, Option.map_eq_some_iff.1 hp⟩
    · next hne => exact Or.inr ⟨hne, hp⟩
  refine ⟨fun p p' j hp hp' => ?_, fun r m e he => ?_, fun j c hj => ?_⟩
  · rcases hown p j hp with ⟨rfl, e, hx, rfl⟩ | ⟨hne, hj⟩
    · rcases hown p' _ hp' with ⟨rfl, -⟩ | ⟨hne', hj'⟩
      · rfl
      · exact absurd (h.own e hx p' hj') hne'
    · rcases hown p' j hp' with ⟨rfl, e, hx, rfl⟩ | ⟨-, hj'⟩
      · exact absurd (h.own e hx p hj) hne
      · exact hv.inj p p' j hj hj'
  · rw [entryAt_putValue hv h] at he
    rw [hcount]
    split at he
    · exact h.bound e he
    · exact hv.bound r m e he
  · rw [hcount]
    rw [champ_putValue] at hj
    split at hj
    · next heq =>
        cases hj
        exact ⟨heq ▸ (hv.dirs k d h.dir).1, h.distinct⟩
    · exact hv.dirs j c hj

end Change

/-! ### New directories -/

/-- A new directory has nothing in it, wherever it is. -/
theorem child_ensureDir (fs : InodeFileSystem) (k j : Inode) (m : String) :
    (fs.ensureDir k).child j m = fs.child j m := by
  unfold ensureDir getValue
  split
  · next hk =>
      rw [child, child, champ_putValue]
      split
      · next hj =>
          rw [hj, Option.isNone_iff_eq_none.1 hk]
          rfl
      · rfl
  · rfl

theorem inodeAt_ensureDir (fs : InodeFileSystem) (k : Inode) (p : List String) :
    (fs.ensureDir k).inodeAt p = fs.inodeAt p :=
  inodeAt_congr (child_ensureDir fs k) p

theorem entryAt_ensureDir (fs : InodeFileSystem) (k : Inode) (r : List String) (m : String) :
    (fs.ensureDir k).entryAt r m = fs.entryAt r m := by
  rw [entryAt, entryAt, inodeAt_ensureDir]
  simp only [child_ensureDir]

theorem capAt_ensureDir (fs : InodeFileSystem) (k : Inode) (r : List String) (m : String) :
    (fs.ensureDir k).capAt r m = fs.capAt r m := by
  rw [capAt, entryAt_ensureDir]
  rfl

theorem ensureDir_of_some {d : DirectoryInode} (hk : fs.champ k = some d) : fs.ensureDir k = fs := by
  unfold ensureDir getValue
  rw [hk]
  rfl

theorem champ_ensureDir_self (fs : InodeFileSystem) (k : Inode) :
    ((fs.ensureDir k).champ k).isSome := by
  unfold ensureDir getValue
  split
  · rw [champ_putValue, if_pos rfl]
    rfl
  · next hk => exact Option.isSome_iff_ne_none.2 fun hnone => hk (by rw [hnone]; rfl)

theorem champ_ensureDir_of_ne {j : Inode} (h : j ≠ k) : (fs.ensureDir k).champ j = fs.champ j := by
  unfold ensureDir
  split
  · rw [champ_putValue, if_neg h]
  · rfl

theorem inodeCount_ensureDir (hk : fs.champ k = none) :
    (fs.ensureDir k).inodeCount = fs.inodeCount + 1 := by
  unfold ensureDir getValue putValue
  rw [hk]
  rfl

/-- A new directory keeps the filesystem a tree. -/
theorem Valid.ensureDir (hv : fs.Valid) (hbound : k.inode ≤ fs.inodeCount) :
    (fs.ensureDir k).Valid := by
  cases hk : fs.champ k with
  | some d => rwa [ensureDir_of_some hk]
  | none =>
      have hcount := inodeCount_ensureDir hk
      refine ⟨fun p q j => ?_, fun r m e he => ?_, fun j c hj => ?_⟩
      · rw [inodeAt_ensureDir, inodeAt_ensureDir]
        exact hv.inj p q j
      · rw [entryAt_ensureDir] at he
        have := hv.bound r m e he
        omega
      · by_cases hjk : j = k
        · subst hjk
          have hdefault : (fs.ensureDir j).champ j = some .default := by
            unfold InodeFileSystem.ensureDir getValue
            rw [hk]
            exact Function.update_self j (some .default) fs.champ
          rw [hdefault] at hj
          cases hj
          exact ⟨by omega, DirectoryInode.distinct_default⟩
        · rw [champ_ensureDir_of_ne hjk] at hj
          exact ⟨by have := (hv.dirs j c hj).1; omega, (hv.dirs j c hj).2⟩

/-! ## Publishing -/

/-- The inode `j` can be the child `n` of the directory `d`: it is, or it is not in use. -/
def Usable (fs : InodeFileSystem) (d : DirectoryInode) (n : String) (j : Inode) : Prop :=
  (∃ e, d.getChild n = some e ∧ e.inode = j) ∨
    (d.getChild n = none ∧ j.name = n ∧ (∀ p, fs.inodeAt p ≠ some j) ∧
      (∀ m, fs.child j m = none) ∧ 0 < j.inode ∧ j.inode ≤ fs.inodeCount)

/-- Linking a child is the change of one entry. -/
theorem Valid.link (hv : fs.Valid) (hk : fs.inodeAt q = some k) {d : DirectoryInode}
    (hd : fs.champ k = some d) {j : Inode} (hj : fs.Usable d n j) (cap : Option AbsoluteCapability)
    (link : Option PublishedLink) :
    ∃ d', d.addChild ⟨j, cap, link⟩ = .ok d' ∧ EntryChange fs q n (some ⟨j, cap, link⟩) k d d' := by
  obtain ⟨d', hadd, hdistinct, hchildren⟩ :=
    DirectoryInode.addChild_ok (hv.dirs k d hd).2 ⟨j, cap, link⟩
  have hentry : fs.entryAt q n = d.getChild n := by
    rw [entryAt_of_inodeAt hk, child_of_champ hd]
  refine ⟨d', hadd, ?_⟩
  rcases hj with ⟨e, he, rfl⟩ | ⟨hnone, hname, hown, hempty, hbound⟩
  · have hname : e.inode.name = n := DirectoryInode.name_of_getChild he
    have hat : fs.inodeAt (q ++ [n]) = some e.inode := by rw [inodeAt_concat, hentry, he]; rfl
    refine ⟨hk, hd, hdistinct, fun m => ?_, fun e' he' p hp => ?_, fun e' he' => ?_, fun m => ?_⟩
    · rw [hchildren, hname]
    · cases he'
      exact hv.inj p _ _ hp hat
    · cases he'
      exact hv.bound q n e (hentry.trans he)
    · rw [entryAt, hat]
      rfl
  · refine ⟨hk, hd, hdistinct, fun m => ?_, fun e' he' p hp => ?_, fun e' he' => ?_, fun m => ?_⟩
    · rw [hchildren, hname]
    · cases he'
      exact absurd hp (hown p)
    · cases he'
      exact hbound
    · rw [entryAt, inodeAt_concat, hentry, hnone]
      exact hempty m

/-- What is published after the change of an entry. -/
theorem capAt_putValue (hv : fs.Valid) {x : Option InodeCap} {d d' : DirectoryInode}
    (h : EntryChange fs q n x k d d') (r : List String) (m : String) :
    (fs.putValue k d').capAt r m =
      if r = q ∧ m = n then x.bind InodeCap.publication else fs.capAt r m := by
  rw [capAt, entryAt_putValue hv h]
  split <;> rfl

/-- The first node that `add_cap` makes for the path `q ++ rest`, if it makes one, gets an inode
that no other node has. -/
def FreshBelow (fs : InodeFileSystem) (q rest : List String) : Prop :=
  ∀ r n s, rest = r ++ n :: s → ∀ k, fs.inodeAt (q ++ r) = some k → (fs.champ k).isSome →
    fs.child k n = none → ∀ p, fs.inodeAt p ≠ some ⟨fs.inodeCount, n⟩

/-- Numbers that have been reserved are not given again. -/
theorem freshBelow_of_lt (h : ∀ p j, fs.inodeAt p = some j → j.inode < fs.inodeCount)
    (q rest : List String) : fs.FreshBelow q rest := by
  intro r n s _ k _ _ _ p hp
  exact lt_irrefl _ (h p _ hp)

/-- No directory links the inode. -/
def Unlinked (fs : InodeFileSystem) (j : Inode) : Prop :=
  ∀ k d, fs.champ k = some d → ∀ e ∈ d.children, e.inode ≠ j

theorem unlinked_createEmpty (j : Inode) : createEmpty.Unlinked j := by
  rintro k d ⟨⟩

theorem Unlinked.putValue {j : Inode} (h : fs.Unlinked j) {d : DirectoryInode}
    (hd : ∀ e ∈ d.children, e.inode ≠ j) : (fs.putValue k d).Unlinked j := by
  intro k' d' hd'
  rw [champ_putValue] at hd'
  split at hd'
  · cases hd'
    exact hd
  · exact h k' d' hd'

/-- An inode that is not linked is that of no node. -/
theorem Unlinked.inodeAt_ne {j : Inode} (h : fs.Unlinked j) (hj : j ≠ .root) (p : List String) :
    fs.inodeAt p ≠ some j := by
  rcases List.eq_nil_or_concat p with rfl | ⟨q, n, rfl⟩
  · simpa using hj.symm
  · rw [List.concat_eq_append, inodeAt_concat]
    intro hp
    obtain ⟨e, he, rfl⟩ := Option.map_eq_some_iff.1 hp
    obtain ⟨k, -, hchild⟩ := Option.bind_eq_some_iff.1 he
    obtain ⟨d, hd, hget⟩ := Option.bind_eq_some_iff.1 hchild
    rw [d.getChild_eq] at hget
    exact h k d hd e (List.mem_of_find?_eq_some hget) rfl

/-- On the way to the first missing element. -/
theorem FreshBelow.cons {rest : List String} (hq : fs.inodeAt q = some k)
    (hchild : fs.child k n ≠ none) (h : fs.FreshBelow (q ++ [n]) rest) :
    fs.FreshBelow q (n :: rest) := by
  intro r m s hrest k' hk' hdir hnone
  cases r with
  | nil =>
      cases hrest
      rw [List.append_nil, hq] at hk'
      cases hk'
      exact absurd hnone hchild
  | cons n' r =>
      cases hrest
      exact h r m s rfl k' (by simpa using hk') hdir hnone

/-- The first missing element. -/
theorem freshBelow_of_unlinked {rest : List String} (hq : fs.inodeAt q = some k)
    (hchild : fs.child k n = none) (hn : n ≠ "") (h : fs.Unlinked ⟨fs.inodeCount, n⟩) :
    fs.FreshBelow q (n :: rest) := by
  intro r m s hrest k' hk' _ _
  cases r with
  | nil =>
      cases hrest
      exact h.inodeAt_ne fun heq => hn (congrArg Inode.name heq)
  | cons n' r =>
      cases hrest
      rw [inodeAt, inodeFrom_append, show fs.inodeFrom .root q = some k from hq, Option.bind_some,
        inodeFrom_cons, hchild] at hk'
      cases hk'

theorem Valid.inode_le (hv : fs.Valid) {p : List String} {j : Inode} (h : fs.inodeAt p = some j) :
    j.inode ≤ fs.inodeCount := by
  induction p using List.reverseRecOn with
  | nil =>
      cases h
      exact Nat.zero_le _
  | append_singleton r m _ =>
      rw [inodeAt_concat] at h
      obtain ⟨e, he, rfl⟩ := Option.map_eq_some_iff.1 h
      exact (hv.bound r m e he).2

theorem concat_eq_iff {r q : List String} {m n : String} :
    r ++ [m] = q ++ [n] ↔ r = q ∧ m = n := by
  constructor
  · intro h
    obtain ⟨hr, hm⟩ := List.append_inj' h rfl
    exact ⟨hr, List.singleton_injective hm⟩
  · rintro ⟨rfl, rfl⟩
    rfl

section Loop

variable {cap : AbsoluteCapability} {link : Option PublishedLink} {d : DirectoryInode}
  {n' : String} {rest : List String}

theorem addCapLoop_leaf (hd : fs.champ k = some d) :
    addCapLoop cap link [n] fs k =
      d.addChild ⟨((d.getChild n).map InodeCap.inode).getD ⟨fs.inodeCount, n⟩, some cap, link⟩ >>=
        fun dir => pure (fs.putValue k dir) := by
  unfold addCapLoop getValue
  rw [hd]
  rfl

theorem addCapLoop_of_some (hd : fs.champ k = some d) {e : InodeCap} (he : d.getChild n = some e) :
    addCapLoop cap link (n :: n' :: rest) fs k =
      addCapLoop cap link (n' :: rest) (fs.ensureDir e.inode) e.inode := by
  conv_lhs => unfold addCapLoop getValue
  rw [hd]
  dsimp only
  rw [he]
  rfl

theorem addCapLoop_of_none (hd : fs.champ k = some d) (he : d.getChild n = none) :
    addCapLoop cap link (n :: n' :: rest) fs k =
      d.addChild ⟨⟨fs.inodeCount, n⟩, none, none⟩ >>= fun dir =>
        addCapLoop cap link (n' :: rest) ((fs.ensureDir ⟨fs.inodeCount, n⟩).putValue k dir)
          ⟨fs.inodeCount, n⟩ := by
  conv_lhs => unfold addCapLoop getValue
  rw [hd]
  dsimp only
  rw [he]
  rfl

end Loop

/-- `add_cap`, from a directory on. -/
theorem addCapLoop_ok (cap : AbsoluteCapability) (link : Option PublishedLink)
    {rest : List String} (hrest : rest ≠ []) (hv : fs.Valid) (hk : fs.inodeAt q = some k)
    (hdir : (fs.champ k).isSome) (hfresh : fs.FreshBelow q rest) :
    ∃ fs', addCapLoop cap link rest fs k = .ok fs' ∧ fs'.Valid ∧
      ∀ r m, fs'.capAt r m = if r ++ [m] = q ++ rest then some (cap, link) else fs.capAt r m := by
  induction rest generalizing fs k q with
  | nil => exact absurd rfl hrest
  | cons n rest ih =>
      obtain ⟨d, hd⟩ := Option.isSome_iff_exists.1 hdir
      have hpos : 0 < fs.inodeCount := by have := (hv.dirs k d hd).1; omega
      have hnew : fs.champ ⟨fs.inodeCount, n⟩ = none := by
        by_contra hne
        obtain ⟨c, hc⟩ := Option.ne_none_iff_exists'.1 hne
        exact lt_irrefl _ (hv.dirs _ c hc).1
      have hnewChild : ∀ m, fs.child ⟨fs.inodeCount, n⟩ m = none := fun m => by
        rw [child, hnew]
        rfl
      have hentry : fs.entryAt q n = d.getChild n := by
        rw [entryAt_of_inodeAt hk, child_of_champ hd]
      have hown : d.getChild n = none → ∀ p, fs.inodeAt p ≠ some ⟨fs.inodeCount, n⟩ := fun hnone =>
        hfresh [] n rest rfl k (by rw [List.append_nil]; exact hk) hdir
          (by rw [child_of_champ hd]; exact hnone)
      cases rest with
      | nil =>
          -- the leaf takes the capability
          have husable : fs.Usable d n
              (((d.getChild n).map InodeCap.inode).getD ⟨fs.inodeCount, n⟩) := by
            cases he : d.getChild n with
            | some e => exact Or.inl ⟨e, he, rfl⟩
            | none => exact Or.inr ⟨he, rfl, hown he, hnewChild, hpos, le_rfl⟩
          obtain ⟨d', hadd, hchange⟩ := hv.link hk hd husable (some cap) link
          rw [addCapLoop_leaf hd, hadd]
          refine ⟨_, rfl, hv.putValue hchange, fun r m => ?_⟩
          rw [capAt_putValue hv hchange]
          simp only [concat_eq_iff]
          rfl
      | cons n' rest =>
          have hpath : q ++ [n] ++ n' :: rest = q ++ n :: n' :: rest := by simp
          cases he : d.getChild n with
          | some e =>
              rw [he] at hentry
              have hat : fs.inodeAt (q ++ [n]) = some e.inode := by rw [inodeAt_concat, hentry]; rfl
              have hfresh' : (fs.ensureDir e.inode).FreshBelow (q ++ [n]) (n' :: rest) := by
                cases hce : fs.champ e.inode with
                | none =>
                    -- a leaf so far: the directory it becomes takes a number
                    refine freshBelow_of_lt (fun p j hp => ?_) _ _
                    rw [inodeAt_ensureDir] at hp
                    rw [inodeCount_ensureDir hce]
                    exact Nat.lt_succ_of_le (hv.inode_le hp)
                | some c =>
                    rw [ensureDir_of_some hce]
                    intro r m s hrest k' hk'
                    refine hfresh (n :: r) m s (by rw [hrest]; rfl) k' ?_
                    rw [← hk', List.append_assoc]
                    rfl
              obtain ⟨fs', hrun, hv', hcap⟩ := ih (by simp)
                (hv.ensureDir (hv.bound q n e hentry).2) (by rw [inodeAt_ensureDir]; exact hat)
                (champ_ensureDir_self fs e.inode) hfresh'
              rw [addCapLoop_of_some hd he]
              refine ⟨fs', hrun, hv', fun r m => ?_⟩
              rw [hcap, capAt_ensureDir, hpath]
          | none =>
              -- a new directory, and the link to it
              have hv₁ : (fs.ensureDir ⟨fs.inodeCount, n⟩).Valid := hv.ensureDir le_rfl
              have hkj : k ≠ ⟨fs.inodeCount, n⟩ := fun heq => by
                rw [heq, hnew] at hd
                cases hd
              have hk₁ := (inodeAt_ensureDir fs ⟨fs.inodeCount, n⟩ q).trans hk
              have hd₁ := (champ_ensureDir_of_ne hkj).trans hd
              have husable : (fs.ensureDir ⟨fs.inodeCount, n⟩).Usable d n ⟨fs.inodeCount, n⟩ := by
                refine Or.inr ⟨he, rfl, fun p => ?_, fun m => ?_, hpos, ?_⟩
                · rw [inodeAt_ensureDir]
                  exact hown he p
                · rw [child_ensureDir]
                  exact hnewChild m
                · rw [inodeCount_ensureDir hnew]
                  exact Nat.le_succ _
              obtain ⟨d', hadd, hchange⟩ := hv₁.link hk₁ hd₁ husable none none
              have hfresh' : ((fs.ensureDir ⟨fs.inodeCount, n⟩).putValue k d').FreshBelow (q ++ [n])
                  (n' :: rest) := by
                refine freshBelow_of_lt (fun p j hp => ?_) _ _
                rw [inodeCount_putValue hd₁, inodeCount_ensureDir hnew]
                rw [inodeAt_putValue hv₁ hchange] at hp
                split at hp
                · cases hp
                  exact Nat.lt_succ_self _
                · rw [inodeAt_ensureDir] at hp
                  exact Nat.lt_succ_of_le (hv.inode_le hp)
              obtain ⟨fs', hrun, hv', hcap⟩ := ih (by simp) (hv₁.putValue hchange)
                (by rw [inodeAt_putValue hv₁ hchange, if_pos rfl]; rfl)
                (by rw [champ_putValue, if_neg hkj.symm]; exact champ_ensureDir_self _ _) hfresh'
              rw [addCapLoop_of_none hd he, hadd]
              refine ⟨fs', hrun, hv', fun r m => ?_⟩
              rw [hcap, capAt_putValue hv₁ hchange, capAt_ensureDir, hpath]
              refine if_congr Iff.rfl rfl ?_
              split
              · next heq =>
                  rw [heq.1, heq.2, capAt, hentry, he]
                  rfl
              · rfl

/-! ## Unpublishing -/

/-- The directories down to a path, the last first, as `remove_cap` walks them. -/
inductive Chain (fs : InodeFileSystem) : List String → List ChainLink → Prop
  | root : Chain fs [] []
  | snoc {q : List String} {links : List ChainLink} {link : ChainLink} {n : String} :
      Chain fs q links → fs.inodeAt q = some link.key → fs.champ link.key = some link.dir →
      link.dir.getChild n = some link.child → link.hadOther = decide (1 < link.dir.childCount) →
      Chain fs (q ++ [n]) (link :: links)

/-- The walk of `remove_cap` finds the directories, or something on the way is not there. -/
theorem walkChain_cases {rest : List String} (hrest : rest ≠ []) {d : DirectoryInode}
    {above : List ChainLink} (hchain : fs.Chain q above) (hk : fs.inodeAt q = some k)
    (hd : fs.champ k = some d) :
    (fs.walkChain rest k d = none ∧ ∀ r m, r ++ [m] = q ++ rest → fs.entryAt r m = none) ∨
      ∃ chain, fs.walkChain rest k d = some chain ∧
        fs.Chain (q ++ rest) (chain.reverse ++ above) := by
  induction rest generalizing q k d above with
  | nil => exact absurd rfl hrest
  | cons n rest ih =>
      have hentry : fs.entryAt q n = d.getChild n := by
        rw [entryAt_of_inodeAt hk, child_of_champ hd]
      have hpath : q ++ n :: rest = q ++ [n] ++ rest := by simp
      unfold walkChain
      cases he : d.getChild n with
      | none =>
          rw [he] at hentry
          exact Or.inl ⟨rfl, fun r m hrm => entryAt_of_through hentry hrm⟩
      | some e =>
          have hat : fs.inodeAt (q ++ [n]) = some e.inode := by
            rw [inodeAt_concat, hentry, he]
            rfl
          have hlink : fs.Chain (q ++ [n]) (⟨k, d, e, 1 < d.childCount⟩ :: above) :=
            hchain.snoc hk hd he rfl
          dsimp only
          cases rest with
          | nil => exact Or.inr ⟨_, rfl, hlink⟩
          | cons n' rest =>
              rw [if_neg (by simp), getValue]
              cases hce : fs.champ e.inode with
              | none =>
                  refine Or.inl ⟨rfl, fun r m hrm => ?_⟩
                  refine entryAt_of_through (q := q ++ [n]) (n := n') ?_ (hrm.trans hpath)
                  rw [entryAt_of_inodeAt hat, child, hce]
                  rfl
              | some c =>
                  dsimp only
                  rcases ih (by simp) hlink hat hce with ⟨hnone, hmissing⟩ | ⟨chain, hchain', hfull⟩
                  · rw [hnone]
                    exact Or.inl ⟨rfl, fun r m hrm => hmissing r m (hrm.trans hpath)⟩
                  · rw [hchain', hpath]
                    refine Or.inr ⟨_, rfl, ?_⟩
                    rw [List.reverse_cons, List.append_assoc (chain.reverse)]
                    exact hfull

/-- A chain is left alone by a change further down. -/
theorem Chain.putValue (hv : fs.Valid) {x : Option InodeCap} {d d' : DirectoryInode}
    (h : EntryChange fs q n x k d d') {p : List String} {links : List ChainLink}
    (hchain : fs.Chain p links) (hp : p.length ≤ q.length) : (fs.putValue k d').Chain p links := by
  induction hchain with
  | root => exact .root
  | @snoc r links link m _ hkey hdir hchild hother ih =>
      have hlen : r.length < q.length := by
        rw [List.length_append, List.length_singleton] at hp
        omega
      have hne : r ≠ q ++ [n] := fun heq => by
        rw [heq, List.length_append] at hlen
        omega
      have hkey' : link.key ≠ k := fun heq => by
        have := hv.inj r q k (heq ▸ hkey) h.inode
        rw [this] at hlen
        exact lt_irrefl _ hlen
      refine .snoc (ih hlen.le) ?_ ?_ hchild hother
      · rw [inodeAt_putValue hv h, if_neg hne]
        exact hkey
      · rw [champ_putValue, if_neg hkey']
        exact hdir

/-- Removing a child with nothing below it is the change of one entry. -/
theorem Valid.unlink (hv : fs.Valid) (hk : fs.inodeAt q = some k) {d : DirectoryInode}
    (hd : fs.champ k = some d) (hbelow : ∀ m, fs.entryAt (q ++ [n]) m = none) :
    EntryChange fs q n none k d (d.removeChild n) :=
  ⟨hk, hd, DirectoryInode.distinct_removeChild (hv.dirs k d hd).2 n,
    fun m => DirectoryInode.getChild_removeChild d n m, fun _ he => (nomatch he),
    fun _ he => (nomatch he), fun m => (hbelow m).symm⟩

/-- A directory whose only child was removed has nothing below it. -/
theorem entryAt_unlinked_single (hv : fs.Valid) {d : DirectoryInode} {e : InodeCap}
    (h : EntryChange fs q n none k d (d.removeChild n)) (hchild : d.getChild n = some e)
    (hsingle : (!decide (1 < d.childCount)) = true) (m : String) :
    (fs.putValue k (d.removeChild n)).entryAt q m = none := by
  rw [entryAt, inodeAt_putValue hv h, if_neg (ne_concat q n), h.inode, Option.bind_some]
  rw [child_of_champ (by rw [champ_putValue, if_pos rfl])]
  exact DirectoryInode.getChild_removeChild_of_single hchild (by simpa using hsingle) m

/-- Pruning drops nothing that is published. -/
theorem pruneLoop_ok {p : List String} {links : List ChainLink} (hchain : fs.Chain p links)
    (hv : fs.Valid) (prune : Bool) (hempty : prune = true → ∀ m, fs.entryAt p m = none) :
    (fs.pruneLoop prune links).Valid ∧
      ∀ r m, (fs.pruneLoop prune links).capAt r m = fs.capAt r m := by
  induction links generalizing fs p prune with
  | nil => exact ⟨hv, fun _ _ => rfl⟩
  | cons link links ih =>
      cases hchain with
      | @snoc q _ _ n hq hkey hdir hchild hother =>
      unfold pruneLoop
      split
      · exact ⟨hv, fun _ _ => rfl⟩
      · next hgo =>
          simp only [Bool.or_eq_true, Bool.not_eq_true', not_or, Bool.not_eq_false,
            Option.not_isSome_iff_eq_none] at hgo
          obtain ⟨hprune, hcap⟩ := hgo
          have hname : link.child.inode.name = n := DirectoryInode.name_of_getChild hchild
          have hchange := hv.unlink (n := n) hkey hdir (hempty hprune)
          have hentry : fs.entryAt q n = some link.child := by
            rw [entryAt_of_inodeAt hkey, child_of_champ hdir, hchild]
          rw [hname]
          obtain ⟨hv', hcaps⟩ := ih (hq.putValue hv hchange le_rfl) (hv.putValue hchange)
            (!link.hadOther) (hother ▸ entryAt_unlinked_single hv hchange hchild)
          refine ⟨hv', fun r m => ?_⟩
          rw [hcaps, capAt_putValue hv hchange]
          split
          · next heq =>
              rw [heq.1, heq.2, capAt, hentry, Option.bind_some, InodeCap.publication, hcap]
              rfl
          · rfl

/-- `remove_cap`. -/
theorem removeCap_ok (hv : fs.Valid) (path : String) :
    ∃ fs', fs.removeCap path = .ok fs' ∧ fs'.Valid ∧
      ∀ r m, fs'.capAt r m = if r ++ [m] = canonicalElements path then none else fs.capAt r m := by
  have hmissing : (∀ r m, r ++ [m] = canonicalElements path → fs.entryAt r m = none) →
      ∀ r m, fs.capAt r m = if r ++ [m] = canonicalElements path then none else fs.capAt r m := by
    intro h r m
    split
    · next heq =>
        rw [capAt, h r m heq]
        rfl
    · rfl
  unfold removeCap
  dsimp only
  split
  · next hnil =>
      refine ⟨fs, rfl, hv, hmissing fun r m hrm => ?_⟩
      rw [List.isEmpty_iff.1 hnil] at hrm
      simp at hrm
  · next hne =>
      have hne' : canonicalElements path ≠ [] := fun h => hne (List.isEmpty_iff.2 h)
      rw [getValue]
      cases hroot : fs.champ .root with
      | none =>
          refine ⟨fs, rfl, hv, hmissing fun r m hrm => ?_⟩
          obtain ⟨a, rest, hcons⟩ := List.exists_cons_of_ne_nil hne'
          refine entryAt_of_through (q := []) (n := a) ?_ (hrm.trans hcons)
          rw [entryAt_of_inodeAt (inodeAt_nil fs), child, hroot]
          rfl
      | some rootDir =>
          dsimp only
          rcases walkChain_cases hne' .root (inodeAt_nil fs) hroot with
            ⟨hnone, hmiss⟩ | ⟨chain, hwalk, hchain⟩
          · rw [hnone]
            exact ⟨fs, rfl, hv, hmissing fun r m hrm => hmiss r m hrm⟩
          · rw [hwalk]
            rw [List.nil_append, List.append_nil] at hchain
            dsimp only
            generalize chain.reverse = links at hchain ⊢
            generalize canonicalElements path = elements at hchain hne' ⊢
            cases hchain with
            | root => exact absurd rfl hne'
            | @snoc q above leaf n habove hkey hdir hchild hother =>
                have hname : leaf.child.inode.name = n := DirectoryInode.name_of_getChild hchild
                have hat : fs.inodeAt (q ++ [n]) = some leaf.child.inode := by
                  rw [inodeAt_concat, entryAt_of_inodeAt hkey, child_of_champ hdir, hchild]
                  rfl
                dsimp only
                split
                · -- something is published below: only the capability goes
                  obtain ⟨d', hadd, hchange⟩ :=
                    hv.link hkey hdir (Or.inl ⟨_, hchild, rfl⟩) none none
                  rw [hadd]
                  refine ⟨_, rfl, hv.putValue hchange, fun r m => ?_⟩
                  rw [capAt_putValue hv hchange]
                  simp only [concat_eq_iff]
                  rfl
                · next hleaf =>
                    have hbelow : ∀ m, fs.entryAt (q ++ [n]) m = none := fun m => by
                      rw [entryAt_of_inodeAt hat]
                      cases hc : fs.champ leaf.child.inode with
                      | none =>
                          rw [child, hc]
                          rfl
                      | some c =>
                          rw [child_of_champ hc]
                          refine DirectoryInode.getChild_of_childCount_zero ?_ m
                          rw [hasDescendants, getValue, hc] at hleaf
                          simpa using hleaf
                    have hchange := hv.unlink hkey hdir hbelow
                    rw [hname]
                    obtain ⟨hv', hcaps⟩ := pruneLoop_ok (habove.putValue hv hchange le_rfl)
                      (hv.putValue hchange) (!leaf.hadOther)
                      (hother ▸ entryAt_unlinked_single hv hchange hchild)
                    refine ⟨_, rfl, hv', fun r m => ?_⟩
                    rw [hcaps, capAt_putValue hv hchange]
                    simp only [concat_eq_iff]
                    rfl

/-! ## Reading -/

theorem publishedAtLoop_concat (fs : InodeFileSystem) (q : List String) (n : String) (k : Inode)
    (found : Option InodeCap) :
    fs.publishedAtLoop (q ++ [n]) k found =
      (fs.inodeFrom k q).bind fun j => fs.child j n := by
  induction q generalizing k found with
  | nil =>
      show fs.publishedAtLoop [n] k found = fs.child k n
      unfold publishedAtLoop getValue child
      cases fs.champ k with
      | none => rfl
      | some d => cases hc : d.getChild n <;> simp [hc, publishedAtLoop]
  | cons a q ih =>
      rw [inodeFrom_cons, List.cons_append]
      unfold publishedAtLoop getValue child
      cases fs.champ k with
      | none => rfl
      | some d =>
          dsimp only [Option.bind_some]
          cases d.getChild a with
          | none => rfl
          | some e => exact ih e.inode (some e)

theorem publishedAt_eq {path : String} (h : canonicalElements path = q ++ [n]) :
    fs.publishedAt path = fs.entryAt q n := by
  rw [publishedAt, h]
  exact publishedAtLoop_concat fs q n .root none

/-- The walk of `get_published` ends at a published node exactly if there is one on the path. -/
theorem getPublishedLoop_isSome_iff (fs : InodeFileSystem) (p : List String) (k : Inode) :
    (fs.getPublishedLoop p k).isSome ↔ ∃ q n s, p = q ++ n :: s ∧
      (((fs.inodeFrom k q).bind fun j => fs.child j n).bind InodeCap.publication).isSome := by
  induction p generalizing k with
  | nil => simp [getPublishedLoop]
  | cons a p ih =>
      -- the walk is at its first step, or goes on below it
      have hsplit : (∃ q n s, a :: p = q ++ n :: s ∧
          (((fs.inodeFrom k q).bind fun j => fs.child j n).bind InodeCap.publication).isSome) ↔
          ((fs.child k a).bind InodeCap.publication).isSome ∨
            ∃ e, fs.child k a = some e ∧ ∃ q n s, p = q ++ n :: s ∧
              (((fs.inodeFrom e.inode q).bind fun j => fs.child j n).bind
                InodeCap.publication).isSome := by
        constructor
        · rintro ⟨q, n, s, hp, hcap⟩
          cases q with
          | nil =>
              cases hp
              exact Or.inl hcap
          | cons b q =>
              cases hp
              rw [inodeFrom_cons] at hcap
              cases he : fs.child k a with
              | none =>
                  rw [he] at hcap
                  cases hcap
              | some e =>
                  rw [he] at hcap
                  exact Or.inr ⟨e, rfl, q, n, s, rfl, hcap⟩
        · rintro (hcap | ⟨e, he, q, n, s, rfl, hcap⟩)
          · exact ⟨[], a, p, rfl, hcap⟩
          · refine ⟨a :: q, n, s, rfl, ?_⟩
            rw [inodeFrom_cons, he]
            exact hcap
      rw [hsplit]
      have hchild : fs.child k a = (fs.champ k).bind fun d => d.getChild a := rfl
      rw [hchild]
      unfold getPublishedLoop getValue
      cases fs.champ k with
      | none => simp
      | some d =>
          dsimp only [Option.bind_some]
          cases d.getChild a with
          | none => simp
          | some e =>
              dsimp only
              split
              · next hcap =>
                  have hpub : (e.publication).isSome := by
                    rw [InodeCap.publication, Option.isSome_map]
                    exact hcap
                  simp [hpub]
              · next hcap =>
                  have hpub : e.publication = none := by
                    rw [InodeCap.publication, Option.not_isSome_iff_eq_none.1 hcap]
                    rfl
                  rw [ih e.inode]
                  simp [hpub]

end InodeFileSystem

/-! ## Runs -/

/-- A change to the public filesystem. -/
inductive PublishOp where
  | add (path : String) (cap : AbsoluteCapability) (link : Option PublishedLink)
  | remove (path : String)

namespace PublishOp

/-- The path of a change. -/
def path : PublishOp → String
  | .add path _ _ => path
  | .remove path => path

/-- The call. -/
def run (op : PublishOp) (fs : InodeFileSystem) : Result InodeFileSystem :=
  match op with
  | .add path cap link => fs.addCap path cap link
  | .remove path => fs.removeCap path

/-- What the change is for: what is published, by the elements of its path. -/
def apply (op : PublishOp)
    (m : List String → Option (AbsoluteCapability × Option PublishedLink)) :
    List String → Option (AbsoluteCapability × Option PublishedLink) :=
  match op with
  | .add path cap link => Function.update m (canonicalElements path) (some (cap, link))
  | .remove path => Function.update m (canonicalElements path) none

/-- A node that is made gets an inode of its own: the first one, as the numbers of the others have
not been given out. -/
def OwnInode (op : PublishOp) (fs : InodeFileSystem) : Prop :=
  match op with
  | .add path _ _ => fs.FreshBelow [] (canonicalElements path)
  | .remove _ => True

end PublishOp

/-- A run of changes. -/
def publishRun (fs : InodeFileSystem) (ops : List PublishOp) : Result InodeFileSystem :=
  ops.foldlM (fun fs op => op.run fs) fs

/-- What is published after the changes. -/
def publishedBy (ops : List PublishOp) :
    List String → Option (AbsoluteCapability × Option PublishedLink) :=
  ops.foldl (fun m op => op.apply m) fun _ => none

/-- Every change of the run gives the nodes it makes inodes of their own. -/
def OwnInodes : InodeFileSystem → List PublishOp → Prop
  | _, [] => True
  | fs, op :: ops => op.OwnInode fs ∧ ∀ fs', op.run fs = .ok fs' → OwnInodes fs' ops

open InodeFileSystem

/-- The filesystem holds what is published. -/
structure Publishes (fs : InodeFileSystem)
    (m : List String → Option (AbsoluteCapability × Option PublishedLink)) : Prop where
  valid : fs.Valid
  caps : ∀ q n, fs.capAt q n = m (q ++ [n])
  root : m [] = none

theorem publishes_createEmpty : Publishes .createEmpty fun _ => none := by
  have hentry : ∀ q n, createEmpty.entryAt q n = none := fun q n => by
    unfold entryAt
    cases createEmpty.inodeAt q <;> rfl
  refine ⟨⟨fun p q k hp hq => ?_, fun q n e he => ?_, fun k d hd => ?_⟩, fun q n => ?_, rfl⟩
  · have hnil : ∀ p, createEmpty.inodeAt p = some k → p = [] := fun p hp => by
      rcases List.eq_nil_or_concat p with rfl | ⟨r, m, rfl⟩
      · rfl
      · rw [List.concat_eq_append, inodeAt_concat, hentry] at hp
        cases hp
    rw [hnil p hp, hnil q hq]
  · rw [hentry] at he
    cases he
  · cases hd
  · rw [capAt, hentry]
    rfl

/-- One change. -/
theorem Publishes.step {fs : InodeFileSystem}
    {m : List String → Option (AbsoluteCapability × Option PublishedLink)} (h : Publishes fs m)
    {op : PublishOp} (hpath : 2 ≤ (canonicalElements op.path).length) (hown : op.OwnInode fs) :
    ∃ fs', op.run fs = .ok fs' ∧ Publishes fs' (op.apply m) := by
  have hne : canonicalElements op.path ≠ [] := fun hnil => by
    rw [hnil] at hpath
    cases hpath
  cases op with
  | add path cap link =>
      have hv : (fs.ensureDir .root).Valid := h.valid.ensureDir (Nat.zero_le _)
      have hfresh : (fs.ensureDir .root).FreshBelow [] (canonicalElements path) := by
        cases hroot : fs.champ .root with
        | some d =>
            rw [ensureDir_of_some hroot]
            exact hown
        | none =>
            refine freshBelow_of_lt (fun p j hp => ?_) _ _
            rw [inodeAt_ensureDir] at hp
            rw [inodeCount_ensureDir hroot]
            exact Nat.lt_succ_of_le (h.valid.inode_le hp)
      obtain ⟨fs', hrun, hv', hcap⟩ := addCapLoop_ok cap link hne hv
        (inodeAt_nil _) (champ_ensureDir_self fs .root) hfresh
      refine ⟨fs', ?_, hv', fun q n => ?_, ?_⟩
      · show fs.addCap path cap link = _
        rw [addCap, if_neg (show ¬(canonicalElements path).length < 2 from Nat.not_lt.2 hpath)]
        exact hrun
      · rw [hcap, List.nil_append, capAt_ensureDir, h.caps]
        exact (Function.update_apply m _ _ _).symm
      · exact (Function.update_of_ne (Ne.symm hne) _ _).trans h.root
  | remove path =>
      obtain ⟨fs', hrun, hv', hcap⟩ := removeCap_ok h.valid path
      refine ⟨fs', hrun, hv', fun q n => ?_, ?_⟩
      · rw [hcap, h.caps]
        exact (Function.update_apply m _ _ _).symm
      · exact (Function.update_of_ne (Ne.symm hne) _ _).trans h.root

/-- A run. -/
theorem Publishes.run {fs : InodeFileSystem}
    {m : List String → Option (AbsoluteCapability × Option PublishedLink)} (h : Publishes fs m)
    {ops : List PublishOp} (hpaths : ∀ op ∈ ops, 2 ≤ (canonicalElements op.path).length)
    (hown : OwnInodes fs ops) :
    ∃ fs', publishRun fs ops = .ok fs' ∧ Publishes fs' (ops.foldl (fun m op => op.apply m) m) := by
  induction ops generalizing fs m with
  | nil => exact ⟨fs, rfl, h⟩
  | cons op ops ih =>
      obtain ⟨fs₁, hrun, h₁⟩ := h.step (hpaths op List.mem_cons_self) hown.1
      obtain ⟨fs', hrest, h'⟩ := ih h₁ (fun o ho => hpaths o (List.mem_cons_of_mem _ ho))
        (hown.2 fs₁ hrun)
      refine ⟨fs', ?_, h'⟩
      rw [publishRun, List.foldlM_cons, hrun]
      exact hrest

/-- What `published_at` finds. -/
theorem Publishes.publishedAt_eq {fs : InodeFileSystem}
    {m : List String → Option (AbsoluteCapability × Option PublishedLink)} (h : Publishes fs m)
    (path : String) :
    (fs.publishedAt path).bind InodeCap.publication = m (canonicalElements path) := by
  rcases List.eq_nil_or_concat (canonicalElements path) with hnil | ⟨q, n, hconcat⟩
  · rw [publishedAt, hnil, h.root]
    rfl
  · rw [List.concat_eq_append] at hconcat
    rw [InodeFileSystem.publishedAt_eq hconcat, hconcat, ← h.caps]
    rfl

/-- When `get_published` finds something. -/
theorem Publishes.getPublished_isSome_iff {fs : InodeFileSystem}
    {m : List String → Option (AbsoluteCapability × Option PublishedLink)} (h : Publishes fs m)
    (path : String) :
    (fs.getPublished path).isSome ↔ ∃ q, q <+: canonicalElements path ∧ (m q).isSome := by
  rw [getPublished, getPublishedLoop_isSome_iff]
  constructor
  · rintro ⟨q, n, s, hp, hcap⟩
    refine ⟨q ++ [n], ⟨s, by rw [hp]; simp⟩, ?_⟩
    rw [← h.caps]
    exact hcap
  · rintro ⟨p, ⟨s, hp⟩, hm⟩
    rcases List.eq_nil_or_concat p with rfl | ⟨q, n, rfl⟩
    · rw [h.root] at hm
      cases hm
    · refine ⟨q, n, s, by rw [← hp]; simp, ?_⟩
      rw [List.concat_eq_append, ← h.caps] at hm
      exact hm

/-- **The public filesystem is a map from paths.**  In a run of publications and removals, over
paths of at least two elements, in which every node that is made gets an inode of its own, each call
returns, `published_at` finds exactly what was last published at a path and not removed since, and
`get_published` finds something exactly on and below published paths. -/
theorem publish_refines_paths (ops : List PublishOp)
    (hpaths : ∀ op ∈ ops, 2 ≤ (canonicalElements op.path).length)
    (hown : OwnInodes .createEmpty ops) :
    ∃ fs, publishRun .createEmpty ops = .ok fs ∧
      (∀ path, (fs.publishedAt path).bind InodeCap.publication =
        publishedBy ops (canonicalElements path)) ∧
      ∀ path, (fs.getPublished path).isSome ↔
        ∃ q, q <+: canonicalElements path ∧ (publishedBy ops q).isSome := by
  obtain ⟨fs, hrun, h⟩ := publishes_createEmpty.run hpaths hown
  exact ⟨fs, hrun, h.publishedAt_eq, h.getPublished_isSome_iff⟩

theorem publishedKey_length : (List.replicate 32 (3 : UInt8)).length = 32 := rfl

/-- A capability to publish. -/
def publishedCap : AbsoluteCapability :=
  ⟨byteKey 1, byteKey 2, List.replicate 32 3, none, ⟨List.replicate 32 4, false⟩, none,
    publishedKey_length⟩

/-- `/u/a/b` is published. -/
def publishedOnce : InodeFileSystem :=
  (((((createEmpty.putValue .root (.inline [])).putValue ⟨1, "u"⟩ (.inline [])).putValue .root
    (.inline [⟨⟨1, "u"⟩, none, none⟩])).putValue ⟨2, "a"⟩ (.inline [])).putValue ⟨1, "u"⟩
    (.inline [⟨⟨2, "a"⟩, none, none⟩])).putValue ⟨2, "a"⟩
    (.inline [⟨⟨3, "b"⟩, some publishedCap, none⟩])

/-- And `/u/a/c` beside it. -/
def publishedTwice : InodeFileSystem :=
  publishedOnce.putValue ⟨2, "a"⟩ (.inline [⟨⟨3, "b"⟩, some publishedCap, none⟩,
    ⟨⟨3, "c"⟩, some publishedCap, none⟩])

theorem run_publishedOnce :
    PublishOp.run (.add "/u/a/b" publishedCap none) .createEmpty = .ok publishedOnce := by
  have hpath : canonicalElements "/u/a/b" = ["u", "a", "b"] := by decide +kernel
  simp only [PublishOp.run, addCap, hpath]
  rfl

theorem run_publishedTwice :
    PublishOp.run (.add "/u/a/c" publishedCap none) publishedOnce = .ok publishedTwice := by
  have hpath : canonicalElements "/u/a/c" = ["u", "a", "c"] := by decide +kernel
  simp only [PublishOp.run, addCap, hpath]
  rfl

theorem unlinked_publishedOnce {n : String} (hb : n ≠ "b") : publishedOnce.Unlinked ⟨3, n⟩ := by
  refine ((((((unlinked_createEmpty _).putValue ?_).putValue ?_).putValue ?_).putValue ?_).putValue
    ?_).putValue ?_ <;> simp [DirectoryInode.children, Ne.symm hb]

/-- `/u/a/c` and `/u/d/e` are published below directories that are there, and `/u/a/b` is dropped
again. -/
def addsAndRemoval : List PublishOp :=
  [.add "/u/a/b" publishedCap none, .add "/u/a/c" publishedCap none,
    .add "/u/d/e" publishedCap none, .remove "/u/a/b"]

theorem publish_refines_paths_addRemove :
    ∃ fs, publishRun .createEmpty addsAndRemoval = .ok fs ∧
      (∀ path, (fs.publishedAt path).bind InodeCap.publication =
        publishedBy addsAndRemoval (canonicalElements path)) ∧
      ∀ path, (fs.getPublished path).isSome ↔ ∃ q, q <+: canonicalElements path ∧
        (publishedBy addsAndRemoval q).isSome := by
  refine publish_refines_paths _ (by decide +kernel) ⟨?_, fun fs₁ h₁ => ⟨?_, fun fs₂ h₂ => ⟨?_,
    fun fs₃ _ => ⟨trivial, fun fs₄ _ => trivial⟩⟩⟩⟩
  · intro r n s _ k _ hdir
    cases hdir
  · cases run_publishedOnce.symm.trans h₁
    show FreshBelow publishedOnce [] (canonicalElements "/u/a/c")
    rw [show canonicalElements "/u/a/c" = ["u", "a", "c"] by decide +kernel]
    refine FreshBelow.cons (k := .root) rfl (by decide) ?_
    refine FreshBelow.cons (k := ⟨1, "u"⟩) rfl (by decide) ?_
    exact freshBelow_of_unlinked (k := ⟨2, "a"⟩) rfl rfl (by decide)
      (unlinked_publishedOnce (by decide))
  · cases run_publishedOnce.symm.trans h₁
    cases run_publishedTwice.symm.trans h₂
    show FreshBelow publishedTwice [] (canonicalElements "/u/d/e")
    rw [show canonicalElements "/u/d/e" = ["u", "d", "e"] by decide +kernel]
    refine FreshBelow.cons (k := .root) rfl (by decide) ?_
    exact freshBelow_of_unlinked (k := ⟨1, "u"⟩) rfl rfl (by decide)
      ((unlinked_publishedOnce (by decide)).putValue (by simp [DirectoryInode.children]))

/-- Two leaves of one name, made in two directories after all directories: they share an inode.
What is published below the one is then found below the other. -/
theorem sharedInode_exposes :
    (publishRun .createEmpty [.add "/u/x/q" publishedCap none, .add "/u/y/q" publishedCap none,
        .add "/u/x/a" publishedCap none, .add "/u/y/a" publishedCap none,
        .add "/u/x/a/f" publishedCap none]).toOption.map
      (fun fs => (fs.publishedAt "/u/y/a/f").bind InodeCap.publication) =
        some (some (publishedCap, none)) ∧
    publishedBy [.add "/u/x/q" publishedCap none, .add "/u/y/q" publishedCap none,
        .add "/u/x/a" publishedCap none, .add "/u/y/a" publishedCap none,
        .add "/u/x/a/f" publishedCap none] (canonicalElements "/u/y/a/f") = none := by
  decide +kernel

end Peergos
