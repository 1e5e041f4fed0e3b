import PeergosClient.Core.Mutable
import PeergosClient.Lib.SortedMap

/-!
# Member ids and tree clocks

The members of a chat form the tree of their invitations, and a member's id is its path in that
tree.  A `TreeClock` counts, for each member it knows of, the events of that member seen so far; it
is a vector clock whose set of members can grow.

`isBeforeOrEqual` is a partial order on clocks and `merge` an upper bound of two of them.  A clock
need not know every member, so two clocks can be unordered without being "concurrent" in the sense
of `isConcurrentWith`, which compares only the members both know.
-/

namespace Peergos

/-! ## Ids -/

/-- `Id`: the path of a member in the tree of invitations. -/
abbrev MemberId := List ℤ

namespace MemberId

/-- `Id::single`. -/
def single (counter : ℤ) : MemberId := [counter]

/-- `Id::creator`. -/
def creator : MemberId := single 0

/-- `Id::fork`. -/
def fork (id : MemberId) (counter : ℤ) : MemberId := id ++ [counter]

/-- `Id::parent`, which has no result for the empty path. -/
def parent (id : MemberId) : Result MemberId :=
  if id = [] then .error .panic else .ok id.dropLast

@[simp] theorem parent_fork (id : MemberId) (counter : ℤ) : (id.fork counter).parent = .ok id := by
  simp [parent, fork]

theorem fork_ne_self (id : MemberId) (counter : ℤ) : id.fork counter ≠ id := by
  intro h
  have := congrArg List.length h
  simp [fork] at this

end MemberId

/-! ## Counters -/

theorem Int64.lt_add_one {a : Int64} (h : a ≠ Int64.maxValue) : a < a + 1 := by
  have hmax : Int64.maxValue.toInt = 2 ^ 63 - 1 := by decide
  have hone : (1 : Int64).toInt = 1 := by decide
  have hne : a.toInt ≠ Int64.maxValue.toInt := fun hc => h (Int64.toInt_inj.1 hc)
  have hlt := a.toInt_lt
  have hle := a.le_toInt
  have hwrap : (a.toInt + 1).bmod (2 ^ 64) = a.toInt + 1 := by
    apply Int.bmod_eq_of_le <;> omega
  rw [Int64.lt_iff_toInt_lt, Int64.toInt_add, hone, hwrap]
  omega

/-! ## Clocks -/

/-- `TreeClock`. -/
structure TreeClock where
  time : SortedMap MemberId Int64
  deriving DecidableEq

namespace TreeClock

/-- `TreeClock::init`. -/
def init (members : List MemberId) : TreeClock :=
  ⟨members.foldl (fun t m => t.insert m 0) ∅⟩

/-- One round of the loop of `TreeClock::merge`. -/
def mergeEntry (res : SortedMap MemberId Int64) (e : MemberId × Int64) : SortedMap MemberId Int64 :=
  if ((res.get e.1).map fun existing => decide (existing < e.2)).getD true then res.insert e.1 e.2
  else res

/-- `TreeClock::merge`. -/
def merge (a b : TreeClock) : TreeClock := ⟨b.time.entries.foldl mergeEntry a.time⟩

/-- `TreeClock::is_before_or_equal`. -/
def isBeforeOrEqual (a b : TreeClock) : Bool :=
  a.time.entries.all fun e =>
    match b.time.get e.1 with
    | none => false
    | some counter => decide (e.2 ≤ counter)

/-- `TreeClock::has_greater_counter_than`. -/
def hasGreaterCounterThan (a b : TreeClock) : Bool :=
  a.time.entries.any fun e =>
    match b.time.get e.1 with
    | none => false
    | some counter => decide (counter < e.2)

/-- `TreeClock::is_concurrent_with`. -/
def isConcurrentWith (a b : TreeClock) : Bool :=
  a.hasGreaterCounterThan b && b.hasGreaterCounterThan a

/-- `TreeClock::with_member`. -/
def withMember (a : TreeClock) (member : MemberId) : TreeClock := ⟨a.time.insert member 0⟩

/-- `TreeClock::increment`. -/
def increment (a : TreeClock) (member : MemberId) : TreeClock :=
  ⟨a.time.insert member ((a.time.get member).getD 0 + 1)⟩

variable {a b c : TreeClock}

/-! ### The order -/

theorem isBeforeOrEqual_iff : a.isBeforeOrEqual b = true ↔
    ∀ id n, a.time.get id = some n → ∃ m, b.time.get id = some m ∧ n ≤ m := by
  rw [isBeforeOrEqual, List.all_eq_true]
  constructor
  · intro h id n hn
    have he := h (id, n) (SortedMap.mem_entries.2 hn)
    cases hb : b.time.get id with
    | none => simp [hb] at he
    | some m => exact ⟨m, rfl, by simpa [hb] using he⟩
  · rintro h ⟨id, n⟩ he
    obtain ⟨m, hm, hle⟩ := h id n (SortedMap.mem_entries.1 he)
    simpa [hm] using hle

theorem isBeforeOrEqual_refl (a : TreeClock) : a.isBeforeOrEqual a = true := by
  rw [isBeforeOrEqual_iff]
  intro id n hn
  exact ⟨n, hn, Int64.le_refl n⟩

theorem isBeforeOrEqual_trans (hab : a.isBeforeOrEqual b = true)
    (hbc : b.isBeforeOrEqual c = true) : a.isBeforeOrEqual c = true := by
  rw [isBeforeOrEqual_iff] at hab hbc ⊢
  intro id n hn
  obtain ⟨m, hm, hnm⟩ := hab id n hn
  obtain ⟨k, hk, hmk⟩ := hbc id m hm
  exact ⟨k, hk, Int64.le_trans hnm hmk⟩

/-! ### Merging -/

/-- The larger of two counters, of which either may be missing. -/
def later : Option Int64 → Option Int64 → Option Int64
  | none, m => m
  | some n, none => some n
  | some n, some m => some (if n < m then m else n)

theorem later_none (o : Option Int64) : later o none = o := by
  cases o <;> rfl

theorem get_mergeEntry (res : SortedMap MemberId Int64) (e : MemberId × Int64) (id : MemberId) :
    (mergeEntry res e).get id = if id = e.1 then later (res.get id) (some e.2) else res.get id := by
  unfold mergeEntry
  by_cases hid : id = e.1
  · subst hid
    rw [if_pos rfl]
    cases hres : res.get e.1 with
    | none => simp [later]
    | some n =>
        by_cases hlt : n < e.2
        · simp [later, hlt]
        · simp [later, hlt, hres]
  · rw [if_neg hid]
    split
    · exact SortedMap.get_insert_of_ne _ hid _
    · rfl

theorem get_foldl_mergeEntry {l : List (MemberId × Int64)} (hl : (l.map Prod.fst).Nodup)
    (res : SortedMap MemberId Int64) (id : MemberId) :
    (l.foldl mergeEntry res).get id =
      later (res.get id) ((Keyed.lookup Prod.fst id l).map Prod.snd) := by
  induction l generalizing res with
  | nil => exact (later_none _).symm
  | cons e l ih =>
      rw [List.map_cons, List.nodup_cons] at hl
      rw [List.foldl_cons, ih hl.2, get_mergeEntry]
      by_cases hid : id = e.1
      · -- no later entry is about this id
        have hnone : Keyed.lookup Prod.fst id l = none := by
          rw [Keyed.lookup_eq_none]
          intro x hx hk
          exact hl.1 (hid ▸ hk ▸ List.mem_map_of_mem hx)
        have hhead : Keyed.lookup Prod.fst id (e :: l) = some e := by
          simp [Keyed.lookup, hid]
        rw [if_pos hid, hnone, hhead, Option.map_none, later_none, Option.map_some]
      · have htail : Keyed.lookup Prod.fst id (e :: l) = Keyed.lookup Prod.fst id l := by
          simp [Keyed.lookup, Ne.symm hid]
        rw [if_neg hid, htail]

theorem get_merge (a b : TreeClock) (id : MemberId) :
    (a.merge b).time.get id = later (a.time.get id) (b.time.get id) :=
  get_foldl_mergeEntry b.time.sorted.nodup_keys a.time id

theorem isBeforeOrEqual_merge_left (a b : TreeClock) : a.isBeforeOrEqual (a.merge b) = true := by
  rw [isBeforeOrEqual_iff]
  intro id n hn
  rw [get_merge, hn]
  cases hb : b.time.get id with
  | none => exact ⟨n, rfl, Int64.le_refl n⟩
  | some m =>
      by_cases hlt : n < m
      · exact ⟨m, by simp [later, hlt], Int64.le_of_lt hlt⟩
      · exact ⟨n, by simp [later, hlt], Int64.le_refl n⟩

theorem isBeforeOrEqual_merge_right (a b : TreeClock) : b.isBeforeOrEqual (a.merge b) = true := by
  rw [isBeforeOrEqual_iff]
  intro id m hm
  rw [get_merge, hm]
  cases ha : a.time.get id with
  | none => exact ⟨m, rfl, Int64.le_refl m⟩
  | some n =>
      by_cases hlt : n < m
      · exact ⟨m, by simp [later, hlt], Int64.le_refl m⟩
      · exact ⟨n, by simp [later, hlt], Int64.not_lt.1 hlt⟩

/-! ### The host's own events -/

/-- The counter of a member a clock may not know yet. -/
def counterOf (a : TreeClock) (id : MemberId) : Int64 := (a.time.get id).getD 0

theorem get_increment (a : TreeClock) (member id : MemberId) :
    (a.increment member).time.get id =
      if id = member then some (a.counterOf member + 1) else a.time.get id :=
  SortedMap.get_insert _ _ _ _

theorem get_withMember (a : TreeClock) (member id : MemberId) :
    (a.withMember member).time.get id = if id = member then some 0 else a.time.get id :=
  SortedMap.get_insert _ _ _ _

/-- A clock with an event more is not covered by the clock it was made from. -/
theorem not_increment_isBeforeOrEqual {member : MemberId}
    (h : a.counterOf member ≠ Int64.maxValue) : (a.increment member).isBeforeOrEqual a = false := by
  rw [Bool.eq_false_iff]
  intro hle
  obtain ⟨m, hm, hlt⟩ := isBeforeOrEqual_iff.1 hle member (a.counterOf member + 1)
    (by rw [get_increment, if_pos rfl])
  have hcounter : a.counterOf member = m := by rw [counterOf, hm, Option.getD_some]
  exact Int64.not_lt.2 (hcounter ▸ hlt) (hcounter ▸ Int64.lt_add_one h)

/-- Naming a member whose events have not been counted loses nothing. -/
theorem isBeforeOrEqual_withMember {member : MemberId} (h : a.counterOf member ≤ 0) :
    a.isBeforeOrEqual (a.withMember member) = true := by
  rw [isBeforeOrEqual_iff]
  intro id n hn
  rw [get_withMember]
  by_cases hid : id = member
  · subst hid
    rw [counterOf, hn, Option.getD_some] at h
    exact ⟨0, if_pos rfl, h⟩
  · exact ⟨n, by rw [if_neg hid, hn], Int64.le_refl n⟩

end TreeClock

end Peergos
