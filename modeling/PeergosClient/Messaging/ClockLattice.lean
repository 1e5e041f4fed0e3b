import PeergosClient.Messaging.Clock

/-!
# Clocks form a semilattice

A clock is seen here through its counters: a number or nothing at each id, and nothing is below any
number, zero too.  Such functions form a semilattice, ordered and joined id by id.  A clock is known
by its counters, and `isBeforeOrEqual` and `merge` are their order and their join, so the laws carry
over.
-/

namespace Peergos

namespace TreeClock

variable {a b c : TreeClock}

/-- A counter that may be missing, as a number with `⊥` below all. -/
def height : Option Int64 → WithBot ℤ
  | none => ⊥
  | some n => (n.toInt : ℤ)

theorem height_injective : Function.Injective height := by
  intro m n h
  cases m with
  | none =>
      cases n with
      | none => rfl
      | some j => exact absurd h.symm WithBot.coe_ne_bot
  | some i =>
      cases n with
      | none => exact absurd h WithBot.coe_ne_bot
      | some j => rw [Int64.toInt_inj.1 (WithBot.coe_injective h)]

theorem height_le_iff {m n : Option Int64} :
    height m ≤ height n ↔ ∀ i, m = some i → ∃ j, n = some j ∧ i ≤ j := by
  cases m with
  | none => simp [height]
  | some i =>
      cases n with
      | none => simp [height]
      | some j => simp [height, WithBot.coe_le_coe, Int64.le_iff_toInt_le]

/-- The later of two counters is their join. -/
theorem height_later (m n : Option Int64) : height (later m n) = height m ⊔ height n := by
  cases m with
  | none => exact (bot_sup_eq (height n)).symm
  | some i =>
      cases n with
      | none => exact (sup_bot_eq (height (some i))).symm
      | some j =>
          by_cases hlt : i < j
          · have hle : height (some i) ≤ height (some j) :=
              WithBot.coe_le_coe.2 (Int64.le_iff_toInt_le.1 (Int64.le_of_lt hlt))
            rw [later, if_pos hlt, sup_eq_right.2 hle]
          · have hle : height (some j) ≤ height (some i) :=
              WithBot.coe_le_coe.2 (Int64.le_iff_toInt_le.1 (Int64.not_lt.1 hlt))
            rw [later, if_neg hlt, sup_eq_left.2 hle]

/-- The counters of a clock. -/
def counters (a : TreeClock) (id : MemberId) : WithBot ℤ := height (a.time.get id)

theorem counters_injective : Function.Injective counters := by
  rintro ⟨m⟩ ⟨m'⟩ h
  congr 1
  exact SortedMap.ext_get fun id => height_injective (congrFun h id)

theorem counters_le_iff : a.counters ≤ b.counters ↔ a.isBeforeOrEqual b = true := by
  rw [isBeforeOrEqual_iff, Pi.le_def]
  exact forall_congr' fun id => height_le_iff

theorem counters_merge (a b : TreeClock) : (a.merge b).counters = a.counters ⊔ b.counters := by
  funext id
  rw [Pi.sup_apply, counters, get_merge]
  exact height_later _ _

/-! ## The laws -/

instance : LE TreeClock := ⟨fun a b => a.isBeforeOrEqual b = true⟩

instance : LT TreeClock := ⟨fun a b => a.counters < b.counters⟩

instance : Max TreeClock := ⟨merge⟩

instance : SemilatticeSup TreeClock :=
  counters_injective.semilatticeSup counters counters_le_iff Iff.rfl counters_merge

/-- `is_before_or_equal` is a partial order, and `merge` gives least upper bounds in it. -/
theorem merge_isJoin :
    IsPartialOrder TreeClock (fun a b => a.isBeforeOrEqual b = true) ∧
      Std.Commutative merge ∧ Std.Associative merge ∧ Std.IdempotentOp merge ∧
      ∀ a b c : TreeClock, (a.merge b).isBeforeOrEqual c = true ↔
        a.isBeforeOrEqual c = true ∧ b.isBeforeOrEqual c = true := by
  have horder : IsPartialOrder TreeClock (· ≤ ·) := inferInstance
  refine ⟨horder, ⟨?_⟩, ⟨?_⟩, ⟨?_⟩, ?_⟩
  · exact fun a b => sup_comm a b
  · exact fun a b c => sup_assoc a b c
  · exact fun a => sup_idem a
  · exact fun a b c => sup_le_iff (a := a) (b := b) (c := c)

end TreeClock

end Peergos
