import Mathlib

/-!
# Logs of keyed updates

A log is a list of entries, each for one key.  Replaying it over a map from keys to values sets, in
order, the value of each entry's key.  `Chained` says that every entry fits the value its key has
when its turn comes, which is what lets the log be applied by compare-and-swap.

Entries of different keys do not see each other.  So the part of a chained log that belongs to a
set of keys is chained by itself, and the parts can be replayed in any order.
-/

namespace KeyedLog

variable {K E V : Type*} [DecidableEq K] (key : E → K) (value : E → V) (Fits : V → E → Prop)

/-- The map after a log. -/
def replay (m : K → V) (log : List E) : K → V :=
  log.foldl (fun m e => Function.update m (key e) (value e)) m

/-- Every entry fits the value its key has at its turn. -/
def Chained : (K → V) → List E → Prop
  | _, [] => True
  | m, e :: log => Fits (m (key e)) e ∧ Chained (Function.update m (key e) (value e)) log

/-- Whether a log is chained can be computed. -/
instance decidableChained [∀ v e, Decidable (Fits v e)] :
    (m : K → V) → (log : List E) → Decidable (Chained key value Fits m log)
  | _, [] => .isTrue trivial
  | m, e :: log =>
      have := decidableChained (Function.update m (key e) (value e)) log
      inferInstanceAs (Decidable (Fits (m (key e)) e ∧ Chained key value Fits _ log))

variable {key value Fits} {m m' : K → V} {log log' : List E} {e : E} {k : K}

@[simp] theorem replay_nil : replay key value m [] = m := rfl

@[simp] theorem replay_cons : replay key value m (e :: log) =
    replay key value (Function.update m (key e) (value e)) log := rfl

theorem replay_append : replay key value m (log ++ log') =
    replay key value (replay key value m log) log' := List.foldl_append

theorem replay_concat : replay key value m (log ++ [e]) =
    Function.update (replay key value m log) (key e) (value e) := replay_append

/-- What holds of a key's value and of the value of each of its entries holds after the log. -/
theorem replay_of_forall {Q : V → Prop} (hm : Q (m k))
    (h : ∀ e ∈ log, key e = k → Q (value e)) : Q (replay key value m log k) := by
  induction log generalizing m with
  | nil => exact hm
  | cons e log ih =>
      rw [replay_cons]
      refine ih ?_ fun e' he' => h e' (List.mem_cons_of_mem _ he')
      by_cases hk : key e = k
      · rw [hk, Function.update_self]
        exact h e List.mem_cons_self hk
      · rw [Function.update_of_ne (Ne.symm hk)]
        exact hm

/-- A key with entries has the value of its last one. -/
theorem replay_eq_getLast (m : K → V) (log : List E) (k : K) : replay key value m log k =
    ((log.reverse.find? fun e => decide (key e = k)).map value).getD (m k) := by
  induction log using List.reverseRecOn with
  | nil => rfl
  | append_singleton log e ih =>
      rw [replay_concat, List.reverse_append, List.reverse_singleton, List.singleton_append,
        List.find?_cons]
      by_cases h : key e = k
      · rw [h, Function.update_self]
        simp
      · rw [Function.update_of_ne (Ne.symm h), ih]
        simp [h]

theorem chained_append : Chained key value Fits m (log ++ log') ↔
    Chained key value Fits m log ∧ Chained key value Fits (replay key value m log) log' := by
  induction log generalizing m with
  | nil => simp [Chained]
  | cons e log ih => rw [List.cons_append, Chained, Chained, ih, replay_cons, and_assoc]

/-- Whether a log is chained depends on the values of its own keys only. -/
theorem Chained.congr (h : Chained key value Fits m log) (heq : ∀ e ∈ log, m (key e) = m' (key e)) :
    Chained key value Fits m' log := by
  induction log generalizing m m' with
  | nil => trivial
  | cons e log ih =>
      refine ⟨heq e List.mem_cons_self ▸ h.1, ih h.2 ?_⟩
      intro e' he'
      by_cases hk : key e' = key e
      · rw [hk, Function.update_self, Function.update_self]
      · rw [Function.update_of_ne hk, Function.update_of_ne hk]
        exact heq e' (List.mem_cons_of_mem _ he')

section Filter

variable (q : K → Prop) [DecidablePred q]

/-- The part of a log that belongs to a set of keys moves exactly these keys. -/
theorem replay_filter : replay key value m (log.filter fun e => q (key e)) k =
    if q k then replay key value m log k else m k := by
  induction log generalizing m with
  | nil => simp
  | cons e log ih =>
      by_cases hq : q (key e)
      · rw [List.filter_cons_of_pos (by simpa using hq), replay_cons, replay_cons, ih]
        by_cases hk : k = key e
        · subst hk
          rw [if_pos hq, if_pos hq]
        · rw [Function.update_of_ne hk]
      · rw [List.filter_cons_of_neg (by simpa using hq), ih, replay_cons]
        by_cases hqk : q k
        · rw [if_pos hqk, if_pos hqk]
          -- the skipped entry is of another key
          have hk : k ≠ key e := fun h => hq (h ▸ hqk)
          rw [replay_eq_getLast, replay_eq_getLast, Function.update_of_ne hk]
        · rw [if_neg hqk, if_neg hqk]

/-- The part of a chained log that belongs to a set of keys is chained. -/
theorem Chained.filter (h : Chained key value Fits m log) :
    Chained key value Fits m (log.filter fun e => q (key e)) := by
  induction log generalizing m with
  | nil => trivial
  | cons e log ih =>
      by_cases hq : q (key e)
      · rw [List.filter_cons_of_pos (by simpa using hq)]
        exact ⟨h.1, ih h.2⟩
      · rw [List.filter_cons_of_neg (by simpa using hq)]
        refine (ih h.2).congr ?_
        intro e' he'
        refine Function.update_of_ne ?_ _ _
        intro hk
        exact hq (hk ▸ of_decide_eq_true (List.mem_filter.1 he').2)

/-- One part after the other leads where the whole log leads. -/
theorem replay_filter_filter_not :
    replay key value (replay key value m (log.filter fun e => q (key e)))
      (log.filter fun e => ¬ q (key e)) = replay key value m log := by
  funext k
  rw [replay_filter fun k => ¬ q k]
  by_cases hk : q k
  · rw [if_neg (not_not.2 hk), replay_filter, if_pos hk]
  · rw [if_pos hk, replay_eq_getLast, replay_eq_getLast m log, replay_filter, if_neg hk]

/-- The other part is still chained once one part has been replayed. -/
theorem Chained.filter_not (h : Chained key value Fits m log) :
    Chained key value Fits (replay key value m (log.filter fun e => q (key e)))
      (log.filter fun e => ¬ q (key e)) := by
  refine (h.filter fun k => ¬ q k).congr ?_
  intro e he
  have hq : ¬ q (key e) := of_decide_eq_true (List.mem_filter.1 he).2
  rw [replay_filter, if_neg hq]

end Filter

end KeyedLog
