import Mathlib.Logic.Function.Basic
import Mathlib.Data.Option.Basic

/-!
# Replicas of a keyed store

Several replicas hold values under keys.  A value lasts on a replica `s` against a replica `t` if
`s` holds it under a key for which `t` has nothing else.  A copy between the two, whatever it
overwrites, leaves the value lasting, and so does a move as long as what it overwrites and what is
across from its target is what it moves.
-/

namespace Replicas

variable {S K V : Type*}

/-- What the replicas hold. -/
abbrev Contents (S K V : Type*) := S → K → Option V

/-- The value lasts on `s` against `t`. -/
def Lasts (m : Contents S K V) (s t : S) (v : V) : Prop :=
  ∃ k, m s k = some v ∧ ∀ v', m t k = some v' → v' = v

variable {m m' : Contents S K V} {s t u : S} {k k' src dst : K} {v v' d e : V}

/-- The replica across loses values. -/
theorem Lasts.loseThere (h : Lasts m s t v) (hs : m' s = m s)
    (ht : ∀ k, m' t k = m t k ∨ m' t k = none) : Lasts m' s t v := by
  obtain ⟨q, hq, hother⟩ := h
  refine ⟨q, by rw [hs, hq], fun v' hv' => ?_⟩
  rcases ht q with heq | hnone
  · exact hother v' (heq ▸ hv')
  · rw [hnone] at hv'
    cases hv'

variable [DecidableEq S] [DecidableEq K]

/-- The contents with one place changed. -/
def set (m : Contents S K V) (s : S) (k : K) (v : Option V) : Contents S K V :=
  Function.update m s (Function.update (m s) k v)

theorem set_apply (m : Contents S K V) (s : S) (k : K) (v : Option V) (u : S) (k' : K) :
    set m s k v u k' = if u = s ∧ k' = k then v else m u k' := by
  by_cases hu : u = s
  · subst hu
    by_cases hk : k' = k <;> simp [set, hk]
  · simp [set, hu]

@[simp] theorem set_self (m : Contents S K V) (s : S) (k : K) (v : Option V) :
    set m s k v s k = v := by simp [set_apply]

@[simp] theorem set_of_ne_side (h : u ≠ s) (v : Option V) : set m s k v u = m u := by
  funext k'
  simp [set_apply, h]

@[simp] theorem set_of_ne_key (h : k' ≠ k) (v : Option V) : set m s k v u k' = m u k' := by
  simp [set_apply, h]

/-- Copying a value across.  What is written may differ from it only where it overwrites another. -/
theorem Lasts.copyThere (h : Lasts m s t v) (hst : s ≠ t) (hd : m s k = some d)
    (he : (∀ d', m t k = some d' → d' = d) → e = d) : Lasts (set m t k (some e)) s t v := by
  obtain ⟨q, hq, hother⟩ := h
  refine ⟨q, by simpa [hst] using hq, fun v' hv' => ?_⟩
  by_cases hk : q = k
  · subst hk
    obtain rfl : v = d := Option.some.inj (hq.symm.trans hd)
    rw [set_self] at hv'
    exact (Option.some.inj hv').symm.trans (he hother)
  · exact hother v' (by simpa [hk] using hv')

/-- Copying a value from across. -/
theorem Lasts.copyHere (h : Lasts m s t v) (hst : s ≠ t) (hd : m t k = some d)
    (he : (∀ d', m s k = some d' → d' = d) → e = d) : Lasts (set m s k (some e)) s t v := by
  obtain ⟨q, hq, hother⟩ := h
  by_cases hk : q = k
  · subst hk
    obtain rfl : d = v := hother d hd
    have hv := he fun d' hd' => Option.some.inj (hd'.symm.trans hq)
    exact ⟨q, by rw [set_self, hv], by simpa [hst.symm] using hother⟩
  · exact ⟨q, by simpa [hk] using hq, by simpa [hst.symm] using hother⟩

/-- A move on the replica itself. -/
theorem Lasts.moveHere (h : Lasts m s t v) (hst : s ≠ t) (hd : m s src = some d)
    (hhere : ∀ e, m s dst = some e → e = d) (hthere : ∀ e, m t dst = some e → e = d) :
    Lasts (set (set m s src none) s dst (some d)) s t v := by
  obtain ⟨q, hq, hother⟩ := h
  by_cases hdst : q = dst ∨ q = src
  · have hv : v = d := by
      rcases hdst with rfl | rfl
      · exact hhere v hq
      · exact Option.some.inj (hq.symm.trans hd)
    subst hv
    exact ⟨dst, set_self _ _ _ _, by simpa [hst.symm] using hthere⟩
  · rw [not_or] at hdst
    exact ⟨q, by simpa [hdst.1, hdst.2] using hq, by simpa [hst.symm] using hother⟩

/-- A move on the replica across. -/
theorem Lasts.moveThere (h : Lasts m s t v) (hst : s ≠ t)
    (hhere : ∀ e, m s dst = some e → e = d) :
    Lasts (set (set m t src none) t dst (some d)) s t v := by
  obtain ⟨q, hq, hother⟩ := h
  refine ⟨q, by simpa [hst] using hq, fun v' hv' => ?_⟩
  by_cases hdst : q = dst
  · subst hdst
    rw [set_self] at hv'
    rw [hhere v hq]
    exact (Option.some.inj hv').symm
  · rw [set_of_ne_key hdst] at hv'
    by_cases hsrc : q = src
    · rw [hsrc, set_self] at hv'
      cases hv'
    · exact hother v' (by simpa [hsrc] using hv')

end Replicas
