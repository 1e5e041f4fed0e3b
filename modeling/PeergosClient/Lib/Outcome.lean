import Mathlib

/-!
# What a fallible call ends in

`Ensures x post fail` says that the call `x` either returns a value with `post` or fails with an
error for which `fail` holds.  One such statement per function carries both what a successful call
gives and why a call can fail at all; the rules below compose them along `bind` and along a fold.
-/

namespace Outcome

universe u

variable {ε : Type*} {α β : Type u}

/-- The call returns a value with `post`, or fails with an error that satisfies `fail`. -/
def Ensures (x : Except ε α) (post : α → Prop) (fail : ε → Prop) : Prop :=
  match x with
  | .ok a => post a
  | .error e => fail e

variable {x : Except ε α} {post post' : α → Prop} {fail fail' : ε → Prop}

theorem Ensures.mono (h : Ensures x post fail) (hp : ∀ a, post a → post' a)
    (hf : ∀ e, fail e → fail' e) : Ensures x post' fail' := by
  cases x with
  | ok a => exact hp a h
  | error e => exact hf e h

theorem Ensures.bind {f : α → Except ε β} {post' : β → Prop} (h : Ensures x post fail)
    (hf : ∀ a, post a → Ensures (f a) post' fail) : Ensures (x >>= f) post' fail := by
  cases x with
  | ok a => exact hf a h
  | error e => exact h

/-- A call ensures that it returned what it did. -/
theorem Ensures.self (h : Ensures x post fail) : Ensures x (fun a => x = .ok a ∧ post a) fail := by
  cases x with
  | ok a => exact ⟨rfl, h⟩
  | error e => exact h

/-- What a call that returned has ensured. -/
theorem Ensures.of_eq_ok (h : Ensures x post fail) {a : α} (hx : x = .ok a) : post a := by
  subst hx
  exact h

/-- The invariant rule for a loop over a list: `inv` speaks of the elements already done. -/
theorem Ensures.foldlM {f : β → α → Except ε β} {fail : ε → Prop} (inv : List α → β → Prop)
    {l : List α}
    (hstep : ∀ done a rest, l = done ++ a :: rest → ∀ b, inv done b →
      Ensures (f b a) (inv (done ++ [a])) fail)
    {b : β} (hb : inv [] b) : Ensures (l.foldlM f b) (inv l) fail := by
  suffices h : ∀ rest done b, l = done ++ rest → inv done b →
      Ensures (rest.foldlM f b) (inv l) fail from h l [] b rfl hb
  intro rest
  induction rest with
  | nil =>
      intro done b hl hinv
      rw [List.append_nil] at hl
      rw [hl]
      exact hinv
  | cons a rest ih =>
      intro done b hl hinv
      rw [List.foldlM_cons]
      refine (hstep done a rest hl b hinv).bind ?_
      intro b' hb'
      refine ih (done ++ [a]) b' ?_ hb'
      rw [hl, List.append_assoc, List.singleton_append]

/-! ## Loops whose rounds meet a condition -/

/-- Every round of the loop over the list that is reached meets the condition. -/
def Along (f : β → α → Except ε β) (cond : β → α → Prop) : β → List α → Prop
  | _, [] => True
  | b, a :: l => cond b a ∧ ∀ b', f b a = .ok b' → Along f cond b' l

theorem along_cons {f : β → α → Except ε β} {cond : β → α → Prop} {b : β} {a : α} {l : List α} :
    (cond b a ∧ ∀ b' ∈ (f b a).toOption, Along f cond b' l) ↔ Along f cond b (a :: l) := by
  rw [Along]
  cases f b a with
  | ok b₁ => simp [Except.toOption]
  | error e => simp [Except.toOption]

/-- A loop can be followed round by round. -/
instance decidableAlong {f : β → α → Except ε β} {cond : β → α → Prop}
    [∀ b a, Decidable (cond b a)] : ∀ (l : List α) (b : β), Decidable (Along f cond b l)
  | [], _ => inferInstanceAs (Decidable True)
  | _ :: l, _ =>
      haveI : ∀ b, Decidable (Along f cond b l) := decidableAlong l
      decidable_of_iff _ along_cons

theorem Along.trivial {f : β → α → Except ε β} (b : β) (l : List α) :
    Along f (fun _ _ => True) b l := by
  induction l generalizing b with
  | nil => exact True.intro
  | cons a l ih => exact ⟨True.intro, fun b' _ => ih b'⟩

/-- A condition that every element of the list meets, whatever the state. -/
theorem Along.of_forall {f : β → α → Except ε β} {cond : β → α → Prop} {l : List α}
    (h : ∀ a ∈ l, ∀ b, cond b a) (b : β) : Along f cond b l := by
  induction l generalizing b with
  | nil => exact True.intro
  | cons a l ih =>
      refine ⟨h a List.mem_cons_self b, fun b' _ => ?_⟩
      exact ih (fun a' ha' => h a' (List.mem_cons_of_mem _ ha')) b'

/-- An invariant of the rounds that meet the condition holds after a loop that returned. -/
theorem Along.inv {f : β → α → Except ε β} {cond : β → α → Prop} (inv : β → Prop)
    (hstep : ∀ b a b', inv b → cond b a → f b a = .ok b' → inv b') {l : List α} {b b' : β}
    (hcond : Along f cond b l) (hb : inv b) (h : l.foldlM f b = .ok b') : inv b' := by
  induction l generalizing b with
  | nil =>
      cases h
      exact hb
  | cons a l ih =>
      rw [List.foldlM_cons] at h
      cases hf : f b a with
      | error e =>
          rw [hf] at h
          cases h
      | ok b₁ =>
          rw [hf] at h
          exact ih (hcond.2 b₁ hf) (hstep b a b₁ hb hcond.1 hf) h

end Outcome
