import PeergosClient.Lib.Exec

/-!
# Operations that may be refused

A client's call is a sequence of operations of a server, any of which may be refused.  `op fails
refusal x` is one of them: the state carries a clock that counts the operations, and the schedule
says which are refused.  An operation that is refused does nothing.  `answered` is an operation that
the server may also decline, which is no refusal: the call goes on with what it has for that case.

A call that is written with its operations tracks the one written without them as long as none is
refused or declined.
-/

namespace Exec

variable {σ ε α β : Type} {fails : ℕ → Bool} {refusal : ε}

/-- One operation. -/
def op (fails : ℕ → Bool) (refusal : ε) (x : Exec σ ε α) : Exec (σ × ℕ) ε α := fun s =>
  if fails s.2 then (.error refusal, (s.1, s.2 + 1)) else ((x s.1).1, ((x s.1).2, s.2 + 1))

/-- One operation that may be declined. -/
def answered (fails declines : ℕ → Bool) (refusal : ε) (x declined : Exec σ ε α) :
    Exec (σ × ℕ) ε α := fun s => op fails refusal (if declines s.2 then declined else x) s

/-! ## Evaluation -/

section Eval

variable {x : Exec σ ε α} {f : α → Exec (σ × ℕ) ε β} {s s' : σ} {n : ℕ} {a : α}

theorem op_of_fails (h : fails n = true) :
    op fails refusal x (s, n) = (.error refusal, (s, n + 1)) := by
  rw [op, if_pos h]

theorem op_of_passes (h : fails n = false) :
    op fails refusal x (s, n) = ((x s).1, ((x s).2, n + 1)) := by
  rw [op, if_neg (by rw [h]; exact Bool.false_ne_true)]

theorem op_bind_of_fails (h : fails n = true) :
    (op fails refusal x >>= f) (s, n) = (.error refusal, (s, n + 1)) :=
  bind_of_error (op_of_fails h)

theorem op_bind_of_ok (h : fails n = false) (hx : x s = (.ok a, s')) :
    (op fails refusal x >>= f) (s, n) = f a (s', n + 1) :=
  bind_of_ok (by rw [op_of_passes h, hx])

theorem op_query_bind_of_ok {q : σ → Except ε α} (h : fails n = false) (hq : q s = .ok a) :
    (op fails refusal (query q) >>= f) (s, n) = f a (s, n + 1) :=
  op_bind_of_ok h (Prod.ext hq rfl)

theorem answered_of_declines {y : Exec σ ε α} {declines : ℕ → Bool} (h : declines n = true) :
    answered fails declines refusal x y (s, n) = op fails refusal y (s, n) := by
  rw [answered, if_pos h]

theorem answered_of_takes {y : Exec σ ε α} {declines : ℕ → Bool} (h : declines n = false) :
    answered fails declines refusal x y (s, n) = op fails refusal x (s, n) := by
  rw [answered, if_neg (by rw [h]; exact Bool.false_ne_true)]

theorem answered_of_fails {y : Exec σ ε α} {declines : ℕ → Bool} (h : fails n = true) :
    answered fails declines refusal x y (s, n) = (.error refusal, (s, n + 1)) :=
  op_of_fails h

end Eval

/-! ## Invariants -/

theorem Triple.op {pre : σ → Prop} {x : Exec σ ε α} {post : α → σ → Prop} {failed : ε → σ → Prop}
    (h : Triple pre x post failed) (hrefused : ∀ s, pre s → failed refusal s) :
    Triple (fun s : σ × ℕ => pre s.1) (Exec.op fails refusal x) (fun a s => post a s.1)
      fun e s => failed e s.1 := by
  rintro ⟨s, n⟩ hs
  by_cases hf : fails n = true
  · rw [op_of_fails hf]
    exact hrefused s hs
  · rw [op_of_passes (by simpa using hf)]
    have := h s hs
    rcases hx : x s with ⟨_ | a, s'⟩
    · rw [hx] at this
      exact this
    · rw [hx] at this
      exact this

theorem Keeps.op {inv : σ → Prop} {x : Exec σ ε α} (h : Keeps inv x) :
    Keeps (fun s : σ × ℕ => inv s.1) (Exec.op fails refusal x) :=
  Triple.op h fun _ hs => hs

theorem Keeps.answered {inv : σ → Prop} {x y : Exec σ ε α} {declines : ℕ → Bool} (hx : Keeps inv x)
    (hy : Keeps inv y) :
    Keeps (fun s : σ × ℕ => inv s.1) (Exec.answered fails declines refusal x y) := by
  rintro ⟨s, n⟩ hs
  cases h : declines n with
  | true =>
      rw [answered_of_declines h]
      exact hy.op (s, n) hs
  | false =>
      rw [answered_of_takes h]
      exact hx.op (s, n) hs

/-- An invariant, and what a look at the state has shown. -/
theorem Triple.query_fact {inv : σ → Prop} {q : σ → Except ε α} {fact : α → Prop}
    (h : ∀ s a, inv s → q s = .ok a → fact a) :
    Triple inv (query q) (fun a s => inv s ∧ fact a) fun _ => inv := by
  intro s hs
  rw [query_run]
  cases hq : q s with
  | ok a => exact ⟨hs, h s a hs hq⟩
  | error e => exact hs

/-! ## Nothing is refused or declined -/

/-- The call with operations comes out as the one without. -/
def Tracks (x : Exec (σ × ℕ) ε α) (y : Exec σ ε α) : Prop :=
  ∀ s n, (x (s, n)).1 = (y s).1 ∧ (x (s, n)).2.1 = (y s).2

section Tracks

variable {x : Exec (σ × ℕ) ε α} {y : Exec σ ε α}

theorem Tracks.pure (a : α) : Tracks (Pure.pure a : Exec (σ × ℕ) ε α) (Pure.pure a) :=
  fun _ _ => ⟨rfl, rfl⟩

theorem Tracks.fail (e : ε) : Tracks (Exec.fail e : Exec (σ × ℕ) ε α) (Exec.fail e) :=
  fun _ _ => ⟨rfl, rfl⟩

theorem Tracks.op (hfails : ∀ n, fails n = false) (y : Exec σ ε α) :
    Tracks (op fails refusal y) y := by
  intro s n
  rw [op_of_passes (hfails n)]
  exact ⟨rfl, rfl⟩

theorem Tracks.answered {declines : ℕ → Bool} (hfails : ∀ n, fails n = false)
    (hdeclines : ∀ n, declines n = false) (y z : Exec σ ε α) :
    Tracks (answered fails declines refusal y z) y := by
  intro s n
  rw [answered_of_takes (hdeclines n)]
  exact Tracks.op hfails y s n

theorem Tracks.bind {f : α → Exec (σ × ℕ) ε β} {g : α → Exec σ ε β} (hx : Tracks x y)
    (hf : ∀ a, Tracks (f a) (g a)) : Tracks (x >>= f) (y >>= g) := by
  intro s n
  obtain ⟨hfst, hsnd⟩ := hx s n
  rw [bind_run, bind_run]
  rcases hxs : x (s, n) with ⟨r, s', n'⟩
  rcases hys : y s with ⟨r', t'⟩
  rw [hxs, hys] at hfst hsnd
  cases hfst
  cases hsnd
  cases r with
  | ok a => exact hf a s' n'
  | error e => exact ⟨rfl, rfl⟩

/-- An operation at the end that does nothing. -/
theorem Tracks.bind_op_pure (hfails : ∀ n, fails n = false) {x : Exec (σ × ℕ) ε Unit}
    {y : Exec σ ε Unit} (hx : Tracks x y) :
    Tracks (x >>= fun _ => Exec.op fails refusal (Pure.pure ())) y := by
  intro s n
  obtain ⟨hfst, hsnd⟩ := hx s n
  rw [bind_run]
  rcases hxs : x (s, n) with ⟨r, s', n'⟩
  rw [hxs] at hfst hsnd
  cases r with
  | ok a =>
      dsimp only
      rw [op_of_passes (hfails n')]
      exact ⟨hfst, hsnd⟩
  | error e => exact ⟨hfst, hsnd⟩

theorem Tracks.forEach {f : α → Exec (σ × ℕ) ε Unit} {g : α → Exec σ ε Unit}
    (hf : ∀ a, Tracks (f a) (g a)) (l : List α) :
    Tracks (Exec.forEach l f) (Exec.forEach l g) := by
  induction l with
  | nil => exact Tracks.pure ()
  | cons a l ih => exact (hf a).bind fun _ => ih

end Tracks

end Exec
