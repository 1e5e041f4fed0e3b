import Mathlib

/-!
# Stateful calls that can fail

`Exec σ ε α` is a computation over a state `σ` that returns an `α` or fails with an `ε`.  What it
did to the state before failing stays done, as it does for a client talking to a server.

`Triple pre x post fail` is a pre- and postcondition with a separate postcondition for failure, and
`Keeps inv x` the special case of an invariant that survives either way.  The rules below follow
the constructs programs are written with: `pure`, `bind`, reading and updating the state, catching
a failure, and a loop over a list.
-/

/-- A computation over `σ` that returns an `α` or fails with an `ε`. -/
def Exec (σ ε α : Type) : Type := σ → Except ε α × σ

namespace Exec

variable {σ τ ε α β : Type}

instance : Monad (Exec σ ε) where
  pure a := fun s => (.ok a, s)
  bind x f := fun s =>
    match x s with
    | (.ok a, s') => f a s'
    | (.error e, s') => (.error e, s')

/-- Give up with an error. -/
def fail (e : ε) : Exec σ ε α := fun s => (.error e, s)

/-- Look at the state. -/
def reads (f : σ → α) : Exec σ ε α := fun s => (.ok (f s), s)

/-- Change the state. -/
def update (f : σ → σ) : Exec σ ε Unit := fun s => (.ok (), f s)

/-- A pure step that may fail. -/
def lift (r : Except ε α) : Exec σ ε α := fun s => (r, s)

/-- Look at the state in a way that may fail. -/
def query (f : σ → Except ε α) : Exec σ ε α := fun s => (f s, s)

/-- A step that returns its new state with its value, and leaves the state alone if it fails. -/
def ofExcept (f : σ → Except ε (α × σ)) : Exec σ ε α := fun s =>
  match f s with
  | .ok (a, s') => (.ok a, s')
  | .error e => (.error e, s)

/-- Run a computation and hand its outcome on as a value. -/
def attempt (x : Exec σ ε α) : Exec σ ε (Except ε α) := fun s => (.ok (x s).1, (x s).2)

/-- `for a in l { f a }`. -/
def forEach : List α → (α → Exec σ ε Unit) → Exec σ ε Unit
  | [], _ => pure ()
  | a :: l, f => f a >>= fun _ => forEach l f

/-- `for a in l { out.push(f a) }`. -/
def collect : List α → (α → Exec σ ε β) → Exec σ ε (List β)
  | [], _ => pure []
  | a :: l, f => f a >>= fun b => collect l f >>= fun bs => pure (b :: bs)

/-- Run a computation on a part of the state. -/
def zoom (get : σ → τ) (set : τ → σ → σ) (x : Exec τ ε α) : Exec σ ε α := fun s =>
  ((x (get s)).1, set (x (get s)).2 s)

/-! ## Evaluation -/

section Eval

@[simp] theorem pure_run (a : α) (s : σ) : (pure a : Exec σ ε α) s = (.ok a, s) := rfl

@[simp] theorem fail_run (e : ε) (s : σ) : (fail e : Exec σ ε α) s = (.error e, s) := rfl

@[simp] theorem reads_run (f : σ → α) (s : σ) : (reads f : Exec σ ε α) s = (.ok (f s), s) := rfl

@[simp] theorem update_run (f : σ → σ) (s : σ) : (update f : Exec σ ε Unit) s = (.ok (), f s) := rfl

@[simp] theorem lift_run (r : Except ε α) (s : σ) : (lift r : Exec σ ε α) s = (r, s) := rfl

@[simp] theorem query_run (f : σ → Except ε α) (s : σ) :
    (query f : Exec σ ε α) s = (f s, s) := rfl

@[simp] theorem attempt_run (x : Exec σ ε α) (s : σ) : attempt x s = (.ok (x s).1, (x s).2) := rfl

theorem bind_run (x : Exec σ ε α) (f : α → Exec σ ε β) (s : σ) :
    (x >>= f) s = match x s with
      | (.ok a, s') => f a s'
      | (.error e, s') => (.error e, s') := rfl

theorem bind_of_ok {x : Exec σ ε α} {f : α → Exec σ ε β} {s s' : σ} {a : α}
    (h : x s = (.ok a, s')) : (x >>= f) s = f a s' := by
  rw [bind_run, h]

theorem pure_bind (a : α) (f : α → Exec σ ε β) : ((pure a : Exec σ ε α) >>= f) = f a := rfl

@[simp] theorem lift_ok_bind (a : α) (f : α → Exec σ ε β) : (lift (.ok a) >>= f) = f a := rfl

theorem bind_of_error {x : Exec σ ε α} {f : α → Exec σ ε β} {s s' : σ} {e : ε}
    (h : x s = (.error e, s')) : (x >>= f) s = (.error e, s') := by
  rw [bind_run, h]

/-- Sequences that agree on their first part and go on alike. -/
theorem bind_of_eq {x y : Exec σ ε α} {f : α → Exec σ ε β} {s s' : σ} (h : x s = y s') :
    (x >>= f) s = (y >>= f) s' := by
  rw [bind_run, bind_run, h]

/-- A sequence that returned passed through a state between its two parts. -/
theorem bind_eq_ok {x : Exec σ ε α} {f : α → Exec σ ε β} {s s'' : σ} {b : β}
    (h : (x >>= f) s = (.ok b, s'')) : ∃ a s', x s = (.ok a, s') ∧ f a s' = (.ok b, s'') := by
  rw [bind_run] at h
  rcases hx : x s with ⟨r, s'⟩
  rw [hx] at h
  cases r with
  | ok a => exact ⟨a, s', rfl, h⟩
  | error e => cases h

theorem lift_bind_eq_ok {r : Except ε α} {f : α → Exec σ ε β} {s s'' : σ} {b : β}
    (h : (lift r >>= f) s = (.ok b, s'')) : ∃ a, r = .ok a ∧ f a s = (.ok b, s'') := by
  obtain ⟨a, s', hx, hf⟩ := bind_eq_ok h
  obtain ⟨hr, rfl⟩ := Prod.mk.inj (show (r, s) = (.ok a, s') from hx)
  exact ⟨a, hr, hf⟩

theorem query_bind_eq_ok {q : σ → Except ε α} {f : α → Exec σ ε β} {s s'' : σ} {b : β}
    (h : (query q >>= f) s = (.ok b, s'')) : ∃ a, q s = .ok a ∧ f a s = (.ok b, s'') := by
  obtain ⟨a, s', hx, hf⟩ := bind_eq_ok h
  obtain ⟨hr, rfl⟩ := Prod.mk.inj (show (q s, s) = (.ok a, s') from hx)
  exact ⟨a, hr, hf⟩

theorem attempt_of_run {x : Exec σ ε α} {s s' : σ} {r : Except ε α} (h : x s = (r, s')) :
    attempt x s = (.ok r, s') := by
  rw [attempt_run, h]

/-- A caught outcome is the outcome of the computation. -/
theorem attempt_eq_ok {x : Exec σ ε α} {s s' : σ} {r : Except ε α}
    (h : attempt x s = (.ok r, s')) : x s = (r, s') :=
  Prod.ext (Except.ok.inj (Prod.mk.inj h).1) (Prod.mk.inj h).2

theorem forEach_cons_of_ok {f : α → Exec σ ε Unit} {a : α} {l : List α} {s s' : σ}
    (h : f a s = (.ok (), s')) : forEach (a :: l) f s = forEach l f s' := bind_of_ok h

theorem forEach_append_of_ok {f : α → Exec σ ε Unit} {l l' : List α} {s s' : σ}
    (h : forEach l f s = (.ok (), s')) : forEach (l ++ l') f s = forEach l' f s' := by
  induction l generalizing s with
  | nil =>
      cases h
      rfl
  | cons a l ih =>
      obtain ⟨_, s₁, ha, hl⟩ := bind_eq_ok h
      exact (bind_of_ok ha).trans (ih hl)

/-- A loop that fails in its first part does not get to the second. -/
theorem forEach_append_of_error {f : α → Exec σ ε Unit} {l l' : List α} {s s' : σ} {e : ε}
    (h : forEach l f s = (.error e, s')) : forEach (l ++ l') f s = (.error e, s') := by
  induction l generalizing s with
  | nil => cases h
  | cons a l ih =>
      rcases ha : f a s with ⟨_ | _, s₁⟩
      · exact (bind_of_error ha).trans ((bind_of_error ha).symm.trans h)
      · exact (bind_of_ok ha).trans (ih ((bind_of_ok ha).symm.trans h))

/-- What every step of a loop keeps, a loop that came to its end has kept. -/
theorem forEach_invariant {f : α → Exec σ ε Unit} (inv : σ → Prop)
    (hstep : ∀ a s s', inv s → f a s = (.ok (), s') → inv s') {l : List α} {s s' : σ} (hs : inv s)
    (h : forEach l f s = (.ok (), s')) : inv s' := by
  induction l generalizing s with
  | nil =>
      cases h
      exact hs
  | cons a l ih =>
      obtain ⟨_, s₁, ha, hl⟩ := bind_eq_ok h
      exact ih (hstep a s s₁ hs ha) hl

end Eval

/-! ## Pre- and postconditions -/

/-- From a state with `pre`, the computation returns a value with `post` or fails with `fail`. -/
def Triple (pre : σ → Prop) (x : Exec σ ε α) (post : α → σ → Prop) (fail : ε → σ → Prop) : Prop :=
  ∀ s, pre s → match x s with
    | (.ok a, s') => post a s'
    | (.error e, s') => fail e s'

variable {pre pre' : σ → Prop} {x : Exec σ ε α} {post post' : α → σ → Prop}
  {fails fails' : ε → σ → Prop}

theorem Triple.mono (h : Triple pre x post fails) (hpre : ∀ s, pre' s → pre s)
    (hpost : ∀ a s, post a s → post' a s) (hfail : ∀ e s, fails e s → fails' e s) :
    Triple pre' x post' fails' := by
  intro s hs
  have := h s (hpre s hs)
  rcases hx : x s with ⟨_ | _, s'⟩
  · rw [hx] at this
    exact hfail _ _ this
  · rw [hx] at this
    exact hpost _ _ this

theorem Triple.pure {a : α} (h : ∀ s, pre s → post a s) :
    Triple pre (Pure.pure a) post fails := fun s hs => h s hs

theorem Triple.fail {e : ε} (h : ∀ s, pre s → fails e s) :
    Triple pre (Exec.fail e) post fails := fun s hs => h s hs

theorem Triple.bind {f : α → Exec σ ε β} {m : α → σ → Prop} {post : β → σ → Prop}
    (hx : Triple pre x m fails) (hf : ∀ a, Triple (m a) (f a) post fails) :
    Triple pre (x >>= f) post fails := by
  intro s hs
  have h := hx s hs
  rw [bind_run]
  rcases hx' : x s with ⟨_ | a, s'⟩
  · rw [hx'] at h
    exact h
  · rw [hx'] at h
    exact hf a s' h

theorem Triple.reads {f : σ → α} (h : ∀ s, pre s → post (f s) s) :
    Triple pre (Exec.reads f) post fails := fun s hs => h s hs

theorem Triple.update {f : σ → σ} {post : Unit → σ → Prop} (h : ∀ s, pre s → post () (f s)) :
    Triple pre (Exec.update f) post fails := fun s hs => h s hs

theorem Triple.lift {r : Except ε α} (hok : ∀ a, r = .ok a → ∀ s, pre s → post a s)
    (herr : ∀ e, r = .error e → ∀ s, pre s → fails e s) :
    Triple pre (Exec.lift r) post fails := by
  intro s hs
  cases r with
  | ok a => exact hok a rfl s hs
  | error e => exact herr e rfl s hs

/-- A caught failure is a value like any other. -/
theorem Triple.attempt {post : Except ε α → σ → Prop}
    (h : Triple pre x (fun a => post (.ok a)) fun e => post (.error e)) :
    Triple pre (Exec.attempt x) post fails := by
  intro s hs
  have := h s hs
  rw [attempt_run]
  rcases hx : x s with ⟨_ | _, s'⟩
  · rw [hx] at this
    exact this
  · rw [hx] at this
    exact this

/-- The rule for a loop: `inv` speaks of the elements still to come. -/
theorem Triple.forEach {f : α → Exec σ ε Unit} (inv : List α → σ → Prop)
    (hstep : ∀ a l, Triple (inv (a :: l)) (f a) (fun _ => inv l) fails) (l : List α) :
    Triple (inv l) (Exec.forEach l f) (fun _ => inv []) fails := by
  induction l with
  | nil => exact Triple.pure fun s hs => hs
  | cons a l ih => exact (hstep a l).bind fun _ => ih

/-- The rule for a loop that carries a value: `inv` speaks of the elements already done. -/
theorem Triple.foldlM {f : β → α → Exec σ ε β} (inv : List α → β → σ → Prop) {l : List α}
    (hstep : ∀ done a rest, l = done ++ a :: rest → ∀ b,
      Triple (inv done b) (f b a) (inv (done ++ [a])) fails) {b : β} :
    Triple (inv [] b) (l.foldlM f b) (inv l) fails := by
  suffices h : ∀ rest done b, l = done ++ rest →
      Triple (inv done b) (rest.foldlM f b) (inv l) fails from h l [] b rfl
  intro rest
  induction rest with
  | nil =>
      intro done b hl
      rw [List.append_nil] at hl
      rw [hl]
      exact Triple.pure fun s hs => hs
  | cons a rest ih =>
      intro done b hl
      rw [List.foldlM_cons]
      refine (hstep done a rest hl b).bind fun b' => ih (done ++ [a]) b' ?_
      rw [hl, List.append_assoc]
      rfl

/-- A read leaves everything as it is. -/
theorem Triple.observes (f : σ → α) :
    Triple pre (Exec.reads f) (fun _ s => pre s) fails := Triple.reads fun _ hs => hs

/-- A fact of the precondition that does not depend on the state. -/
theorem Triple.of_fact {p : Prop} (h : p → Triple pre x post fails) :
    Triple (fun s => pre s ∧ p) x post fails := fun s hs => h hs.2 s hs.1

/-- A precondition that names something the postcondition does not speak of. -/
theorem Triple.of_exists {ι : Type} {pre : ι → σ → Prop}
    (h : ∀ i, Triple (pre i) x post fails) : Triple (fun s => ∃ i, pre i s) x post fails := by
  rintro s ⟨i, hs⟩
  exact h i s hs

/-- The rule for a loop that collects: what it collects is related to what it goes over. -/
theorem Triple.collect {P : σ → Prop} {R : α → β → Prop} {f : α → Exec σ ε β} {l : List α}
    (h : ∀ a ∈ l, Triple P (f a) (fun b s => P s ∧ R a b) fails) :
    Triple P (Exec.collect l f) (fun bs s => P s ∧ List.Forall₂ R l bs) fails := by
  induction l with
  | nil => exact Triple.pure fun s hs => ⟨hs, .nil⟩
  | cons a l ih =>
      refine (h a List.mem_cons_self).bind fun b => Triple.of_fact fun hb => ?_
      refine (ih fun a ha => h a (List.mem_cons_of_mem _ ha)).bind fun bs => ?_
      exact Triple.of_fact fun hbs => Triple.pure fun s hs => ⟨hs, .cons hb hbs⟩

/-- Lists that are related have related elements. -/
theorem exists_of_forall₂ {R : α → β → Prop} {l : List α} {l' : List β} (h : List.Forall₂ R l l')
    {a : α} (ha : a ∈ l) : ∃ b ∈ l', R a b := by
  induction h with
  | nil => cases ha
  | cons hab _ ih =>
      rcases List.mem_cons.1 ha with rfl | ha
      · exact ⟨_, List.mem_cons_self, hab⟩
      · obtain ⟨b, hb, hab⟩ := ih ha
        exact ⟨b, List.mem_cons_of_mem _ hb, hab⟩

/-- What a call that returned has established. -/
theorem Triple.of_ok (h : Triple pre x post fails) {s s' : σ} {a : α} (hs : pre s)
    (hx : x s = (.ok a, s')) : post a s' := by
  have := h s hs
  rw [hx] at this
  exact this

/-- What a call that failed has left. -/
theorem Triple.of_error (h : Triple pre x post fails) {s s' : σ} {e : ε} (hs : pre s)
    (hx : x s = (.error e, s')) : fails e s' := by
  have := h s hs
  rw [hx] at this
  exact this

/-! ## What a call returns -/

/-- Some state lets the computation return `a`. -/
def Yields (x : Exec σ ε α) (a : α) : Prop := ∃ s s', x s = (.ok a, s')

/-- The computation returns nothing but a value with `post`, whatever state it starts from. -/
def Returns (x : Exec σ ε α) (post : α → Prop) : Prop := ∀ a, x.Yields a → post a

/-- What a call returned, it can return. -/
theorem Triple.yields (h : Triple pre x post fails) :
    Triple pre x (fun a s => post a s ∧ x.Yields a) fails := by
  intro s hs
  have hpost := h s hs
  rcases hx : x s with ⟨e | a, s'⟩
  · rw [hx] at hpost
    exact hpost
  · rw [hx] at hpost
    exact ⟨hpost, s, s', hx⟩

section Returns

variable {post post' : α → Prop}

theorem Returns.of_run (h : x.Returns post) {s s' : σ} {a : α} (hx : x s = (.ok a, s')) :
    post a := h a ⟨s, s', hx⟩

theorem Returns.any : x.Returns fun _ => True := fun _ _ => trivial

theorem Returns.pure {a : α} (h : post a) : Returns (Pure.pure a : Exec σ ε α) post := by
  rintro a' ⟨s, s', hx⟩
  cases hx
  exact h

theorem Returns.fail {e : ε} : Returns (Exec.fail e : Exec σ ε α) post := by
  rintro a ⟨s, s', hx⟩
  cases hx

theorem Returns.lift {r : Except ε α} (h : ∀ a, r = .ok a → post a) :
    Returns (Exec.lift r : Exec σ ε α) post := by
  rintro a ⟨s, s', hx⟩
  exact h a (Prod.mk.inj hx).1

theorem Returns.bind {f : α → Exec σ ε β} {post : α → Prop} {post' : β → Prop}
    (hx : x.Returns post) (hf : ∀ a, post a → (f a).Returns post') : (x >>= f).Returns post' := by
  rintro b ⟨s, s'', hrun⟩
  obtain ⟨a, s', ha, hb⟩ := bind_eq_ok hrun
  exact hf a (hx a ⟨s, s', ha⟩) b ⟨s', s'', hb⟩

theorem Returns.attempt (h : x.Returns post) :
    Returns (Exec.attempt x) fun r => ∀ a, r = .ok a → post a := by
  rintro r ⟨s, s', hx⟩ a rfl
  exact h a ⟨s, s', attempt_eq_ok hx⟩

end Returns

/-! ## Invariants -/

/-- The computation keeps `inv`, whether it returns or fails. -/
def Keeps (inv : σ → Prop) (x : Exec σ ε α) : Prop := Triple inv x (fun _ => inv) fun _ => inv

variable {inv : σ → Prop}

theorem Keeps.snd (h : Keeps inv x) {s : σ} (hs : inv s) : inv (x s).2 := by
  have := h s hs
  rcases hx : x s with ⟨_ | _, s'⟩
  · rw [hx] at this
    exact this
  · rw [hx] at this
    exact this

theorem Keeps.pure (a : α) : Keeps inv (Pure.pure a : Exec σ ε α) := Triple.pure fun _ hs => hs

theorem Keeps.fail (e : ε) : Keeps inv (Exec.fail e : Exec σ ε α) := Triple.fail fun _ hs => hs

theorem Keeps.reads (f : σ → α) : Keeps inv (Exec.reads f : Exec σ ε α) :=
  Triple.reads fun _ hs => hs

theorem Keeps.query (f : σ → Except ε α) : Keeps inv (Exec.query f) := by
  intro s hs
  rw [query_run]
  cases f s with
  | ok a => exact hs
  | error e => exact hs

theorem Keeps.lift (r : Except ε α) : Keeps inv (Exec.lift r : Exec σ ε α) :=
  Triple.lift (fun _ _ _ hs => hs) fun _ _ _ hs => hs

theorem Keeps.update {f : σ → σ} (h : ∀ s, inv s → inv (f s)) :
    Keeps inv (Exec.update f : Exec σ ε Unit) := Triple.update h

theorem Keeps.bind {f : α → Exec σ ε β} (hx : Keeps inv x) (hf : ∀ a, Keeps inv (f a)) :
    Keeps inv (x >>= f) := Triple.bind hx hf

theorem Keeps.attempt (hx : Keeps inv x) : Keeps inv (Exec.attempt x) := Triple.attempt hx

theorem Keeps.forEach {f : α → Exec σ ε Unit} (hf : ∀ a, Keeps inv (f a)) (l : List α) :
    Keeps inv (Exec.forEach l f) := Triple.forEach (fun _ => inv) (fun a _ => hf a) l

theorem Keeps.collect {f : α → Exec σ ε β} (hf : ∀ a, Keeps inv (f a)) (l : List α) :
    Keeps inv (Exec.collect l f) := by
  induction l with
  | nil => exact Keeps.pure _
  | cons a l ih => exact (hf a).bind fun b => ih.bind fun bs => Keeps.pure _

theorem Keeps.foldlM {f : β → α → Exec σ ε β} (hf : ∀ b a, Keeps inv (f b a)) (l : List α) (b : β) :
    Keeps inv (l.foldlM f b) := by
  induction l generalizing b with
  | nil => exact Keeps.pure b
  | cons a l ih =>
      rw [List.foldlM_cons]
      exact (hf b a).bind ih

/-! ## Calls that fail without a trace -/

section FailsClean

variable {x : Exec σ ε α} {f : α → Exec σ ε β}

/-- A call that fails leaves the state as it was. -/
def FailsClean (x : Exec σ ε α) : Prop := ∀ s e s', x s = (.error e, s') → s' = s

theorem FailsClean.pure (a : α) : FailsClean (Pure.pure a : Exec σ ε α) := by
  intro s e s' h
  cases h

theorem FailsClean.fail (e : ε) : FailsClean (Exec.fail e : Exec σ ε α) := by
  intro s e s' h
  cases h
  rfl

theorem FailsClean.query_bind {q : σ → Except ε α} (h : ∀ a, FailsClean (f a)) :
    FailsClean (query q >>= f) := by
  intro s e s' hrun
  rw [bind_run, query_run] at hrun
  cases hq : q s with
  | ok a =>
      rw [hq] at hrun
      exact h a s e s' hrun
  | error e =>
      rw [hq] at hrun
      cases hrun
      rfl

theorem FailsClean.lift_bind {r : Except ε α} (h : ∀ a, FailsClean (f a)) :
    FailsClean (lift r >>= f) := FailsClean.query_bind (q := fun _ => r) h

theorem FailsClean.bind_pure {g : α → β} (h : FailsClean x) :
    FailsClean (x >>= fun a => Pure.pure (g a)) := by
  intro s e s' hrun
  rw [bind_run] at hrun
  rcases hx : x s with ⟨r, s₁⟩
  rw [hx] at hrun
  cases r with
  | ok a => cases hrun
  | error e =>
      cases hrun
      exact h s _ _ hx

end FailsClean

/-! ## Two runs side by side -/

section Lockstep

variable {R : σ → σ → Prop} {x : Exec σ ε α} {f : α → Exec σ ε β}

/-- From related states the computation comes out the same, in related states. -/
def Lockstep (R : σ → σ → Prop) (x : Exec σ ε α) : Prop :=
  ∀ s s', R s s' → (x s).1 = (x s').1 ∧ R (x s).2 (x s').2

theorem Lockstep.pure (a : α) : Lockstep R (Pure.pure a : Exec σ ε α) :=
  fun _ _ h => ⟨rfl, h⟩

theorem Lockstep.reads {g : σ → α} (hg : ∀ s s', R s s' → g s = g s') :
    Lockstep R (Exec.reads g : Exec σ ε α) :=
  fun s s' h => ⟨congrArg Except.ok (hg s s' h), h⟩

theorem Lockstep.update {g : σ → σ} (hg : ∀ s s', R s s' → R (g s) (g s')) :
    Lockstep R (Exec.update g : Exec σ ε Unit) :=
  fun s s' h => ⟨rfl, hg s s' h⟩

theorem Lockstep.bind (hx : Lockstep R x) (hf : ∀ a, Lockstep R (f a)) :
    Lockstep R (x >>= f) := by
  intro s s' h
  obtain ⟨hfst, hsnd⟩ := hx s s' h
  rw [bind_run, bind_run]
  rcases hxs : x s with ⟨r, t⟩
  rcases hxs' : x s' with ⟨r', t'⟩
  rw [hxs, hxs'] at hfst hsnd
  cases hfst
  cases r with
  | ok a => exact hf a t t' hsnd
  | error e => exact ⟨rfl, hsnd⟩

theorem Lockstep.attempt (hx : Lockstep R x) : Lockstep R (Exec.attempt x) :=
  fun s s' h => ⟨congrArg Except.ok (hx s s' h).1, (hx s s' h).2⟩

theorem Lockstep.forEach {g : α → Exec σ ε Unit} (hg : ∀ a, Lockstep R (g a)) (l : List α) :
    Lockstep R (Exec.forEach l g) := by
  induction l with
  | nil => exact Lockstep.pure ()
  | cons a l ih => exact (hg a).bind fun _ => ih

end Lockstep

end Exec
