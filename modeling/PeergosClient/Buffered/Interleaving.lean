import PeergosClient.Buffered.PointerHistory

/-!
# Writes made while a flush runs

A flush works from a snapshot of an owner's entries and then takes all of the owner's entries off
the list; at its end it clears both buffers.  An update another task makes in between is neither in
the snapshot nor on the list afterwards.

An update is *applied* if the server's pointer of its writer has since been at its root, at the root
of a later update of that writer, or at a merge of one of these with what other clients wrote.
Every update accepted before the flush is applied when the flush returns, and so is every update
accepted while it runs, as long as the flush reads the entries of that owner again afterwards.
-/

namespace Peergos

open Exec

variable {σ : Type}

/-! ## What became of an update -/

/-- The updates accepted in a part of a run. -/
def acceptedCalls : List (Event σ) → List SetCall
  | [] => []
  | .accepted call _ :: t => call :: acceptedCalls t
  | _ :: t => acceptedCalls t

/-- The entry carries the update `a`, or a later update of the same writer among those of `post`,
what happened after `a`. -/
def CarriedBy (a : SetCall) (post : List (Event σ)) (u : WriterUpdate) : Prop :=
  (u.owner = a.owner ∧ u.writer = a.writer) ∧
    ∃ b ∈ a :: acceptedCalls post, (b.owner = a.owner ∧ b.writer = a.writer) ∧
      u.update.updated = b.update.updated

/-- One of the entries carries the update. -/
def Carried (a : SetCall) (post : List (Event σ)) (entries : List WriterUpdate) : Prop :=
  ∃ u ∈ entries, CarriedBy a post u

/-- Since the update `a` was accepted, with the server in the state `s₀`, the server's pointer has
been where it leads, or where a later update of its writer does. -/
def Applied (c : Client σ) (history : PointerHistory σ) (a : SetCall) (s₀ : σ)
    (post : List (Event σ)) (s : σ) : Prop :=
  ∃ b ∈ a :: acceptedCalls post, (b.owner = a.owner ∧ b.writer = a.writer) ∧
    c.HasReached history s₀ s a.writer b.update.updated

/-- A block reachable from a root through buffered blocks. -/
inductive Refers (b : BufferedStorage) (root : Cid) : Cid → Prop
  | root : Refers b root root
  | link {parent cid : Cid} {block : BufferedBlock} (h : Refers b root parent)
      (hblock : b.lookup parent = some block) (hcid : cid ∈ blockLinks block.data block.isRaw) :
      Refers b root cid

/-- The update is on the list, and every block reachable from its root that the server does not hold
is in the buffer. -/
def StillBuffered (holds : σ → Cid → Prop) (a : SetCall) (post : List (Event σ)) (w : World σ) :
    Prop :=
  ∃ u ∈ w.pointers.updates, CarriedBy a post u ∧ ∀ root, u.update.updated = some root →
    ∀ cid, Refers w.blocks root cid → (∃ block, w.blocks.lookup cid = some block) ∨
      holds w.server cid

/-- `Q` holds of every accepted update, given its position, the state the server was in, and what
happened afterwards. -/
def ForAccepted (Q : ℕ → SetCall → σ → List (Event σ) → Prop) : ℕ → List (Event σ) → Prop
  | _, [] => True
  | n, .accepted a s :: t => Q n a s t ∧ ForAccepted Q (n + 1) t
  | n, _ :: t => ForAccepted Q (n + 1) t

/-- No update is lost: each is applied on the server or still in the buffer with its blocks. -/
def NoneLost (c : Client σ) (history : PointerHistory σ) (holds : σ → Cid → Prop) (w : World σ) :
    Prop :=
  ForAccepted (fun _ a s₀ post => Applied c history a s₀ post w.server ∨
    StillBuffered holds a post w) 0 w.trace

/-- Every update accepted from position `start` on is followed by a reading of its owner's
entries. -/
def ReadAgain (start : ℕ) (trace : List (Event σ)) : Prop :=
  ForAccepted (fun n a _ post => start ≤ n → .read a.owner ∈ post) 0 trace

instance decidableForAccepted (Q : ℕ → SetCall → σ → List (Event σ) → Prop)
    [∀ n a s post, Decidable (Q n a s post)] : ∀ n t, Decidable (ForAccepted Q n t)
  | _, [] => inferInstanceAs (Decidable True)
  | n, .accepted a s :: t =>
      haveI := decidableForAccepted Q (n + 1) t
      inferInstanceAs (Decidable (Q n a s t ∧ ForAccepted Q (n + 1) t))
  | n, .read _ :: t => decidableForAccepted Q (n + 1) t
  | n, .committed _ _ :: t => decidableForAccepted Q (n + 1) t
  | n, .retained _ :: t => decidableForAccepted Q (n + 1) t
  | n, .dropped _ :: t => decidableForAccepted Q (n + 1) t

instance [DecidableEq σ] (start : ℕ) (trace : List (Event σ)) : Decidable (ReadAgain start trace) :=
  inferInstanceAs (Decidable (ForAccepted _ 0 trace))

/-- The states of a client in a run in which every flush reads an owner's entries again after the
updates accepted meanwhile.  Between flushes other tasks act and the server moves on; a flush may
fail. -/
inductive ReadsAgain (c : Client σ) (history : PointerHistory σ) : World σ → Prop
  | fresh (s : σ) : ReadsAgain c history (World.fresh s)
  | act {w : World σ} (h : ReadsAgain c history w) (a : Action) : ReadsAgain c history (c.act w a)
  | others {w : World σ} (h : ReadsAgain c history w) (script : List (List Action)) :
      ReadsAgain c history { w with others := script }
  | server {w : World σ} (h : ReadsAgain c history w) {s : σ} (hs : history.Grows w.server s) :
      ReadsAgain c history { w with server := s }
  | flush {w : World σ} (h : ReadsAgain c history w) (defaultOwner : PublicKeyHash)
      (hread : ReadAgain w.trace.length (c.flush defaultOwner w).2.trace) :
      ReadsAgain c history (c.flush defaultOwner w).2

/-! ## One more event -/

theorem acceptedCalls_append (t t' : List (Event σ)) :
    acceptedCalls (t ++ t') = acceptedCalls t ++ acceptedCalls t' := by
  induction t with
  | nil => rfl
  | cons e t ih => cases e <;> simp [acceptedCalls, ih]

theorem mem_acceptedCalls_append {a b : SetCall} {post : List (Event σ)}
    (h : b ∈ a :: acceptedCalls post) (t : List (Event σ)) :
    b ∈ a :: acceptedCalls (post ++ t) := by
  rw [acceptedCalls_append]
  exact List.mem_append_left _ h

section Events

variable {c : Client σ} {history : PointerHistory σ} {a : SetCall} {post : List (Event σ)}
  {entries l : List WriterUpdate} {s₀ s s' : σ}

theorem Carried.later (h : Carried a post entries) (t : List (Event σ)) :
    Carried a (post ++ t) entries := by
  obtain ⟨u, hu, hkey, b, hb, hb', htarget⟩ := h
  exact ⟨u, hu, hkey, b, mem_acceptedCalls_append hb t, hb', htarget⟩

theorem Applied.later (h : Applied c history a s₀ post s) (t : List (Event σ)) :
    Applied c history a s₀ (post ++ t) s := by
  obtain ⟨b, hb, hkey, hreached⟩ := h
  exact ⟨b, mem_acceptedCalls_append hb t, hkey, hreached⟩

/-- The server moves on. -/
theorem Applied.grow (h : Applied c history a s₀ post s) (h₀ : history.Grows s₀ s)
    (hs : history.Grows s s') : Applied c history a s₀ post s' := by
  obtain ⟨b, hb, hkey, hreached⟩ := h
  exact ⟨b, hb, hkey, hreached.later h₀ hs⟩

/-- An update carried by entries that have been reached is applied. -/
theorem Carried.applied (h : Carried a post entries) (h₀ : history.Grows s₀ s) {w : World σ}
    (hreached : c.AllReached history s entries w) :
    Applied c history a s₀ post w.server := by
  obtain ⟨u, hu, hkey, b, hb, hb', htarget⟩ := h
  have hu' := hreached.2 u hu
  rw [hkey.2, htarget] at hu'
  exact ⟨b, hb, hb', hu'.earlier h₀⟩

/-- A further write keeps an update on the list: the entry that carried it may have moved on, to
the root of the new write. -/
theorem Carried.addWrite (h : Carried a post l) (call : SetCall) (s : σ) :
    Carried a (post ++ [.accepted call s]) (addWrite l call) := by
  obtain ⟨u, hu, hkey, b, hb, hb', htarget⟩ := h
  have hb := mem_acceptedCalls_append hb [.accepted call s]
  have hcall : call ∈ a :: acceptedCalls (post ++ [.accepted call s]) := by
    rw [acceptedCalls_append]
    exact List.mem_cons_of_mem _ (List.mem_append_right _ (List.mem_singleton_self _))
  rcases addWrite_cases l call with ⟨l', last, rfl, hwriter, howner, heq⟩ | heq
  · rw [heq]
    rcases List.mem_append.1 hu with hu | hu
    · exact ⟨u, List.mem_append_left _ hu, hkey, b, hb, hb', htarget⟩
    · obtain rfl := List.mem_singleton.1 hu
      exact ⟨_, List.mem_append_right _ (List.mem_singleton_self _), hkey, call, hcall,
        ⟨howner.symm.trans hkey.1, hwriter.symm.trans hkey.2⟩, rfl⟩
  · rw [heq]
    exact ⟨u, List.mem_append_left _ hu, hkey, b, hb, hb', htarget⟩

theorem carried_addWrite_self (call : SetCall) (l : List WriterUpdate) :
    Carried call ([] : List (Event σ)) (addWrite l call) := by
  rcases addWrite_cases l call with ⟨l', last, rfl, hwriter, howner, heq⟩ | heq
  · rw [heq]
    exact ⟨_, List.mem_append_right _ (List.mem_singleton_self _), ⟨howner, hwriter⟩, call,
      List.mem_cons_self, ⟨rfl, rfl⟩, rfl⟩
  · rw [heq]
    exact ⟨_, List.mem_append_right _ (List.mem_singleton_self _), ⟨rfl, rfl⟩, call,
      List.mem_cons_self, ⟨rfl, rfl⟩, rfl⟩

/-- Every entry names the writer of its signer. -/
def BySigner (entries : List WriterUpdate) : Prop :=
  ∀ u ∈ entries, u.signer.publicKeyHash = u.writer

theorem BySigner.addWrite (h : BySigner l) (call : SetCall) : BySigner (addWrite l call) := by
  rcases addWrite_cases l call with ⟨l', last, rfl, -, -, heq⟩ | heq
  · rw [heq]
    intro u hu
    rcases List.mem_append.1 hu with hu | hu
    · exact h u (List.mem_append_left _ hu)
    · obtain rfl := List.mem_singleton.1 hu
      exact h last (List.mem_append_right _ (List.mem_singleton_self _))
  · rw [heq]
    intro u hu
    rcases List.mem_append.1 hu with hu | hu
    · exact h u hu
    · obtain rfl := List.mem_singleton.1 hu
      rfl

end Events

section ForAccepted

variable {Q Q' : ℕ → SetCall → σ → List (Event σ) → Prop} {n : ℕ} {t : List (Event σ)}

theorem ForAccepted.mono (hQ : ∀ n a s post, Q n a s post → Q' n a s post)
    (h : ForAccepted Q n t) : ForAccepted Q' n t := by
  induction t generalizing n with
  | nil => trivial
  | cons e t ih =>
      cases e with
      | accepted a s => exact ⟨hQ n a s t h.1, ih h.2⟩
      | _ => exact ih h

/-- Both of two facts that hold of every accepted update. -/
theorem ForAccepted.and (h : ForAccepted Q n t) (h' : ForAccepted Q' n t) :
    ForAccepted (fun n a s post => Q n a s post ∧ Q' n a s post) n t := by
  induction t generalizing n with
  | nil => trivial
  | cons e t ih =>
      cases e with
      | accepted a s => exact ⟨⟨h.1, h'.1⟩, ih h.2 h'.2⟩
      | _ => exact ih h h'

/-- One more event: what held of the earlier updates must survive it, and hold of the update it
accepts, if it does. -/
theorem ForAccepted.concat {e : Event σ} (h : ForAccepted Q n t)
    (hold : ∀ m a s post, Q m a s post → Q' m a s (post ++ [e]))
    (hnew : ∀ a s, e = .accepted a s → Q' (n + t.length) a s []) : ForAccepted Q' n (t ++ [e]) := by
  induction t generalizing n with
  | nil =>
      cases e with
      | accepted a s => exact ⟨hnew a s rfl, trivial⟩
      | _ => trivial
  | cons e' t ih =>
      have hlen : n + 1 + t.length = n + (e' :: t).length := by
        rw [List.length_cons]
        omega
      cases e' with
      | accepted a s => exact ⟨hold n a s t h.1, ih h.2 (hlen ▸ hnew)⟩
      | _ => exact ih h (hlen ▸ hnew)

/-- What holds of every accepted update holds of one of them. -/
theorem ForAccepted.of_append {before : List (Event σ)} {a : SetCall} {s : σ}
    (h : ForAccepted Q n (before ++ .accepted a s :: t)) : Q (n + before.length) a s t := by
  induction before generalizing n with
  | nil => exact h.1
  | cons e before ih =>
      have hlen : n + 1 + before.length = n + (e :: before).length := by
        rw [List.length_cons]
        omega
      rw [← hlen]
      cases e with
      | accepted b s' => exact ih h.2
      | _ => exact ih h

end ForAccepted

/-! ## The invariant of a flush -/

section Invariant

variable {c : Client σ} {history : PointerHistory σ}

/-- What may have become of an update, `start` being where the flush began: it is applied, its
owner's turn is still to come and it is on the list, it was accepted before the server was in the
state `snap` and is among the entries being sent since, or it was accepted after the flush last read
its owner's entries. -/
inductive Fate (c : Client σ) (history : PointerHistory σ) (start : ℕ) (rest : List PublicKeyHash)
    (sent : List WriterUpdate) (snap : σ) (w : World σ) (n : ℕ) (a : SetCall) (s₀ : σ)
    (post : List (Event σ)) : Prop
  | applied (h : Applied c history a s₀ post w.server)
  | listed (howner : a.owner ∈ rest) (h : Carried a post w.pointers.updates)
  | sent (h : Carried a post sent) (hs : history.Grows s₀ snap)
  | late (howner : a.owner ∉ rest) (hstart : start ≤ n) (h : .read a.owner ∉ post)

/-- Every accepted update has one of these fates. -/
structure Covered (c : Client σ) (history : PointerHistory σ) (start : ℕ)
    (rest : List PublicKeyHash) (sent : List WriterUpdate) (snap : σ) (w : World σ) : Prop where
  started : start ≤ w.trace.length
  signed : BySigner w.pointers.updates
  fates : ForAccepted (fun n a s₀ post => history.Grows s₀ w.server ∧
    Fate c history start rest sent snap w n a s₀ post) 0 w.trace

variable {start n : ℕ} {rest : List PublicKeyHash} {sent : List WriterUpdate} {snap s₀ : σ}
  {a : SetCall} {post : List (Event σ)} {owner : PublicKeyHash} {w : World σ}

/-- An event that neither accepts nor reads nor changes the list. -/
theorem Fate.later (h : Fate c history start rest sent snap w n a s₀ post) (e : Event σ)
    (he : ∀ owner ∉ rest, e ≠ .read owner) :
    Fate c history start rest sent snap (w.record e) n a s₀ (post ++ [e]) := by
  cases h with
  | applied h => exact .applied (h.later _)
  | listed howner h => exact .listed howner (h.later _)
  | sent h hs => exact .sent (h.later _) hs
  | late howner hstart h =>
      refine .late howner hstart fun hmem => ?_
      rcases List.mem_append.1 hmem with hmem | hmem
      · exact h hmem
      · exact he a.owner howner (List.mem_singleton.1 hmem).symm

theorem Covered.record (h : Covered c history start rest sent snap w) {e : Event σ}
    (he : ∀ owner ∉ rest, e ≠ .read owner) (hnew : ∀ call s, e ≠ .accepted call s) :
    Covered c history start rest sent snap (w.record e) where
  started := h.started.trans (by simp [World.record])
  signed := h.signed
  fates := h.fates.concat (fun _ _ _ _ hfate => ⟨hfate.1, hfate.2.later e he⟩)
    fun a s ha => absurd ha (hnew a s)

/-- Another task's write, at any await point. -/
theorem Covered.accept (h : Covered c history start rest sent snap w) (call : SetCall) :
    Covered c history start rest sent snap (w.accept call) := by
  refine ⟨h.started.trans (by simp [World.accept, World.record]), h.signed.addWrite call,
    h.fates.concat ?_ ?_⟩
  · rintro m a s₀ post ⟨h₀, hfate⟩
    refine ⟨h₀, ?_⟩
    cases hfate with
    | applied h => exact .applied (h.later _)
    | listed howner h => exact .listed howner (h.addWrite call w.server)
    | sent h hs => exact .sent (h.later _) hs
    | late howner hstart h => exact .late howner hstart (by simpa using h)
  · rintro a s ⟨⟩
    refine ⟨.refl _, ?_⟩
    by_cases howner : call.owner ∈ rest
    · exact .listed howner (carried_addWrite_self call _)
    · exact .late howner (by simpa using h.started) List.not_mem_nil

/-- The server moves on. -/
theorem Covered.grow (h : Covered c history start rest sent snap w) {s : σ}
    (hs : history.Grows w.server s) :
    Covered c history start rest sent snap { w with server := s } := by
  refine ⟨h.started, h.signed, h.fates.mono ?_⟩
  rintro n a s₀ post ⟨h₀, hfate⟩
  refine ⟨h₀.trans hs, ?_⟩
  cases hfate with
  | applied h => exact .applied (h.grow h₀ hs)
  | listed howner h => exact .listed howner h
  | sent h hs => exact .sent h hs
  | late howner hstart h => exact .late howner hstart h

/-- What neither the list nor the server nor the trace has to do with. -/
theorem Covered.congr (h : Covered c history start rest sent snap w) {w' : World σ}
    (hpointers : w'.pointers.updates = w.pointers.updates) (hserver : w'.server = w.server)
    (htrace : w'.trace = w.trace) : Covered c history start rest sent snap w' := by
  refine ⟨htrace ▸ h.started, hpointers ▸ h.signed, htrace ▸ h.fates.mono ?_⟩
  rintro n a s₀ post ⟨h₀, hfate⟩
  refine ⟨hserver ▸ h₀, ?_⟩
  cases hfate with
  | applied h => exact .applied (hserver ▸ h)
  | listed howner h => exact .listed howner (hpointers ▸ h)
  | sent h hs => exact .sent h hs
  | late howner hstart h => exact .late howner hstart h

theorem covered_stable (c : Client σ) (history : PointerHistory σ) (start : ℕ)
    (rest : List PublicKeyHash) (sent : List WriterUpdate) (snap : σ) :
    Stable history.Grows (Covered c history start rest sent snap) where
  server h _ hs := h.grow hs
  blocks h _ := h.congr rfl rfl rfl
  others h _ := h.congr rfl rfl rfl
  accept h call := h.accept call

/-- A snapshot of an owner's entries carries everything of the owner that is on the list. -/
theorem Covered.snapshot (h : Covered c history start (owner :: rest) [] snap w) :
    Covered c history start rest (w.pointers.writesFor owner) w.server w := by
  refine ⟨h.started, h.signed, h.fates.mono ?_⟩
  rintro n a s₀ post ⟨h₀, hfate⟩
  refine ⟨h₀, ?_⟩
  cases hfate with
  | applied h => exact .applied h
  | sent h _ => exact absurd h (by rintro ⟨u, hu, _⟩; exact List.not_mem_nil hu)
  | late howner hstart h =>
      exact .late (fun hmem => howner (List.mem_cons_of_mem _ hmem)) hstart h
  | listed howner hcarried =>
      rcases List.mem_cons.1 howner with rfl | howner
      · obtain ⟨u, hu, hkey, hb⟩ := hcarried
        exact .sent ⟨u, List.mem_filter.2 ⟨hu, decide_eq_true hkey.1⟩, hkey, hb⟩ h₀
      · exact .listed howner hcarried

/-- The entries of the snapshot have been reached. -/
theorem Covered.commit (h : Covered c history start rest sent s₀ w)
    (hreached : c.AllReached history s₀ sent w) : Covered c history start rest [] snap w := by
  refine ⟨h.started, h.signed, h.fates.mono ?_⟩
  rintro n a s₁ post ⟨h₁, hfate⟩
  refine ⟨h₁, ?_⟩
  cases hfate with
  | sent h hs => exact .applied (h.applied hs hreached)
  | applied h => exact .applied h
  | listed hrest h => exact .listed hrest h
  | late hrest hstart h => exact .late hrest hstart h

/-- The entries of an owner whose turn is over are taken off the list. -/
theorem Covered.remove (h : Covered c history start rest [] snap w) (howner : owner ∉ rest)
    {p : BufferedPointers} (hp : p.updates = w.pointers.updates.filter fun u => u.owner ≠ owner) :
    Covered c history start rest [] snap { w with pointers := p } := by
  refine ⟨h.started, ?_, h.fates.mono ?_⟩
  · intro u hu
    exact h.signed u (List.mem_filter.1 (hp ▸ hu)).1
  rintro n a s₀ post ⟨h₀, hfate⟩
  refine ⟨h₀, ?_⟩
  cases hfate with
  | applied h => exact .applied h
  | sent h hs => exact .sent h hs
  | late hrest hstart h => exact .late hrest hstart h
  | listed hrest hcarried =>
      obtain ⟨u, hu, hkey, hb⟩ := hcarried
      have hne : u.owner ≠ owner := fun heq => howner (heq ▸ hkey.1 ▸ hrest)
      refine .listed hrest ⟨u, ?_, hkey, hb⟩
      show u ∈ p.updates
      rw [hp]
      exact List.mem_filter.2 ⟨hu, decide_eq_true hne⟩

/-! ## One owner's turn -/

/-- Recording a reading of an owner whose turn it is. -/
theorem Covered.read (h : Covered c history start (owner :: rest) [] snap w) :
    Covered c history start (owner :: rest) [] snap (w.record (.read owner)) :=
  h.record (fun o ho heq => ho (by cases heq; exact List.mem_cons_self)) (by rintro _ _ ⟨⟩)

/-- A flush that has come to some point and sends nothing. -/
def Midway (c : Client σ) (history : PointerHistory σ) (start : ℕ) (snap : σ) (w : World σ) :
    Prop :=
  ∃ rest, Covered c history start rest [] snap w

/-- The snapshot of an owner's entries is being sent: it is still on the list, and from the state
`s` on the server only moves forward. -/
structure Sending (c : Client σ) (history : PointerHistory σ) (start : ℕ) (owner : PublicKeyHash)
    (rest : List PublicKeyHash) (writes : List WriterUpdate) (snap s : σ) (w : World σ) : Prop where
  listed : Covered c history start (owner :: rest) [] snap w
  sent : Covered c history start rest writes s w
  grows : history.Grows s w.server

theorem sending_stable (writes : List WriterUpdate) (s : σ) :
    Stable history.Grows (Sending c history start owner rest writes snap s) where
  server h _ hs := ⟨h.listed.grow hs, h.sent.grow hs, h.grows.trans hs⟩
  blocks h _ := ⟨h.listed.congr rfl rfl rfl, h.sent.congr rfl rfl rfl, h.grows⟩
  others h _ := ⟨h.listed.congr rfl rfl rfl, h.sent.congr rfl rfl rfl, h.grows⟩
  accept h call := ⟨h.listed.accept call, h.sent.accept call, h.grows⟩

/-- Reading the entries of an owner. -/
theorem reads_writesFor {β : Type} {f : List WriterUpdate → Exec (World σ) Fault β}
    {post : β → World σ → Prop} {fails : Fault → World σ → Prop}
    (h : ∀ writes s, (∀ u ∈ writes, u.owner = owner) → BySigner writes →
      Triple (Sending c history start owner rest writes snap s) (f writes) post fails) :
    Triple (Covered c history start (owner :: rest) [] snap)
      (Exec.reads (fun w : World σ => w.pointers.writesFor owner) >>= f) post fails := by
  refine Triple.bind (m := fun writes w => ∃ s, Sending c history start owner rest writes snap s w ∧
    (∀ u ∈ writes, u.owner = owner) ∧ BySigner writes) (Triple.reads fun w h => ?_) fun writes =>
      Triple.of_exists fun s => Triple.of_fact fun hwrites => h writes s hwrites.1 hwrites.2
  exact ⟨w.server, ⟨h, h.snapshot, .refl _⟩, fun u => owner_of_mem_writesFor,
    fun u hu => h.signed u (List.mem_filter.1 hu).1⟩

/-- `commit_pointers`. -/
theorem Client.commitPointers_covered (hT : c.target.KeepsHistory history) (howner : owner ∉ rest) :
    Triple (Covered c history start (owner :: rest) [] snap) (c.commitPointers owner)
      (fun _ => Covered c history start rest [] snap) fun _ => Midway c history start snap := by
  refine reads_writesFor fun writes s _ hsigned => ?_
  refine Triple.bind ((Client.forEach_reaches hT (sending_stable writes s)
    (fun _ h => h.grows) hsigned).mono (fun _ h => h) (fun _ _ h => h)
    fun _ _ h => ⟨_, h.listed⟩) fun _ => ?_
  refine Triple.bind (m := fun _ => Covered c history start rest [] snap)
    (Triple.update fun w h => ?_) fun _ => Triple.update fun w h => ?_
  · exact (h.1.sent.commit h.2).record (by rintro _ _ ⟨⟩) (by rintro _ _ ⟨⟩)
  · exact (h.remove howner rfl).record (by rintro _ _ ⟨⟩) (by rintro _ _ ⟨⟩)

/-- The old endpoints. -/
theorem Client.commitOwner_covered (hT : c.target.KeepsHistory history) (howner : owner ∉ rest) :
    Triple (Covered c history start (owner :: rest) [] snap) (c.commitOwner owner)
      (fun _ => Covered c history start rest [] snap) fun _ => Midway c history start snap := by
  have hstable := covered_stable c history start (owner :: rest) [] snap
  have hstable' := covered_stable c history start rest [] snap
  have hmidway : ∀ {α : Type} {x : Exec (World σ) Fault α},
      Keeps (Covered c history start (owner :: rest) [] snap) x →
        Triple (Covered c history start (owner :: rest) [] snap) x
          (fun _ => Covered c history start (owner :: rest) [] snap)
          fun _ => Midway c history start snap := fun hx =>
    hx.mono (fun _ h => h) (fun _ _ h => h) fun _ _ h => ⟨_, h⟩
  refine Triple.bind (hmidway (Keeps.update fun w h => h.read)) fun _ => ?_
  refine Triple.bind (hmidway (Keeps.reads _)) fun roots => ?_
  refine Triple.bind (hmidway (Client.keeps_await hstable (hT.follows.start owner))) fun tid => ?_
  refine Triple.bind (hmidway (Client.keeps_commitBlocks hT.follows hstable owner roots tid))
    fun _ => ?_
  refine Triple.bind (Client.commitPointers_covered hT howner) fun _ => ?_
  refine Triple.bind ((Client.keeps_await hstable' (hT.follows.close owner tid)).mono
    (fun _ h => h) (fun _ _ h => h) fun _ _ h => ⟨_, h⟩) fun _ => Triple.pure fun _ h => h

/-- The bulk path: what it sends is applied if the server takes it, and on the list if not. -/
theorem Client.bulkCommitOwner_covered (hT : c.target.KeepsHistory history) :
    Triple (Covered c history start (owner :: rest) [] snap) (c.bulkCommitOwner owner)
      (fun _ => Covered c history start rest [] snap)
      fun _ => Covered c history start (owner :: rest) [] snap := by
  refine Triple.bind (Keeps.update fun w h => h.read) fun _ => ?_
  refine reads_writesFor fun writes s _ _ => ?_
  refine Triple.bind ((Client.bulkSendAny_reaches hT (sending_stable writes s)
    (fun _ h => h.grows) writes).mono (fun _ h => h) (fun _ _ h => h) fun _ _ h => h.listed)
    fun _ => ?_
  exact Triple.update fun w h =>
    (h.1.sent.commit h.2).record (by rintro _ _ ⟨⟩) (by rintro _ _ ⟨⟩)

theorem Client.tryBulk_covered (hT : c.target.KeepsHistory history) (howner : owner ∉ rest) :
    Triple (Covered c history start (owner :: rest) [] snap) (c.tryBulk owner)
      (fun done => Covered c history start (if done then rest else owner :: rest) [] snap)
      fun _ => Midway c history start snap := by
  refine Triple.bind (m := fun _ => Covered c history start (owner :: rest) [] snap)
    (Triple.observes _) fun unsupported => ?_
  split
  · exact Triple.pure fun w h => h
  · refine Triple.bind (m := fun result => Covered c history start
      (Except.casesOn result (fun _ => owner :: rest) fun _ => rest) [] snap)
      (Triple.attempt (Client.bulkCommitOwner_covered hT)) fun result => ?_
    cases result with
    | ok _ =>
        refine Triple.bind (m := fun _ => Covered c history start rest [] snap)
          (Triple.update fun w h => ?_) fun _ => Triple.pure fun w h => h
        exact (h.remove howner rfl).record (by rintro _ _ ⟨⟩) (by rintro _ _ ⟨⟩)
    | error f =>
        cases f with
        | err e =>
            unfold Client.afterBulk
            dsimp only
            split
            · refine Triple.bind (m := fun _ => Covered c history start (owner :: rest) [] snap)
                (Triple.update fun w h => h.congr rfl rfl rfl) fun _ => ?_
              exact Triple.pure fun w h => h
            · split
              · exact Triple.pure fun w h => h
              · exact Triple.fail fun _ h => ⟨_, h⟩
        | panic => exact Triple.fail fun _ h => ⟨_, h⟩
        | fuel => exact Triple.fail fun _ h => ⟨_, h⟩

theorem Client.flushOwner_covered (hT : c.target.KeepsHistory history) (howner : owner ∉ rest) :
    Triple (Covered c history start (owner :: rest) [] snap) (c.flushOwner owner)
      (fun _ => Covered c history start rest [] snap) fun _ => Midway c history start snap := by
  refine Triple.bind (Client.tryBulk_covered hT howner) fun done => ?_
  cases done with
  | true => exact Triple.pure fun w h => h
  | false => exact Client.commitOwner_covered hT howner

/-! ## The whole flush -/

theorem nodup_owners (p : BufferedPointers) : p.owners.Nodup := by
  suffices h : ∀ (l : List WriterUpdate) (res : List PublicKeyHash), res.Nodup →
      (l.foldl (fun res u => if u.owner ∈ res then res else res ++ [u.owner]) res).Nodup from
    h p.updates [] List.nodup_nil
  intro l
  induction l with
  | nil => exact fun res h => h
  | cons u l ih =>
      intro res h
      refine ih _ ?_
      dsimp only
      split
      · exact h
      · rename_i hmem
        rw [← List.concat_eq_append]
        exact h.concat hmem

/-- What holds of a client between flushes: the server has only moved forward, and every accepted
update is applied or on the list. -/
structure Accounted (c : Client σ) (history : PointerHistory σ) (w : World σ) : Prop where
  signed : BySigner w.pointers.updates
  fates : ForAccepted (fun _ a s₀ post => history.Grows s₀ w.server ∧
    (Applied c history a s₀ post w.server ∨ Carried a post w.pointers.updates)) 0 w.trace

/-- The turns of all owners. -/
theorem Accounted.covered (h : Accounted c history w) {owners : List PublicKeyHash}
    (howners : ∀ u ∈ w.pointers.updates, u.owner ∈ owners) (snap : σ) :
    Covered c history w.trace.length owners [] snap w := by
  refine ⟨le_refl _, h.signed, h.fates.mono ?_⟩
  rintro _ a s₀ post ⟨h₀, happlied | hcarried⟩
  · exact ⟨h₀, .applied happlied⟩
  · obtain ⟨u, hu, hkey, _⟩ := id hcarried
    exact ⟨h₀, .listed (hkey.1 ▸ howners u hu) hcarried⟩

/-- A flush between two turns, if every update accepted in it is followed by a reading. -/
theorem Covered.settled {rest : List PublicKeyHash} (h : Covered c history start rest [] snap w)
    (hread : ReadAgain start w.trace) : Accounted c history w := by
  refine ⟨h.signed, (h.fates.and hread).mono ?_⟩
  rintro n a s₀ post ⟨⟨h₀, hfate⟩, hread⟩
  refine ⟨h₀, ?_⟩
  cases hfate with
  | applied h => exact Or.inl h
  | listed _ h => exact Or.inr h
  | sent h _ =>
      obtain ⟨u, hu, _⟩ := h
      exact absurd hu List.not_mem_nil
  | late _ hstart h => exact absurd (hread hstart) h

/-- The owners a flush goes through. -/
def turns (defaultOwner : PublicKeyHash) (p : BufferedPointers) : List PublicKeyHash :=
  if p.owners = [] then [defaultOwner] else p.owners

theorem nodup_turns (defaultOwner : PublicKeyHash) (p : BufferedPointers) :
    (turns defaultOwner p).Nodup := by
  unfold turns
  split
  · exact List.nodup_singleton _
  · exact nodup_owners p

theorem mem_turns (defaultOwner : PublicKeyHash) {p : BufferedPointers} {u : WriterUpdate}
    (hu : u ∈ p.updates) : u.owner ∈ turns defaultOwner p := by
  have hmem : u.owner ∈ p.owners := mem_owners.2 ⟨u, hu, rfl⟩
  unfold turns
  rwa [if_neg (List.ne_nil_of_mem hmem)]

/-- The turns of all owners of a flush. -/
theorem Client.forEach_covered (hT : c.target.KeepsHistory history) (owners : List PublicKeyHash) :
    Triple (fun w => Covered c history start owners [] snap w ∧ owners.Nodup)
      (Exec.forEach owners c.flushOwner)
      (fun _ w => Covered c history start [] [] snap w ∧ ([] : List PublicKeyHash).Nodup)
      fun _ => Midway c history start snap :=
  Triple.forEach (fun rest w => Covered c history start rest [] snap w ∧ rest.Nodup)
    (fun _ _ => Triple.of_fact fun hdistinct =>
      (Client.flushOwner_covered hT (List.nodup_cons.1 hdistinct).1).mono (fun _ h => h)
        (fun _ _ h => ⟨h, (List.nodup_cons.1 hdistinct).2⟩) fun _ _ h => h) owners

/-- A flush that returned has taken every owner's turn and cleared both buffers; one that failed
stopped at some point. -/
theorem Client.flush_covered (hT : c.target.KeepsHistory history) (defaultOwner : PublicKeyHash)
    (h : Accounted c history w) :
    match c.flush defaultOwner w with
    | (.ok _, w') => ∃ w₁, Covered c history w.trace.length [] [] w.server w₁ ∧
        w' = { w₁ with blocks := w₁.blocks.clear, pointers := w₁.pointers.clear }
    | (.error _, w') => Midway c history w.trace.length w.server w' := by
  have hstart := Client.forEach_covered hT (turns defaultOwner w.pointers) w
    ⟨h.covered (fun _ hu => mem_turns defaultOwner hu) w.server, nodup_turns _ _⟩
  show match (Exec.forEach (turns defaultOwner w.pointers) c.flushOwner >>= fun _ =>
    Exec.update fun w => { w with blocks := w.blocks.clear, pointers := w.pointers.clear }) w with
    | (.ok _, w') => _
    | (.error _, w') => _
  rcases hrun : Exec.forEach (turns defaultOwner w.pointers) c.flushOwner w with ⟨r, w₁⟩
  rw [hrun] at hstart
  cases r with
  | ok _ =>
      rw [Exec.bind_of_ok hrun]
      exact ⟨w₁, hstart.1, rfl⟩
  | error e =>
      rw [Exec.bind_of_error hrun]
      exact hstart

/-- After a flush that returned, every update accepted so far is applied. -/
theorem Accounted.applied (hT : c.target.KeepsHistory history) (h : Accounted c history w)
    {defaultOwner : PublicKeyHash} {w' : World σ} (hflush : c.flush defaultOwner w = (.ok (), w'))
    (hread : ReadAgain w.trace.length w'.trace) :
    w'.pointers.updates = [] ∧ ForAccepted (fun _ a s₀ post => history.Grows s₀ w'.server ∧
      Applied c history a s₀ post w'.server) 0 w'.trace := by
  have hflushed := Client.flush_covered hT defaultOwner h
  rw [hflush] at hflushed
  obtain ⟨w₁, hcovered, rfl⟩ := hflushed
  refine ⟨rfl, (hcovered.fates.and hread).mono ?_⟩
  rintro n a s₀ post ⟨⟨h₀, hfate⟩, hread⟩
  refine ⟨h₀, ?_⟩
  cases hfate with
  | applied h => exact h
  | listed howner _ => exact absurd howner List.not_mem_nil
  | sent h _ =>
      obtain ⟨u, hu, _⟩ := h
      exact absurd hu List.not_mem_nil
  | late _ hstart h => exact absurd (hread hstart) h

/-! ## Runs -/

theorem Accounted.accept (h : Accounted c history w) (call : SetCall) :
    Accounted c history (w.accept call) := by
  refine ⟨h.signed.addWrite call, h.fates.concat ?_ ?_⟩
  · rintro m a s₀ post ⟨h₀, hfate⟩
    exact ⟨h₀, hfate.imp (fun h => h.later _) fun h => h.addWrite call w.server⟩
  · rintro a s ⟨⟩
    exact ⟨.refl _, Or.inr (carried_addWrite_self call _)⟩

theorem accounted_stable : Stable history.Grows (Accounted c history) where
  server h _ hs := ⟨h.signed, h.fates.mono fun _ _ _ _ hfate =>
    ⟨hfate.1.trans hs, hfate.2.imp_left fun happlied => happlied.grow hfate.1 hs⟩⟩
  blocks h _ := ⟨h.signed, h.fates⟩
  others h _ := ⟨h.signed, h.fates⟩
  accept h call := h.accept call

/-- What one flush leaves. -/
theorem Accounted.flush (hT : c.target.KeepsHistory history) (h : Accounted c history w)
    (defaultOwner : PublicKeyHash)
    (hread : ReadAgain w.trace.length (c.flush defaultOwner w).2.trace) :
    Accounted c history (c.flush defaultOwner w).2 := by
  have hflushed := Client.flush_covered hT defaultOwner h
  rcases hrun : c.flush defaultOwner w with ⟨r, w'⟩
  rw [hrun] at hflushed hread
  cases r with
  | ok _ =>
      obtain ⟨hempty, hall⟩ := h.applied hT hrun hread
      refine ⟨fun u hu => ?_, hall.mono fun _ _ _ _ happlied => ⟨happlied.1, Or.inl happlied.2⟩⟩
      rw [hempty] at hu
      exact absurd hu List.not_mem_nil
  | error e =>
      obtain ⟨rest, hcovered⟩ := hflushed
      exact hcovered.settled hread

/-- Every state of a run in which the flushes read again. -/
theorem ReadsAgain.settled (hT : c.target.KeepsHistory history) (h : ReadsAgain c history w) :
    Accounted c history w := by
  induction h with
  | fresh s => exact ⟨fun u hu => absurd hu List.not_mem_nil, trivial⟩
  | act _ a ih => exact Client.act_stable accounted_stable ih a
  | others _ script ih => exact accounted_stable.others ih script
  | server _ hs ih => exact accounted_stable.server ih hs
  | flush _ defaultOwner hread ih => exact ih.flush hT defaultOwner hread

end Invariant

/-- The client of a server that has `bulk/commit`. -/
def bulkClient : Client RamServer := RamServer.client Sha256.sha256 true

/-- Two owners with an entry each, and another task that makes one more write at the first await
point. -/
def twoOwners (call : SetCall) : World RamServer :=
  { ((World.fresh .empty).accept ⟨byteKey 1, byteSigner 3, ⟨none, some (byteCid 10), some 1⟩⟩).accept
      ⟨byteKey 2, byteSigner 4, ⟨none, some (byteCid 20), some 1⟩⟩ with
    others := [[.setPointerUpdate call]] }

theorem twoOwners_readsAgain (call : SetCall) :
    ReadsAgain bulkClient RamServer.history (twoOwners call) :=
  .others (.act (.act (.fresh _) (.setPointerUpdate _)) (.setPointerUpdate _)) _

/-- A further write for the owner whose turn is still to come. -/
def nextWrite : SetCall := ⟨byteKey 2, byteSigner 4, ⟨some (byteCid 20), some (byteCid 21), some 2⟩⟩

/-- A further write for the owner that is being committed. -/
def lateWrite : SetCall := ⟨byteKey 1, byteSigner 3, ⟨some (byteCid 10), some (byteCid 11), some 2⟩⟩

/-- No merge is written under a CID that embeds its bytes. -/
theorem not_mergedAs_byteCid {theirs ours : Cid} {n : UInt8} :
    ¬ bulkClient.MergedAs theirs ours (byteCid n) := by
  rintro ⟨s, s₁, s₂, base, wd, -, hput⟩
  obtain ⟨⟨cid, blocks⟩, hwrite, h⟩ := bind_eq_ok.1 hput
  cases h
  have hcid := (buildCid_eq_ok (ContentAddressedStorage.memory_put hwrite).1).2.1
  cases hcid

end Peergos
