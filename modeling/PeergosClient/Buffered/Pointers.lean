import PeergosClient.Buffered.Bulk

/-!
# The pointer buffer

`BufferedPointers` holds the pointer updates made since the last flush, in the order they were
made.  Only consecutive writes to one writer are condensed: the entry keeps the root it started
from and its sequence, and moves its target on.

`checkpoint` remembers the length of the list, the target of its last entry and a generation;
`rollback` goes back to it.
-/

namespace Peergos

/-- `WriterUpdate`. -/
structure WriterUpdate where
  owner : PublicKeyHash
  writer : PublicKeyHash
  update : PointerUpdate
  signer : SigningPrivateKeyAndPublicHash
  deriving DecidableEq, Repr

/-- `BufferedPointers`: its list and its generation, an `AtomicU64` that counts up. -/
structure BufferedPointers where
  updates : List WriterUpdate
  generation : ℕ
  deriving DecidableEq, Repr

/-- `Checkpoint`. -/
structure Checkpoint where
  generation : ℕ
  len : ℕ
  lastTarget : Option (Option Cid)
  deriving DecidableEq, Repr

/-- `last.update.updated = target`. -/
def WriterUpdate.retarget (target : Option Cid) (w : WriterUpdate) : WriterUpdate :=
  { w with update := { w.update with updated := target } }

/-- `list.last_mut()`: change the last entry. -/
def modifyLast (f : WriterUpdate → WriterUpdate) (l : List WriterUpdate) : List WriterUpdate :=
  match l.getLast? with
  | some w => l.dropLast ++ [f w]
  | none => []

/-- A call of `set_pointer_update`. -/
structure SetCall where
  owner : PublicKeyHash
  signer : SigningPrivateKeyAndPublicHash
  update : PointerUpdate
  deriving DecidableEq, Repr

namespace SetCall

/-- The writer a call is for. -/
def writer (c : SetCall) : PublicKeyHash := c.signer.publicKeyHash

/-- The entry pushed for a call. -/
def entry (c : SetCall) : WriterUpdate := ⟨c.owner, c.writer, c.update, c.signer⟩

end SetCall

/-- The list after a call of `set_pointer_update`: condensed into the last entry if that is of the
same writer and owner, pushed otherwise. -/
def addWrite (updates : List WriterUpdate) (c : SetCall) : List WriterUpdate :=
  match updates.getLast? with
  | some last =>
      if last.writer = c.writer ∧ last.owner = c.owner then
        modifyLast (WriterUpdate.retarget c.update.updated) updates
      else updates ++ [c.entry]
  | none => [c.entry]

namespace BufferedPointers

/-- `BufferedPointers::new`. -/
def new : BufferedPointers := ⟨[], 0⟩

/-- The buffering half of `set_pointer_update`. -/
def add (p : BufferedPointers) (c : SetCall) : BufferedPointers :=
  { p with updates := addWrite p.updates c }

/-- The buffered half of `get_pointer_target`: the latest update of a writer. -/
def latest (p : BufferedPointers) (writer : PublicKeyHash) : Option PointerUpdate :=
  (p.updates.reverse.find? fun w => w.writer = writer).map (·.update)

/-- `BufferedPointers::clear`. -/
def clear (p : BufferedPointers) : BufferedPointers := ⟨[], p.generation + 1⟩

/-- `BufferedPointers::checkpoint`. -/
def checkpoint (p : BufferedPointers) : Checkpoint :=
  ⟨p.generation, p.updates.length, p.updates.getLast?.map (·.update.updated)⟩

/-- `BufferedPointers::rollback`. -/
def rollback (p : BufferedPointers) (cp : Checkpoint) : BufferedPointers :=
  if p.generation ≠ cp.generation then { p with updates := [] }
  else
    let kept := p.updates.take cp.len
    match cp.lastTarget with
    | some target => { p with updates := modifyLast (WriterUpdate.retarget target) kept }
    | none => { p with updates := kept }

/-- `BufferedPointers::roots`. -/
def roots (p : BufferedPointers) : List Cid := p.updates.filterMap (·.update.updated)

/-- `BufferedPointers::writes_for`. -/
def writesFor (p : BufferedPointers) (owner : PublicKeyHash) : List WriterUpdate :=
  p.updates.filter fun w => w.owner = owner

/-- `BufferedPointers::roots_for`. -/
def rootsFor (p : BufferedPointers) (owner : PublicKeyHash) : List Cid :=
  (p.writesFor owner).filterMap (·.update.updated)

/-- `BufferedPointers::owners`. -/
def owners (p : BufferedPointers) : List PublicKeyHash :=
  p.updates.foldl (fun res w => if w.owner ∈ res then res else res ++ [w.owner]) []

/-- `updates.retain(|w| &w.owner != owner)`, the last step of `commit_pointers`. -/
def retainOthers (p : BufferedPointers) (owner : PublicKeyHash) : BufferedPointers :=
  { p with updates := p.updates.filter fun w => w.owner ≠ owner }

/-- `BufferedPointers::drop_owner`. -/
def dropOwner (p : BufferedPointers) (owner : PublicKeyHash) : BufferedPointers :=
  { p.retainOthers owner with generation := p.generation + 1 }

end BufferedPointers

/-! ## The list under its operations -/

theorem modifyLast_append (f : WriterUpdate → WriterUpdate) (l : List WriterUpdate)
    (w : WriterUpdate) : modifyLast f (l ++ [w]) = l ++ [f w] := by
  simp [modifyLast]

@[simp] theorem modifyLast_nil (f : WriterUpdate → WriterUpdate) : modifyLast f [] = [] := rfl

/-- What a call does to the list: it moves the last entry on, or adds one. -/
theorem addWrite_cases (updates : List WriterUpdate) (c : SetCall) :
    (∃ l w, updates = l ++ [w] ∧ w.writer = c.writer ∧ w.owner = c.owner ∧
      addWrite updates c = l ++ [w.retarget c.update.updated]) ∨
    addWrite updates c = updates ++ [c.entry] := by
  rcases List.eq_nil_or_concat updates with rfl | ⟨l, w, rfl⟩
  · exact Or.inr rfl
  · rw [List.concat_eq_append]
    unfold addWrite
    rw [List.getLast?_append_cons, List.getLast?_singleton]
    by_cases h : w.writer = c.writer ∧ w.owner = c.owner
    · exact Or.inl ⟨l, w, rfl, h.1, h.2, by simp only [if_pos h, modifyLast_append]⟩
    · exact Or.inr (if_neg h)

theorem owner_of_mem_writesFor {p : BufferedPointers} {owner : PublicKeyHash} {w : WriterUpdate}
    (h : w ∈ p.writesFor owner) : w.owner = owner := of_decide_eq_true (List.mem_filter.1 h).2

theorem mem_owners {p : BufferedPointers} {owner : PublicKeyHash} :
    owner ∈ p.owners ↔ ∃ w ∈ p.updates, w.owner = owner := by
  suffices h : ∀ (l : List WriterUpdate) (res : List PublicKeyHash),
      owner ∈ l.foldl (fun res w => if w.owner ∈ res then res else res ++ [w.owner]) res ↔
        owner ∈ res ∨ ∃ w ∈ l, w.owner = owner by
    have := h p.updates []
    simpa [BufferedPointers.owners] using this
  intro l
  induction l with
  | nil => simp
  | cons w l ih =>
      intro res
      rw [List.foldl_cons, ih]
      by_cases hw : w.owner ∈ res
      · rw [if_pos hw]
        constructor
        · rintro (h | ⟨v, hv, rfl⟩)
          · exact Or.inl h
          · exact Or.inr ⟨v, List.mem_cons_of_mem _ hv, rfl⟩
        · rintro (h | ⟨v, hv, rfl⟩)
          · exact Or.inl h
          · rcases List.mem_cons.1 hv with rfl | hv
            · exact Or.inl hw
            · exact Or.inr ⟨v, hv, rfl⟩
      · rw [if_neg hw]
        simp only [List.mem_append, List.mem_singleton, List.exists_mem_cons_iff, or_assoc]
        rw [eq_comm (a := owner)]

end Peergos
