import Mathlib

/-!
# A register that concurrent writes contend for

A register holds the last write that won.  A write is compared with the one it finds, by a relation
`beats` that need not be transitive, and the writes arrive in an order that respects a preorder
`before` (causality) and is otherwise arbitrary.

A `Champion` of the writes is one that beats every write it can find and is beaten by none that can
find it.  If there is one, it is what the register holds in the end, whatever the order
(`final_eq_of_champion`).  Conversely, a write that is still held when everything it does not depend
on has come after it is beaten by none of that (`not_beats_of_causesFirst`).
-/

namespace Register

variable {α : Type*} (before : α → α → Prop) (beats : α → α → Bool)

/-- The order respects causality: nothing comes after what it causes. -/
def Causal (l : List α) : Prop := l.Pairwise fun a b => ¬ before b a

/-- What the register holds after one more write. -/
def write : Option α → α → Option α
  | none, m => some m
  | some e, m => if beats m e then some m else some e

/-- What the register holds after the writes. -/
def final (l : List α) : Option α := l.foldl (write beats) none

/-- The write beats every other that can come before it, and no other that can come after it beats
it. -/
def Champion (s : Set α) (w : α) : Prop :=
  ∀ m ∈ s, m ≠ w → (¬ before m w → beats m w = false) ∧ (¬ before w m → beats w m = true)

variable {before beats} {l l' : List α} {w : α}

theorem final_append (l l' : List α) :
    final beats (l ++ l') = l'.foldl (write beats) (final beats l) :=
  List.foldl_append

/-- The register holds one of the writes. -/
theorem mem_of_final {e : α} (h : final beats l = some e) : e ∈ l := by
  induction l using List.reverseRecOn generalizing e with
  | nil => cases h
  | append_singleton l m ih =>
      rw [final_append] at h
      rw [List.mem_append, List.mem_singleton]
      cases hl : final beats l with
      | none =>
          rw [hl] at h
          cases h
          exact Or.inr rfl
      | some e' =>
          simp only [hl, List.foldl_cons, List.foldl_nil, write] at h
          split at h
          · cases h
            exact Or.inr rfl
          · cases h
            exact Or.inl (ih hl)

/-- A holder that is never beaten stays. -/
theorem foldl_write_eq_self (h : ∀ m ∈ l, beats m w = false) :
    l.foldl (write beats) (some w) = some w := by
  induction l with
  | nil => rfl
  | cons m l ih =>
      have hm : write beats (some w) m = some w := by simp [write, h m (List.mem_cons_self ..)]
      rw [List.foldl_cons, hm]
      exact ih fun m' hm' => h m' (List.mem_cons_of_mem _ hm')

/-- If a write that is not among the later ones is held in the end, it was held all along. -/
theorem eq_of_foldl_write {e : α} (hw : w ∉ l)
    (h : l.foldl (write beats) (some e) = some w) : e = w ∧ ∀ m ∈ l, beats m w = false := by
  induction l generalizing e with
  | nil =>
      cases h
      exact ⟨rfl, by simp⟩
  | cons m l ih =>
      rw [List.mem_cons, not_or] at hw
      rw [List.foldl_cons] at h
      by_cases hm : beats m e = true
      · rw [write, if_pos hm] at h
        exact absurd (ih hw.2 h).1.symm hw.1
      · rw [write, if_neg hm] at h
        obtain ⟨rfl, hl⟩ := ih hw.2 h
        refine ⟨rfl, ?_⟩
        intro m' hm'
        rcases List.mem_cons.1 hm' with rfl | hm'
        · simpa using hm
        · exact hl m' hm'

/-- Writes that cause each other are the same. -/
theorem Causal.eq_of_before {a b : α} (h : Causal before l) (ha : a ∈ l) (hb : b ∈ l)
    (hab : before a b) (hba : before b a) : a = b := by
  obtain ⟨i, hi, rfl⟩ := List.mem_iff_getElem.1 ha
  obtain ⟨j, hj, rfl⟩ := List.mem_iff_getElem.1 hb
  rw [Causal, List.pairwise_iff_getElem] at h
  rcases lt_trichotomy i j with hij | hij | hij
  · exact absurd hba (h i j hi hj hij)
  · subst hij
    rfl
  · exact absurd hab (h j i hj hi hij)

section Order

variable (hrefl : ∀ a, before a a)

include hrefl

theorem Causal.nodup (h : Causal before l) : l.Nodup := by
  refine List.Pairwise.imp ?_ h
  rintro a b hab rfl
  exact hab (hrefl a)

/-- A champion is held in the end, whatever the order. -/
theorem final_eq_of_champion (hl : Causal before l) (hw : w ∈ l)
    (hchamp : Champion before beats {m | m ∈ l} w) : final beats l = some w := by
  obtain ⟨pre, post, rfl⟩ := List.append_of_mem hw
  have hnodup := hl.nodup hrefl
  rw [Causal, List.pairwise_append, List.pairwise_cons] at hl
  obtain ⟨-, ⟨hpost, -⟩, hpre⟩ := hl
  have hnew : ∀ m ∈ pre ++ w :: post, m ∈ pre ∨ m ∈ post → m ≠ w := by
    rintro m - hm rfl
    rw [List.nodup_append, List.nodup_cons] at hnodup
    rcases hm with hm | hm
    · exact hnodup.2.2 m hm m (List.mem_cons_self ..) rfl
    · exact hnodup.2.1.1 hm
  rw [final_append, List.foldl_cons]
  -- the write itself wins against whatever is held before it
  have hheld : write beats (final beats pre) w = some w := by
    cases hf : final beats pre with
    | none => rfl
    | some e =>
        have he := mem_of_final hf
        have hmem : e ∈ pre ++ w :: post := List.mem_append_left _ he
        have hbeats := (hchamp e hmem (hnew e hmem (Or.inl he))).2
          (hpre e he w (List.mem_cons_self ..))
        rw [write, if_pos hbeats]
  rw [hheld]
  refine foldl_write_eq_self ?_
  intro m hm
  have hmem : m ∈ pre ++ w :: post := List.mem_append_right _ (List.mem_cons_of_mem _ hm)
  exact (hchamp m hmem (hnew m hmem (Or.inr hm))).1 (hpost m hm)

end Order

/-! ## Letting a write be found -/

section Split

variable [DecidableRel before]

/-- First what causes `w`, then the rest. -/
def causesFirst (before : α → α → Prop) [DecidableRel before] (w : α) (l : List α) : List α :=
  l.filter (fun x => before x w) ++ l.filter fun x => ¬ before x w

theorem mem_causesFirst {m : α} : m ∈ causesFirst before w l ↔ m ∈ l := by
  simp only [causesFirst, List.mem_append, List.mem_filter, decide_eq_true_eq]
  tauto

theorem causesFirst_filter (p : α → Bool) :
    (causesFirst before w l).filter p = causesFirst before w (l.filter p) := by
  simp only [causesFirst, List.filter_append, List.filter_filter, Bool.and_comm]

theorem Causal.causesFirst (htrans : ∀ a b c, before a b → before b c → before a c)
    (hl : Causal before l) : Causal before (causesFirst before w l) := by
  unfold Causal Register.causesFirst
  rw [List.pairwise_append]
  refine ⟨hl.filter _, hl.filter _, ?_⟩
  intro a ha b hb hba
  rw [List.mem_filter, decide_eq_true_eq] at ha hb
  exact hb.2 (htrans b a w hba ha.2)

/-- A write that is held in the end although everything it does not depend on came after it is
beaten by none of that. -/
theorem not_beats_of_causesFirst (hrefl : ∀ a, before a a)
    (h : final beats (causesFirst before w l) = some w) {m : α} (hm : m ∈ l)
    (hafter : ¬ before m w) : beats m w = false := by
  rw [causesFirst, final_append] at h
  have hw : w ∉ l.filter fun x => ¬ before x w := by
    simp [hrefl w]
  have hmem : m ∈ l.filter fun x => ¬ before x w := by
    rw [List.mem_filter, decide_eq_true_eq]
    exact ⟨hm, hafter⟩
  cases hdown : final beats (l.filter fun x => before x w) with
  | some e =>
      rw [hdown] at h
      exact (eq_of_foldl_write hw h).2 m hmem
  | none =>
      -- then `w` itself would have to come after its causes
      rw [hdown] at h
      exact absurd (mem_of_final h) hw

end Split

/-- Any write leaves the register set. -/
theorem exists_final (beats : α → α → Bool) (h : l ≠ []) : ∃ w, final beats l = some w := by
  induction l using List.reverseRecOn with
  | nil => exact absurd rfl h
  | append_singleton l m ih =>
      rw [final_append]
      cases final beats l with
      | none => exact ⟨m, rfl⟩
      | some e =>
          by_cases hbeats : beats m e = true
          · exact ⟨m, by simp [write, hbeats]⟩
          · exact ⟨e, by simp [write, hbeats]⟩

end Register
