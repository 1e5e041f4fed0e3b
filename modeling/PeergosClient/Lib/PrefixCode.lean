import Mathlib

/-!
# Codes that can be written one after the other

A code is self-delimiting on a set when a word can be split off the front of any longer string.
Words of such a code need no separators: a string of them determines the list they came from, also
when something of a known length follows.
-/

namespace PrefixCode

variable {α β : Type*} {f : α → List β} {S : Set α}

/-- A word at the front of a string determines its value and the rest of the string. -/
def SelfDelimiting (f : α → List β) (S : Set α) : Prop :=
  ∀ a ∈ S, ∀ b ∈ S, ∀ s t, f a ++ s = f b ++ t → a = b ∧ s = t

/-- A reader that gives back the value and the rest makes a code self-delimiting. -/
theorem selfDelimiting_of_read {γ : Type*} (read : List β → γ) (ok : α × List β → γ)
    (hok : Function.Injective ok) (h : ∀ a ∈ S, ∀ s, read (f a ++ s) = ok (a, s)) :
    SelfDelimiting f S := by
  intro a ha b hb s t heq
  have hread : ok (a, s) = ok (b, t) := by rw [← h a ha s, heq, h b hb t]
  simpa using hok hread

/-- Two words, one after the other. -/
theorem SelfDelimiting.prod {γ : Type*} {g : γ → List β} {T : Set γ} (hf : SelfDelimiting f S)
    (hg : SelfDelimiting g T) : SelfDelimiting (fun p : α × γ => f p.1 ++ g p.2) (S ×ˢ T) := by
  rintro ⟨a, c⟩ ⟨ha, hc⟩ ⟨b, d⟩ ⟨hb, hd⟩ s t heq
  simp only [List.append_assoc] at heq
  obtain ⟨rfl, hrest⟩ := hf a ha b hb _ _ heq
  obtain ⟨rfl, rfl⟩ := hg c hc d hd _ _ hrest
  exact ⟨rfl, rfl⟩

/-- A code for what determines a value is a code for the value. -/
theorem SelfDelimiting.comp {γ : Type*} {e : γ → α} {T : Set γ} (hf : SelfDelimiting f S)
    (he : Set.InjOn e T) (hmem : ∀ c ∈ T, e c ∈ S) : SelfDelimiting (fun c => f (e c)) T := by
  intro a ha b hb s t heq
  obtain ⟨hab, hst⟩ := hf (e a) (hmem a ha) (e b) (hmem b hb) s t heq
  exact ⟨he ha hb hab, hst⟩

/-- Words one after the other, with no separators and no count: the induction is on the first list,
and a word that is not empty keeps the end of one list from being taken for more of the other. -/
theorem SelfDelimiting.flatten_inj (h : SelfDelimiting f S) (hne : ∀ a ∈ S, f a ≠ [])
    {l l' : List α} (hl : ∀ a ∈ l, a ∈ S) (hl' : ∀ a ∈ l', a ∈ S)
    (heq : (l.map f).flatten = (l'.map f).flatten) : l = l' := by
  induction l generalizing l' with
  | nil =>
      cases l' with
      | nil => rfl
      | cons b l' =>
          have hempty : f b = [] := by simp_all
          exact absurd hempty (hne b (hl' b List.mem_cons_self))
  | cons a l ih =>
      cases l' with
      | nil =>
          have hempty : f a = [] := by simp_all
          exact absurd hempty (hne a (hl a List.mem_cons_self))
      | cons b l' =>
          simp only [List.map_cons, List.flatten_cons] at heq
          obtain ⟨rfl, hrest⟩ :=
            h a (hl a List.mem_cons_self) b (hl' b List.mem_cons_self) _ _ heq
          rw [ih (fun x hx => hl x (List.mem_cons_of_mem _ hx))
            (fun x hx => hl' x (List.mem_cons_of_mem _ hx)) hrest]

/-- The same with something of a fixed length after the words. -/
theorem SelfDelimiting.flatten_append_inj (h : SelfDelimiting f S) (hne : ∀ a ∈ S, f a ≠ [])
    {l l' : List α} {t t' : List β} (hl : ∀ a ∈ l, a ∈ S) (hl' : ∀ a ∈ l', a ∈ S)
    (hlen : t.length = t'.length)
    (heq : (l.map f).flatten ++ t = (l'.map f).flatten ++ t') : l = l' ∧ t = t' := by
  obtain ⟨hwords, htail⟩ := List.append_inj' heq hlen
  exact ⟨h.flatten_inj hne hl hl' hwords, htail⟩

end PrefixCode
