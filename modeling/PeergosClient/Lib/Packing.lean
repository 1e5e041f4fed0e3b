import Mathlib

/-!
# Greedy packing

Two ways to pack a list greedily, each given by what its packs satisfy.

`Fill`: of several queues, one after another, the longest start that still fits with all that was
taken before.  `NextFit`: a list cut into packs, where an item opens a new pack only if it does not
join the pack before it.  Either way the packing is unique, so a loop that makes one makes the only
one.
-/

namespace Packing

variable {α : Type*}

/-! ## Filling one pack from several queues -/

/-- Each part is a queue in two: what is taken fits with all taken before it, and with the next item
of the queue it would not. -/
inductive Fill (fits : List α → Prop) : List α → List (List α × List α) → Prop
  | nil (taken : List α) : Fill fits taken []
  | cons {taken kept rest : List α} {parts : List (List α × List α)}
      (hkept : fits (taken ++ kept)) (hrest : ∀ a ∈ rest.head?, ¬ fits (taken ++ kept ++ [a]))
      (hparts : Fill fits (taken ++ kept) parts) : Fill fits taken ((kept, rest) :: parts)

/-- What fits still fits when its end is taken off. -/
def PrefixClosed (fits : List α → Prop) : Prop := ∀ l l', fits (l ++ l') → fits l

/-- All that is taken fits together. -/
theorem Fill.fits {fits : List α → Prop} {taken : List α} {parts : List (List α × List α)}
    (htaken : fits taken) (h : Fill fits taken parts) :
    fits (taken ++ (parts.map Prod.fst).flatten) := by
  induction h with
  | nil taken => simpa using htaken
  | cons hkept _ _ ih => simpa using ih hkept

/-- Two starts of one queue, both as long as they fit, are the same. -/
theorem eq_of_maximal {fits : List α → Prop} (hclosed : PrefixClosed fits)
    {taken kept rest kept' rest' : List α} (heq : kept ++ rest = kept' ++ rest')
    (hrest : ∀ a ∈ rest.head?, ¬ fits (taken ++ kept ++ [a])) (hkept' : fits (taken ++ kept'))
    (hle : kept.length ≤ kept'.length) : kept = kept' ∧ rest = rest' := by
  obtain ⟨more, rfl⟩ : kept <+: kept' :=
    List.prefix_of_prefix_length_le (List.prefix_append kept rest)
      (heq ▸ List.prefix_append kept' rest') hle
  rw [List.append_assoc, List.append_cancel_left_eq] at heq
  cases more with
  | nil => exact ⟨(List.append_nil _).symm, heq⟩
  | cons a more =>
      refine absurd (hclosed _ more ?_) (hrest a (by simp [heq]))
      simpa using hkept'

/-- The queues leave one way to fill. -/
theorem Fill.unique {fits : List α → Prop} (hclosed : PrefixClosed fits) {taken : List α}
    {parts parts' : List (List α × List α)} (h : Fill fits taken parts)
    (h' : Fill fits taken parts')
    (hqueues : (parts.map fun p => p.1 ++ p.2) = parts'.map fun p => p.1 ++ p.2) :
    parts = parts' := by
  induction h generalizing parts' with
  | nil taken =>
      cases h' with
      | nil => rfl
      | cons => simp at hqueues
  | @cons taken kept rest parts hkept hrest _ ih =>
      cases h' with
      | nil => simp at hqueues
      | @cons _ kept' rest' parts' hkept' hrest' hparts' =>
          rw [List.map_cons, List.map_cons, List.cons.injEq] at hqueues
          obtain ⟨hqueue, hqueues⟩ := hqueues
          obtain ⟨rfl, rfl⟩ : kept = kept' ∧ rest = rest' := by
            rcases le_total kept.length kept'.length with hle | hle
            · exact eq_of_maximal hclosed hqueue hrest hkept' hle
            · have hsame := eq_of_maximal hclosed hqueue.symm hrest' hkept hle
              exact ⟨hsame.1.symm, hsame.2.symm⟩
          rw [ih hparts' hqueues]

/-! ## One pack after another -/

/-- A pack to which each item after the first was joined. -/
inductive Filled (joins : List α → α → Prop) : List α → Prop
  | single (a : α) : Filled joins [a]
  | snoc {pack : List α} {a : α} (hpack : Filled joins pack) (ha : joins pack a) :
      Filled joins (pack ++ [a])

/-- The items in order, cut where the next item does not join the pack. -/
structure NextFit (joins : List α → α → Prop) (items : List α) (packs : List (List α)) : Prop where
  flatten : packs.flatten = items
  filled : ∀ pack ∈ packs, Filled joins pack
  apart : packs.IsChain fun pack next => ∀ a ∈ next.head?, ¬ joins pack a

variable {joins : List α → α → Prop}

theorem Filled.ne_nil {pack : List α} (h : Filled joins pack) : pack ≠ [] := by
  cases h <;> simp

/-- What holds of one item, and of a pack and an item that joins it, holds of a filled pack. -/
theorem Filled.invariant {P : List α → Prop} (hsingle : ∀ a, P [a])
    (hjoin : ∀ pack a, P pack → joins pack a → P (pack ++ [a])) {pack : List α}
    (h : Filled joins pack) : P pack := by
  induction h with
  | single a => exact hsingle a
  | snoc _ ha ih => exact hjoin _ _ ih ha

/-- An item in a filled pack joined what stands before it. -/
theorem Filled.joins_of_append {pack before after : List α} {a : α} (h : Filled joins pack)
    (heq : pack = before ++ a :: after) (hbefore : before ≠ []) : joins before a := by
  induction h generalizing after with
  | single b =>
      cases before with
      | nil => exact absurd rfl hbefore
      | cons => simp at heq
  | @snoc pack b hpack hb ih =>
      rcases List.eq_nil_or_concat after with rfl | ⟨after, c, rfl⟩
      · obtain ⟨rfl, hab⟩ := List.append_inj' heq rfl
        cases hab
        exact hb
      · refine ih (?_ : pack = before ++ a :: after)
        rw [List.concat_eq_append, ← List.cons_append, ← List.append_assoc] at heq
        exact (List.append_inj' heq rfl).1

theorem NextFit.nil : NextFit joins [] [] := ⟨rfl, by simp, .nil⟩

/-- An item that does not join the last pack opens one. -/
theorem NextFit.opened {items : List α} {packs : List (List α)} {a : α}
    (h : NextFit joins items packs) (ha : ∀ pack ∈ packs.getLast?, ¬ joins pack a) :
    NextFit joins (items ++ [a]) (packs ++ [[a]]) where
  flatten := by simp [h.flatten]
  filled := by
    intro pack hpack
    rcases List.mem_append.1 hpack with hpack | hpack
    · exact h.filled pack hpack
    · rw [List.mem_singleton.1 hpack]
      exact .single a
  apart := by
    refine List.isChain_append.2 ⟨h.apart, List.isChain_singleton _, ?_⟩
    intro pack hpack next hnext b hb
    obtain rfl : [a] = next := by simpa using hnext
    obtain rfl : a = b := by simpa using hb
    exact ha pack hpack

/-- An item that joins the last pack goes into it. -/
theorem NextFit.joined {items : List α} {packs : List (List α)} {pack : List α} {a : α}
    (h : NextFit joins items (packs ++ [pack])) (ha : joins pack a) :
    NextFit joins (items ++ [a]) (packs ++ [pack ++ [a]]) where
  flatten := by
    rw [← h.flatten]
    simp
  filled := by
    intro p hp
    rcases List.mem_append.1 hp with hp | hp
    · exact h.filled p (List.mem_append_left _ hp)
    · rw [List.mem_singleton.1 hp]
      exact .snoc (h.filled pack (by simp)) ha
  apart := by
    obtain ⟨hpacks, -, hlast⟩ := List.isChain_append.1 h.apart
    refine List.isChain_append.2 ⟨hpacks, List.isChain_singleton _, ?_⟩
    intro p hp next hnext b hb
    obtain rfl : pack ++ [a] = next := by simpa using hnext
    refine hlast p hp pack (by simp) b ?_
    have hne := (h.filled pack (by simp)).ne_nil
    rwa [List.head?_append_of_ne_nil _ hne] at hb

/-- The first pack of a packing is no shorter than that of another. -/
theorem NextFit.head_eq {packs packs' : List (List α)} {pack pack' items : List α}
    (h : NextFit joins items (pack :: packs)) (h' : NextFit joins items (pack' :: packs'))
    (hle : pack.length ≤ pack'.length) : pack = pack' ∧ packs.flatten = packs'.flatten := by
  have hflat : pack ++ packs.flatten = pack' ++ packs'.flatten := h.flatten.trans h'.flatten.symm
  obtain ⟨more, rfl⟩ : pack <+: pack' :=
    List.prefix_of_prefix_length_le (List.prefix_append pack packs.flatten)
      (hflat ▸ List.prefix_append pack' packs'.flatten) hle
  rw [List.append_assoc, List.append_cancel_left_eq] at hflat
  cases more with
  | nil => exact ⟨(List.append_nil _).symm, hflat⟩
  | cons a more =>
      have hjoins := (h'.filled _ List.mem_cons_self).joins_of_append rfl
        (h.filled _ List.mem_cons_self).ne_nil
      cases packs with
      | nil => simp at hflat
      | cons next packs =>
          have hnext := (h.filled next (by simp)).ne_nil
          refine absurd hjoins ((List.isChain_cons_cons.1 h.apart).1 a ?_)
          have hhead := congrArg List.head? hflat
          rw [List.flatten_cons, List.head?_append_of_ne_nil _ hnext] at hhead
          simp [hhead]

theorem NextFit.tail {packs : List (List α)} {pack items : List α}
    (h : NextFit joins items (pack :: packs)) : NextFit joins packs.flatten packs :=
  ⟨rfl, fun p hp => h.filled p (List.mem_cons_of_mem _ hp), h.apart.tail⟩

/-- There is one such packing. -/
theorem NextFit.unique {items : List α} {packs packs' : List (List α)}
    (h : NextFit joins items packs) (h' : NextFit joins items packs') : packs = packs' := by
  have hempty : ∀ {packs : List (List α)}, NextFit joins [] packs → packs = [] := by
    intro packs h
    cases packs with
    | nil => rfl
    | cons pack packs =>
        have hpack := (h.filled pack List.mem_cons_self).ne_nil
        exact absurd (List.append_eq_nil_iff.1 h.flatten).1 hpack
  induction packs generalizing items packs' with
  | nil =>
      obtain rfl : [] = items := h.flatten
      exact (hempty h').symm
  | cons pack packs ih =>
      cases packs' with
      | nil =>
          obtain rfl : [] = items := h'.flatten
          exact hempty h
      | cons pack' packs' =>
          obtain ⟨rfl, hflat⟩ : pack = pack' ∧ packs.flatten = packs'.flatten := by
            rcases le_total pack.length pack'.length with hle | hle
            · exact h.head_eq h' hle
            · have hsame := h'.head_eq h hle
              exact ⟨hsame.1.symm, hsame.2.symm⟩
          have htail' := h'.tail
          rw [← hflat] at htail'
          rw [ih h.tail htail']

end Packing
