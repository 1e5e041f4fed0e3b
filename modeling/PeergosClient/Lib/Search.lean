import Mathlib

/-!
# Depth-first search of a finite graph

A graph is the list of its nodes with their successors; a successor that is no node of the list is
a boundary that a search does not enter.  `search` keeps a stack of what is left to visit and the
nodes it has kept.  With as many pops as there are stack entries and edges left it keeps each node
that can be reached exactly once (`search_spec`).
-/

namespace Search

variable {α : Type*} [DecidableEq α]

/-- The successors of a node, if the graph has it. -/
def successors (g : List (α × List α)) (x : α) : Option (List α) :=
  (g.find? fun e => e.1 = x).map Prod.snd

/-- What can be reached from the starts through nodes of the graph. -/
inductive Reach (g : List (α × List α)) (start : α → Prop) : α → Prop
  | start {x : α} (h : start x) (hx : (successors g x).isSome) : Reach g start x
  | step {x y : α} {ys : List α} (h : Reach g start x) (hx : successors g x = some ys)
      (hy : y ∈ ys) (hnode : (successors g y).isSome) : Reach g start y

/-- What can be reached without leaving `within`, the starts included. -/
inductive Path (g : List (α × List α)) (within start : α → Prop) : α → Prop
  | start {x : α} (h : start x) (hx : (successors g x).isSome) (hin : within x) :
      Path g within start x
  | step {x y : α} {ys : List α} (h : Path g within start x) (hx : successors g x = some ys)
      (hy : y ∈ ys) (hnode : (successors g y).isSome) (hin : within y) : Path g within start y

/-- The search, over the nodes kept and the stack, for a number of pops. -/
def search (g : List (α × List α)) : ℕ → List α → List α → List α
  | 0, keep, _ => keep
  | _, keep, [] => keep
  | pops + 1, keep, x :: stack =>
      if x ∈ keep then search g pops keep stack
      else
        match successors g x with
        | none => search g pops keep stack
        | some ys => search g pops (keep ++ [x]) (ys ++ stack)

/-- The edges out of the nodes that are not kept yet. -/
def edgesLeft (g : List (α × List α)) (keep : List α) : ℕ :=
  ((g.filter fun e => e.1 ∉ keep).map fun e => e.2.length).sum

section Spec

variable {g : List (α × List α)} {start : α → Prop}

theorem Reach.isSome {x : α} (h : Reach g start x) : (successors g x).isSome := by
  cases h with
  | start _ hx => exact hx
  | step _ _ _ hnode => exact hnode

theorem Reach.mono {start' : α → Prop} (h : ∀ x, start x → start' x) {x : α}
    (hx : Reach g start x) : Reach g start' x := by
  induction hx with
  | start hs hx => exact .start (h _ hs) hx
  | step _ hx hy hnode ih => exact .step ih hx hy hnode

theorem Path.mono {within within' : α → Prop} {x : α} (h : ∀ x, within x → within' x)
    (hx : Path g within start x) : Path g within' start x := by
  induction hx with
  | start hs hx hin => exact .start hs hx (h _ hin)
  | step _ hx hy hnode hin ih => exact .step ih hx hy hnode (h _ hin)

/-- A path begins at a start it does not leave `within` by. -/
theorem Path.exists_start {within : α → Prop} {x : α} (h : Path g within start x) :
    ∃ y, start y ∧ within y := by
  induction h with
  | start hs _ hin => exact ⟨_, hs, hin⟩
  | step _ _ _ _ _ ih => exact ih

theorem Path.reach {within : α → Prop} {x : α} (h : Path g within start x) : Reach g start x := by
  induction h with
  | start hs hx _ => exact .start hs hx
  | step _ hx hy hnode _ ih => exact .step ih hx hy hnode

/-- A node that others do not reach is reached outside what they reach: all below a node of theirs
is theirs too. -/
theorem Reach.path_outside {others : α → Prop} {x : α} (h : Reach g start x)
    (hx : ¬ Reach g others x) :
    Path g (fun y => Reach g start y ∧ ¬ Reach g others y) start x := by
  induction h with
  | start hs hnode => exact .start hs hnode ⟨.start hs hnode, hx⟩
  | step h hys hy hnode ih =>
      exact .step (ih fun ho => hx (.step ho hys hy hnode)) hys hy hnode
        ⟨.step h hys hy hnode, hx⟩

theorem reach_or {a b : α → Prop} {x : α} :
    Reach g (fun y => a y ∨ b y) x ↔ Reach g a x ∨ Reach g b x := by
  constructor
  · intro h
    induction h with
    | start hs hx => exact hs.imp (fun h => .start h hx) fun h => .start h hx
    | step _ hx hy hnode ih =>
        exact ih.imp (fun h => .step h hx hy hnode) fun h => .step h hx hy hnode
  · rintro (h | h)
    · exact h.mono fun _ => Or.inl
    · exact h.mono fun _ => Or.inr

theorem not_reach_of_forall_not {x : α} (h : ∀ x, ¬ start x) : ¬ Reach g start x := by
  intro hx
  induction hx with
  | start hs _ => exact h _ hs
  | step _ _ _ _ ih => exact ih

theorem edgesLeft_cons (e : α × List α) (g : List (α × List α)) (keep : List α) :
    edgesLeft (e :: g) keep = (if e.1 ∈ keep then 0 else e.2.length) + edgesLeft g keep := by
  unfold edgesLeft
  by_cases h : e.1 ∈ keep
  · simp [h]
  · simp [h]

/-- Keeping a node takes its edges off those left. -/
theorem edgesLeft_add_le {keep : List α} {x : α} (hx : x ∉ keep) {ys : List α}
    (h : successors g x = some ys) : edgesLeft g (keep ++ [x]) + ys.length ≤ edgesLeft g keep := by
  have hmono : ∀ g : List (α × List α), edgesLeft g (keep ++ [x]) ≤ edgesLeft g keep := by
    intro g
    induction g with
    | nil => exact le_refl _
    | cons e g ih =>
        rw [edgesLeft_cons, edgesLeft_cons]
        by_cases he : e.1 ∈ keep
        · simp [he, ih]
        · simp only [List.mem_append, he, false_or, if_false]
          split <;> omega
  obtain ⟨e, he, rfl⟩ := Option.map_eq_some_iff.1 h
  have hex : e.1 = x := by simpa using List.find?_some he
  have hmem := List.mem_of_find?_eq_some he
  clear he h
  induction g with
  | nil => cases hmem
  | cons e' g ih =>
      rw [edgesLeft_cons, edgesLeft_cons]
      rcases List.mem_cons.1 hmem with rfl | hmem
      · have := hmono g
        rw [if_pos (by simp [hex]), if_neg (hex ▸ hx)]
        omega
      · have := ih hmem
        by_cases he : e'.1 ∈ keep
        · rw [if_pos (List.mem_append_left _ he), if_pos he]
          omega
        · rw [if_neg he]
          split <;> omega

/-! ## The invariant of a search -/

/-- What holds between two pops: the nodes kept and on the stack can be reached, no start is
forgotten, and a successor of a kept node is kept or on the stack. -/
structure Inv (g : List (α × List α)) (start : α → Prop) (keep stack : List α) : Prop where
  nodup : keep.Nodup
  kept : ∀ x ∈ keep, Reach g start x
  stacked : ∀ x ∈ stack, (successors g x).isSome → Reach g start x
  starts : ∀ x, start x → (successors g x).isSome → x ∈ keep ∨ x ∈ stack
  closed : ∀ x ∈ keep, ∀ ys, successors g x = some ys → ∀ y ∈ ys, (successors g y).isSome →
    y ∈ keep ∨ y ∈ stack

namespace Inv

variable {keep stack : List α} {x : α}

/-- At the end the nodes kept are those that can be reached. -/
theorem mem_iff (h : Inv g start keep []) (x : α) : x ∈ keep ↔ Reach g start x := by
  refine ⟨h.kept x, ?_⟩
  intro hx
  induction hx with
  | start hs hx => exact (h.starts _ hs hx).resolve_right List.not_mem_nil
  | step _ hx hy hnode ih => exact (h.closed _ ih _ hx _ hy hnode).resolve_right List.not_mem_nil

/-- Popping a node that is kept already, or is a boundary. -/
theorem pop (h : Inv g start keep (x :: stack)) (hx : x ∈ keep ∨ successors g x = none) :
    Inv g start keep stack := by
  have hmem : ∀ y, y ∈ keep ∨ y ∈ x :: stack → (successors g y).isSome → y ∈ keep ∨ y ∈ stack := by
    rintro y (hy | hy) hnode
    · exact Or.inl hy
    · rcases List.mem_cons.1 hy with rfl | hy
      · rcases hx with hx | hx
        · exact Or.inl hx
        · rw [hx] at hnode
          cases hnode
      · exact Or.inr hy
  exact ⟨h.nodup, h.kept, fun y hy => h.stacked y (List.mem_cons_of_mem _ hy),
    fun y hs hnode => hmem y (h.starts y hs hnode) hnode,
    fun z hz ys hys y hy hnode => hmem y (h.closed z hz ys hys y hy hnode) hnode⟩

/-- Popping a new node: it is kept, and its successors are pushed. -/
theorem push (h : Inv g start keep (x :: stack)) (hx : x ∉ keep) {ys : List α}
    (hys : successors g x = some ys) : Inv g start (keep ++ [x]) (ys ++ stack) := by
  have hreach := h.stacked x (List.mem_cons_self ..) (by rw [hys]; rfl)
  have hmem : ∀ y, y ∈ keep ∨ y ∈ x :: stack → y ∈ keep ++ [x] ∨ y ∈ ys ++ stack := by
    rintro y (hy | hy)
    · exact Or.inl (List.mem_append_left _ hy)
    · rcases List.mem_cons.1 hy with rfl | hy
      · exact Or.inl (List.mem_append_right _ (List.mem_singleton_self _))
      · exact Or.inr (List.mem_append_right _ hy)
  refine ⟨?_, ?_, ?_, fun y hs hnode => hmem y (h.starts y hs hnode), ?_⟩
  · rw [List.nodup_append]
    refine ⟨h.nodup, List.nodup_singleton x, ?_⟩
    rintro a ha b hb rfl
    exact hx (List.mem_singleton.1 hb ▸ ha)
  · intro y hy
    rcases List.mem_append.1 hy with hy | hy
    · exact h.kept y hy
    · rw [List.mem_singleton.1 hy]
      exact hreach
  · intro y hy hnode
    rcases List.mem_append.1 hy with hy | hy
    · exact .step hreach hys hy hnode
    · exact h.stacked y (List.mem_cons_of_mem _ hy) hnode
  · intro z hz zs hzs y hy hnode
    rcases List.mem_append.1 hz with hz | hz
    · exact hmem y (h.closed z hz zs hzs y hy hnode)
    · rw [List.mem_singleton.1 hz, hys] at hzs
      cases hzs
      exact Or.inr (List.mem_append_left _ hy)

end Inv

/-- A search with enough pops keeps what can be reached, each node once. -/
theorem search_spec {pops : ℕ} {keep stack : List α} (h : Inv g start keep stack)
    (hpops : stack.length + edgesLeft g keep ≤ pops) :
    (search g pops keep stack).Nodup ∧ ∀ x, x ∈ search g pops keep stack ↔ Reach g start x := by
  induction pops generalizing keep stack with
  | zero =>
      obtain rfl : stack = [] := List.length_eq_zero_iff.1 (by omega)
      exact ⟨h.nodup, h.mem_iff⟩
  | succ pops ih =>
      cases stack with
      | nil => exact ⟨h.nodup, h.mem_iff⟩
      | cons x stack =>
          rw [List.length_cons] at hpops
          unfold search
          by_cases hx : x ∈ keep
          · rw [if_pos hx]
            exact ih (h.pop (Or.inl hx)) (by omega)
          · rw [if_neg hx]
            cases hys : successors g x with
            | none => exact ih (h.pop (Or.inr hys)) (by omega)
            | some ys =>
                refine ih (h.push hx hys) ?_
                have := edgesLeft_add_le hx hys
                rw [List.length_append]
                omega

/-- A search from some roots. -/
theorem search_roots_spec {pops : ℕ} {roots : List α}
    (hpops : roots.length + (g.map fun e => e.2.length).sum ≤ pops) :
    (search g pops [] roots).Nodup ∧
      ∀ x, x ∈ search g pops [] roots ↔ Reach g (fun y => y ∈ roots) x := by
  refine search_spec ⟨List.nodup_nil, ?_, ?_, fun x hx _ => Or.inr hx, ?_⟩ ?_
  · rintro x ⟨⟩
  · intro x hx hnode
    exact .start hx hnode
  · rintro x ⟨⟩
  · have : edgesLeft g [] = (g.map fun e => e.2.length).sum := by simp [edgesLeft]
    omega

end Spec

end Search
