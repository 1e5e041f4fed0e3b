import PeergosClient.Champ.Ops

/-!
# What a put writes

Over a store whose writes return the hashes of what was written, `Champ::put` returns the node it
wrote last under that node's own hash, or leaves the root as it was.  A link it adds to a node is
the hash of a node it has written; every other link is one it was handed.

The nodes may be of any shape, and what the store answers to a read may be anything.
-/

namespace Peergos

namespace Champ

variable {σ : Type} {S : ContentAddressedStorage σ} {sha256 : Bytes → Bytes}

/-- The links of a node. -/
def links (c : Champ) : List Cid :=
  c.contents.filterMap fun
    | .link cid => some cid
    | .mappings _ => none

theorem mem_links {c : Champ} {cid : Cid} : cid ∈ c.links ↔ Payload.link cid ∈ c.contents := by
  unfold links
  rw [List.mem_filterMap]
  constructor
  · rintro ⟨p, hp, h⟩
    cases p with
    | link cid' =>
        cases h
        exact hp
    | mappings _ => cases h
  · intro h
    exact ⟨_, h, rfl⟩

/-! ## The copy helpers -/

section Copies

variable {c c' : Champ} {cid : Cid}

theorem links_of_set {i : ℕ} {ms : List KeyElement} {dst : List Payload}
    (h : vecSet c.contents i (.mappings ms) = .ok dst) (hcid : Payload.link cid ∈ dst) :
    cid ∈ c.links := by
  unfold vecSet at h
  split at h
  · cases h
    rcases List.mem_or_eq_of_mem_set hcid with hmem | heq
    · exact mem_links.2 hmem
    · cases heq
  · cases h

theorem links_copyAndSetValue {i j : ℕ} {val : Option CborObject}
    (h : c.copyAndSetValue i j val = .ok c') (hcid : cid ∈ c'.links) : cid ∈ c.links := by
  obtain ⟨p, -, h⟩ := bind_eq_ok.1 h
  cases p with
  | link _ =>
      cases h
      exact hcid
  | mappings ms =>
      obtain ⟨m, -, h⟩ := bind_eq_ok.1 h
      obtain ⟨updated, -, h⟩ := bind_eq_ok.1 h
      obtain ⟨dst, hdst, h⟩ := bind_eq_ok.1 h
      cases h
      exact links_of_set hdst (mem_links.1 hcid)

theorem links_insertIntoPrefix {i : ℕ} {key : Bytes} {val : Option CborObject}
    (h : c.insertIntoPrefix i key val = .ok c') (hcid : cid ∈ c'.links) : cid ∈ c.links := by
  obtain ⟨p, -, h⟩ := bind_eq_ok.1 h
  cases p with
  | link _ =>
      cases h
      exact hcid
  | mappings ms =>
      obtain ⟨dst, hdst, h⟩ := bind_eq_ok.1 h
      cases h
      exact links_of_set hdst (mem_links.1 hcid)

theorem links_addNewPrefix {i : ℕ} {key : Bytes} {val : Option CborObject}
    (h : c.addNewPrefix i key val = .ok c') (hcid : cid ∈ c'.links) : cid ∈ c.links := by
  obtain ⟨dst, hdst, h⟩ := bind_eq_ok.1 h
  cases h
  unfold vecInsert at hdst
  split at hdst
  · rename_i hle
    cases hdst
    rcases (List.mem_insertIdx hle).1 (mem_links.1 hcid) with heq | hmem
    · cases heq
    · exact mem_links.2 hmem
  · cases hdst

theorem links_copyAndMigrateFromInlineToNode {i : ℕ} {child : Cid}
    (h : c.copyAndMigrateFromInlineToNode i child = .ok c') (hcid : cid ∈ c'.links) :
    cid = child ∨ cid ∈ c.links := by
  obtain ⟨newIndex, -, h⟩ := bind_eq_ok.1 h
  obtain ⟨dst, hdst, h⟩ := bind_eq_ok.1 h
  obtain ⟨dst', hdst', h⟩ := bind_eq_ok.1 h
  cases h
  unfold vecInsert at hdst'
  split at hdst'
  · rename_i hle
    cases hdst'
    rcases (List.mem_insertIdx hle).1 (mem_links.1 hcid) with heq | hmem
    · exact Or.inl (Payload.link.inj heq)
    · unfold vecRemove at hdst
      split at hdst
      · cases hdst
        exact Or.inr (mem_links.2 (List.mem_of_mem_eraseIdx hmem))
      · cases hdst
  · cases hdst'

theorem links_overwriteChildLink {i : ℕ} {child : Cid}
    (h : c.overwriteChildLink i child = .ok c') (hcid : cid ∈ c'.links) :
    cid = child ∨ cid ∈ c.links := by
  obtain ⟨setIndex, -, h⟩ := bind_eq_ok.1 h
  obtain ⟨dst, hdst, h⟩ := bind_eq_ok.1 h
  cases h
  unfold vecSet at hdst
  split at hdst
  · cases hdst
    rcases List.mem_or_eq_of_mem_set (mem_links.1 hcid) with hmem | heq
    · exact Or.inr (mem_links.2 hmem)
    · exact Or.inl (Payload.link.inj heq)
  · cases hdst

end Copies

/-! ## The writes of a call -/

/-- Writing some nodes in order takes the store from one state to another. -/
inductive Writes (S : ContentAddressedStorage σ) : σ → List Champ → σ → Prop
  | none (s : σ) : Writes S s [] s
  | one {s s₁ s₂ : σ} {n : Champ} {cid : Cid} {nodes : List Champ}
      (h : S.put s n.toCbor = .ok (cid, s₁)) (hs : Writes S s₁ nodes s₂) :
      Writes S s (n :: nodes) s₂

theorem Writes.append {s s₁ s₂ : σ} {nodes nodes' : List Champ} (h : Writes S s nodes s₁)
    (h' : Writes S s₁ nodes' s₂) : Writes S s (nodes ++ nodes') s₂ := by
  induction h with
  | none => exact h'
  | one hput _ ih => exact .one hput (ih h')

/-- The store's writes return the hashes of what was written. -/
def PutsHash (S : ContentAddressedStorage σ) (sha256 : Bytes → Bytes) : Prop :=
  ∀ s b c s', S.put s b = .ok (c, s') → buildCid (sha256 b.toBytes) false = .ok c

/-- The hash of a node's block. -/
def HasHash (sha256 : Bytes → Bytes) (n : Champ) (cid : Cid) : Prop :=
  buildCid (sha256 n.toCbor.toBytes) false = .ok cid

/-- A link that was handed in, or is the hash of a node written. -/
def Known (sha256 : Bytes → Bytes) (given : Cid → Prop) (written : List Champ) (cid : Cid) : Prop :=
  given cid ∨ ∃ n ∈ written, n.HasHash sha256 cid

/-- What a call has written from the state `s`, when it leaves `node` under `cid` in the state
`s'`. -/
structure WrittenOut (S : ContentAddressedStorage σ) (sha256 : Bytes → Bytes) (given : Cid → Prop)
    (s : σ) (written : List Champ) (node : Champ) (s' : σ) : Prop where
  writes : Writes S s written s'
  links : ∀ n ∈ written, ∀ cid ∈ n.links, Known sha256 given written cid
  node : ∀ cid ∈ node.links, Known sha256 given written cid

/-- The outcome of a put into the node `c`: the node as it was, or one that was written, under its
own hash. -/
def PutOutcome (S : ContentAddressedStorage σ) (sha256 : Bytes → Bytes) (given : Cid → Prop)
    (s : σ) (c : Champ) (ourHash : Cid) (r : (Champ × Cid) × σ) : Prop :=
  ∃ written, WrittenOut S sha256 given s written r.1.1 r.2 ∧
    (r.1 = (c, ourHash) ∨ r.1.1 ∈ written ∧ r.1.1.HasHash sha256 r.1.2)

section Run

variable {given : Cid → Prop} {s : σ}

theorem Known.mono {written written' : List Champ} {cid : Cid}
    (h : Known sha256 given written cid) (hsub : ∀ n ∈ written, n ∈ written') :
    Known sha256 given written' cid := by
  rcases h with h | ⟨n, hn, hcid⟩
  · exact Or.inl h
  · exact Or.inr ⟨n, hsub n hn, hcid⟩

/-- What was written counts as handed in for what comes after. -/
theorem Known.of_later {before later : List Champ} {cid : Cid}
    (h : Known sha256 (Known sha256 given before) later cid) :
    Known sha256 given (before ++ later) cid := by
  rcases h with h | ⟨n, hn, hcid⟩
  · exact h.mono fun n hn => List.mem_append_left _ hn
  · exact Or.inr ⟨n, List.mem_append_right _ hn, hcid⟩

/-- One call after another. -/
theorem WrittenOut.append {s₁ s₂ : σ} {before later : List Champ} {node node' : Champ}
    (h : WrittenOut S sha256 given s before node s₁)
    (h' : WrittenOut S sha256 (Known sha256 given before) s₁ later node' s₂) :
    WrittenOut S sha256 given s (before ++ later) node' s₂ where
  writes := h.writes.append h'.writes
  links := by
    intro n hn cid hcid
    rcases List.mem_append.1 hn with hn | hn
    · exact (h.links n hn cid hcid).mono fun n hn => List.mem_append_left _ hn
    · exact (h'.links n hn cid hcid).of_later
  node := fun cid hcid => (h'.node cid hcid).of_later

/-- `writeNode` after what came before. -/
theorem WrittenOut.writeNode (hput : PutsHash S sha256) {s₁ : σ} {before : List Champ} {node : Champ}
    (h : WrittenOut S sha256 given s before node s₁) {n : Champ}
    (hn : ∀ cid ∈ n.links, Known sha256 given before cid) {r : (Champ × Cid) × σ}
    (hrun : Champ.writeNode S s₁ n = .ok r) (c : Champ) (ourHash : Cid) :
    PutOutcome S sha256 given s c ourHash r := by
  obtain ⟨⟨cid, s₂⟩, hw, hr⟩ := bind_eq_ok.1 hrun
  cases hr
  have hlater : WrittenOut S sha256 (Known sha256 given before) s₁ [n] n s₂ := by
    refine ⟨.one hw (.none _), ?_, fun cid hcid => Or.inl (hn cid hcid)⟩
    intro m hm cid hcid
    cases List.mem_singleton.1 hm
    exact Or.inl (hn cid hcid)
  exact ⟨_, h.append hlater, Or.inr ⟨List.mem_append_right _ List.mem_cons_self, hput _ _ _ _ hw⟩⟩

theorem WrittenOut.none {node : Champ} (h : ∀ cid ∈ node.links, given cid) :
    WrittenOut S sha256 given s [] node s where
  writes := .none s
  links := fun _ hn => absurd hn List.not_mem_nil
  node := fun cid hcid => Or.inl (h cid hcid)

/-- The node a call leaves is one it has written. -/
def WroteNode (S : ContentAddressedStorage σ) (sha256 : Bytes → Bytes) (given : Cid → Prop) (s : σ)
    (r : (Champ × Cid) × σ) : Prop :=
  ∃ written, WrittenOut S sha256 given s written r.1.1 r.2 ∧ r.1.1 ∈ written ∧
    r.1.1.HasHash sha256 r.1.2

/-- A put into a node that was just written. -/
theorem WroteNode.put {cur r : (Champ × Cid) × σ} (h : WroteNode S sha256 given s cur)
    (hput : ∀ given', (∀ cid, given cid → given' cid) → (∀ cid ∈ cur.1.1.links, given' cid) →
      PutOutcome S sha256 given' cur.2 cur.1.1 cur.1.2 r) :
    WroteNode S sha256 given s r := by
  obtain ⟨before, hbefore, hmem, hhash⟩ := h
  obtain ⟨later, hlater, hr⟩ :=
    hput (Known sha256 given before) (fun _ hc => Or.inl hc) hbefore.node
  refine ⟨before ++ later, hbefore.append hlater, ?_⟩
  rcases hr with hr | ⟨hmem', hhash'⟩
  · rw [hr]
    exact ⟨List.mem_append_left _ hmem, hhash⟩
  · exact ⟨List.mem_append_right _ hmem', hhash'⟩

end Run

/-! ## The put -/

section Put

variable {given : Cid → Prop}

/-- The links of every node the store hands out are given. -/
def GivenLoaded (S : ContentAddressedStorage σ) (given : Cid → Prop) : Prop :=
  ∀ s cid n, loadLink S s cid = .ok n → ∀ link ∈ n.links, given link

/-- Puts one after another into a node that was just written. -/
theorem foldlM_wrote {α : Type} {step : (Champ × Cid) × σ → α → Result ((Champ × Cid) × σ)} {s : σ}
    {start r : (Champ × Cid) × σ} (h : WroteNode S sha256 given s start)
    (hstep : ∀ {cur a next}, step cur a = .ok next →
      ∀ given', (∀ cid, given cid → given' cid) → (∀ cid ∈ cur.1.1.links, given' cid) →
        PutOutcome S sha256 given' cur.2 cur.1.1 cur.1.2 next)
    {l : List α} (hrun : l.foldlM step start = .ok r) : WroteNode S sha256 given s r := by
  induction l generalizing start with
  | nil =>
      cases hrun
      exact h
  | cons a l ih =>
      rw [List.foldlM_cons] at hrun
      obtain ⟨next, hnext, hrest⟩ := bind_eq_ok.1 hrun
      exact ih (h.put (hstep hnext)) hrest

/-- Pushing a bucket down leaves a node that was written. -/
theorem pushMappingsDownALevel_wrote (hS : PutsHash S sha256)
    {putAt : σ → Champ → Bytes → Bytes → Option CborObject → Cid → Result ((Champ × Cid) × σ)}
    (hput : ∀ {s c key hash value ourHash r}, putAt s c key hash value ourHash = .ok r →
      ∀ given', (∀ cid, given cid → given' cid) → (∀ cid ∈ c.links, given' cid) →
        PutOutcome S sha256 given' s c ourHash r)
    {s : σ} {c : Champ} {mappings : List KeyElement} {key1 hash1 : Bytes}
    {val1 : Option CborObject} {depth : ℕ} {keyHasher : KeyHasher} {r : (Champ × Cid) × σ}
    (hrun : pushMappingsDownALevel S putAt s c mappings key1 hash1 val1 depth keyHasher = .ok r) :
    WroteNode S sha256 given s r := by
  unfold pushMappingsDownALevel at hrun
  split at hrun
  · cases hrun
  · obtain ⟨⟨emptyHash, s₁⟩, hempty, hrun⟩ := bind_eq_ok.1 hrun
    obtain ⟨start, hstart, hrun⟩ := bind_eq_ok.1 hrun
    have hfresh : ∀ cid ∈ (empty.withBat c.mirrorBat).links, given cid := fun _ h =>
      absurd h List.not_mem_nil
    have hwrote : WroteNode S sha256 given s ((empty.withBat c.mirrorBat, emptyHash), s₁) := by
      refine ⟨[empty.withBat c.mirrorBat], ⟨.one hempty (.none _), ?_, ?_⟩,
        List.mem_cons_self, hS _ _ _ _ hempty⟩
      · intro n hn cid hcid
        cases List.mem_singleton.1 hn
        exact absurd hcid List.not_mem_nil
      · intro cid hcid
        exact absurd hcid List.not_mem_nil
    exact foldlM_wrote (hwrote.put (hput hstart)) (fun hstep => hput hstep) hrun

theorem put_outcome (hS : PutsHash S sha256) (hloaded : GivenLoaded S given) {fuel : ℕ} {s : σ}
    {c : Champ} {key hash : Bytes} {depth : ℕ} {expected value : Option CborObject}
    {bitWidth maxCollisions : ℕ} {keyHasher : KeyHasher} {ourHash : Cid} {r : (Champ × Cid) × σ}
    (hc : ∀ cid ∈ c.links, given cid)
    (hrun : put S fuel s c key hash depth expected value bitWidth maxCollisions keyHasher ourHash =
      .ok r) :
    PutOutcome S sha256 given s c ourHash r := by
  induction fuel generalizing given s c key hash depth expected value ourHash r with
  | zero => cases hrun
  | succ fuel ih =>
      unfold put at hrun
      have hnone : WrittenOut S sha256 given s [] c s := WrittenOut.none hc
      simp only at hrun
      split at hrun
      · obtain ⟨p, -, hrun⟩ := bind_eq_ok.1 hrun
        cases p with
        | link _ => cases hrun
        | mappings mappings =>
            simp only at hrun
            split at hrun
            · obtain ⟨mapping, -, hrun⟩ := bind_eq_ok.1 hrun
              split at hrun
              · cases hrun
              · obtain ⟨n, hn, hrun⟩ := bind_eq_ok.1 hrun
                exact hnone.writeNode hS
                  (fun cid hcid => Or.inl (hc cid (links_copyAndSetValue hn hcid))) hrun c ourHash
            · split at hrun
              · obtain ⟨n, hn, hrun⟩ := bind_eq_ok.1 hrun
                exact hnone.writeNode hS
                  (fun cid hcid => Or.inl (hc cid (links_insertIntoPrefix hn hcid))) hrun c ourHash
              · -- the bucket is full: its mappings go one level down, then the node links there
                obtain ⟨⟨⟨child, childHash⟩, s₁⟩, hpush, hrun⟩ := bind_eq_ok.1 hrun
                obtain ⟨n, hn, hrun⟩ := bind_eq_ok.1 hrun
                obtain ⟨written, hwrote, hmem, hhash⟩ := pushMappingsDownALevel_wrote hS
                  (fun hput given' hgiven hlinks =>
                    ih (fun s cid n hn link hlink => hgiven _ (hloaded s cid n hn link hlink))
                      hlinks hput) hpush
                refine hwrote.writeNode hS (fun cid hcid => ?_) hrun c ourHash
                rcases links_copyAndMigrateFromInlineToNode hn hcid with rfl | hcid
                · exact Or.inr ⟨child, hmem, hhash⟩
                · exact Or.inl (hc cid hcid)
      · split at hrun
        · obtain ⟨⟨childHash, child⟩, hchild, hrun⟩ := bind_eq_ok.1 hrun
          obtain ⟨⟨⟨newChild, newChildHash⟩, s₁⟩, hput, hrun⟩ := bind_eq_ok.1 hrun
          obtain ⟨link, -, hchild⟩ := bind_eq_ok.1 hchild
          obtain ⟨loaded, hload, hchild⟩ := bind_eq_ok.1 hchild
          cases hchild
          obtain ⟨written, hwrote, hr⟩ := ih hloaded (hloaded _ _ _ hload) hput
          simp only at hrun
          split at hrun
          · rename_i heq
            cases hrun
            refine ⟨written, ⟨hwrote.writes, hwrote.links, fun cid hcid => Or.inl (hc cid hcid)⟩,
              Or.inl rfl⟩
          · rename_i hne
            obtain ⟨n, hn, hrun⟩ := bind_eq_ok.1 hrun
            obtain ⟨hmem, hhash⟩ := hr.resolve_left fun h => hne (Prod.mk.inj h).2
            refine hwrote.writeNode hS (fun cid hcid => ?_) hrun c ourHash
            rcases links_overwriteChildLink hn hcid with rfl | hcid
            · exact Or.inr ⟨newChild, hmem, hhash⟩
            · exact Or.inl (hc cid hcid)
        · obtain ⟨n, hn, hrun⟩ := bind_eq_ok.1 hrun
          exact hnone.writeNode hS
            (fun cid hcid => Or.inl (hc cid (links_addNewPrefix hn hcid))) hrun c ourHash

end Put

end Champ

end Peergos
