import PeergosClient.Buffered.Server
import PeergosClient.Champ.OwnMerge

/-!
# An entry that was not applied

`commit_one_with_merge` reads the pointer back when its compare-and-swap is not applied.  With no
other client writing there are three ends to that: the pointer is at the entry's own target; it is
where the entry starts from, and the merge with that root remakes the entry's own; or the attempt
ends in an error.

What is said here is about the states of a server in which every call works, so that it applies to
a server behind a connection that has failed once as well.
-/

namespace Peergos

open KeyedLog

variable {σ : Type}

/-! ## Servers -/

/-- Calls for pointers leave the blocks alone and calls for blocks the pointers, and a block that is
there can be put again. -/
structure Target.KeepsBlocks (T : Target σ) (sha256 : Bytes → Bytes)
    (pointer : σ → PublicKeyHash → PointerUpdate) : Prop where
  set_get : ∀ o signer u s, T.store.get (T.setPointerUpdate o signer u s).2 = T.store.get s
  read_get : ∀ o writer s, T.store.get (T.getPointerTarget o writer s).2 = T.store.get s
  put_again : ∀ {s b cid}, T.store.Stored sha256 s cid b →
    ∃ s', T.store.put s b = .ok (cid, s') ∧ T.store.get s' = T.store.get s ∧
      pointer s' = pointer s
  put_new : ∀ {s b cid s'}, T.store.put s b = .ok (cid, s') →
    T.store.Extends s s' ∧ pointer s' = pointer s

/-- From `s` a call leads to `s'`: the pointers are `p`, and the blocks are the same. -/
structure Target.Moved (T : Target σ) (pointer : σ → PublicKeyHash → PointerUpdate)
    (good : σ → Prop) (s s' : σ) (p : PublicKeyHash → PointerUpdate) : Prop where
  good : good s'
  get : T.store.get s' = T.store.get s
  pointer : pointer s' = p

/-- In the good states every call works. -/
structure Target.WorksOn (T : Target σ) (sha256 : Bytes → Bytes)
    (pointer : σ → PublicKeyHash → PointerUpdate) (good : σ → Prop) : Prop where
  set_fits : ∀ {s o signer u}, good s → (pointer s signer.publicKeyHash).Continues u →
    ∃ s', T.setPointerUpdate o signer u s = (.ok true, s') ∧
      T.Moved pointer good s s' (Function.update (pointer s) signer.publicKeyHash u)
  set_refused : ∀ {s o signer u}, good s → ¬ (pointer s signer.publicKeyHash).Continues u →
    ∃ r s', T.setPointerUpdate o signer u s = (r, s') ∧
      (r = .ok false ∨ ∃ e, r = .error (.err e)) ∧ T.Moved pointer good s s' (pointer s)
  get_pointer : ∀ {s} o writer, good s →
    ∃ s', T.getPointerTarget o writer s = (.ok (pointer s writer), s') ∧
      T.Moved pointer good s s' (pointer s)
  put_again : ∀ {s b cid}, good s → T.store.Stored sha256 s cid b →
    ∃ s', T.store.put s b = .ok (cid, s') ∧ T.Moved pointer good s s' (pointer s)
  put_new : ∀ {s b cid s'}, good s → T.store.put s b = .ok (cid, s') →
    good s' ∧ T.store.Extends s s' ∧ pointer s' = pointer s

theorem Target.Moved.refl {T : Target σ} {pointer : σ → PublicKeyHash → PointerUpdate}
    {good : σ → Prop} {s : σ} (h : good s) : T.Moved pointer good s s (pointer s) := ⟨h, rfl, rfl⟩

theorem Target.Moved.trans {T : Target σ} {pointer : σ → PublicKeyHash → PointerUpdate}
    {good : σ → Prop} {s s₁ s₂ : σ} {p₁ p₂ : PublicKeyHash → PointerUpdate}
    (h₁ : T.Moved pointer good s s₁ p₁) (h₂ : T.Moved pointer good s₁ s₂ p₂) :
    T.Moved pointer good s s₂ p₂ := ⟨h₂.good, h₂.get.trans h₁.get, h₂.pointer⟩

theorem Target.Moved.extends {T : Target σ} {pointer : σ → PublicKeyHash → PointerUpdate}
    {good : σ → Prop} {s s' : σ} {p : PublicKeyHash → PointerUpdate}
    (h : T.Moved pointer good s s' p) : T.store.Extends s s' := by
  intro cid b hb
  rw [h.get, hb]

/-- A server that compare-and-swaps works in all its states. -/
theorem MutablePointers.CompareAndSwap.worksOn {T : Target σ} {sha256 : Bytes → Bytes}
    {pointer : σ → PublicKeyHash → PointerUpdate} (cas : T.CompareAndSwap pointer)
    (keeps : T.KeepsBlocks sha256 pointer) : T.WorksOn sha256 pointer fun _ => True where
  set_fits := by
    intro s o signer u _ hfits
    obtain ⟨s', hset, hs'⟩ := cas.set_fits (o := o) hfits
    have hget := keeps.set_get o signer u s
    rw [hset] at hget
    exact ⟨s', hset, trivial, hget, hs'⟩
  set_refused := by
    intro s o signer u _ hrefused
    obtain ⟨r, s', hset, hr, hs'⟩ := cas.set_refused (o := o) hrefused
    have hget := keeps.set_get o signer u s
    rw [hset] at hget
    exact ⟨r, s', hset, hr, trivial, hget, hs'⟩
  get_pointer := by
    intro s o writer _
    obtain ⟨s', hread, hs'⟩ := cas.get_pointer s o writer
    have hget := keeps.read_get o writer s
    rw [hread] at hget
    exact ⟨s', hread, trivial, hget, hs'⟩
  put_again := by
    intro s b cid _ hstored
    obtain ⟨s', hput, hget, hs'⟩ := keeps.put_again hstored
    exact ⟨s', hput, trivial, hget, hs'⟩
  put_new := fun _ hput => ⟨trivial, keeps.put_new hput⟩

/-- The server in memory keeps its blocks and its pointers in different fields. -/
theorem RamServer.keepsBlocks (sha256 : Bytes → Bytes) (bulk : Bool) :
    (RamServer.target sha256 bulk).KeepsBlocks sha256 RamServer.pointer where
  set_get := by
    intro o signer u s
    simp only [RamServer.target, RamServer.swap]
    split_ifs <;> rfl
  read_get := fun _ _ _ => rfl
  put_again := by
    rintro s b cid ⟨hget, hcid⟩
    have hfind : ContentAddressedStorage.find s.blocks cid = some b := Except.ok.inj hget
    refine ⟨s, ?_, rfl, rfl⟩
    simp [RamServer.target, RamServer.store, ContentAddressedStorage.memory, hcid, liftMf, hfind]
  put_new := by
    intro s b cid s' hput
    obtain ⟨⟨c, blocks⟩, hblocks, h⟩ := bind_eq_ok.1 hput
    cases h
    exact ⟨(ContentAddressedStorage.memory_lawful sha256).put_extends hblocks, rfl⟩

/-! ## Entries -/

/-- The merge of a root with the one it was made from gives that root again. -/
def Client.Remakes (c : Client σ) (s : σ) (base ours : Cid) : Prop :=
  ∃ wd, c.target.store.Stored c.sha256 s ours wd ∧
    ChampMerge.ownMerge c.target.store c.fuel c.ourOrder s base ours = .ok wd

/-- An entry that is refused at the root it starts from, by a pointer with this sequence, is settled
without an error, and the pointer is at its target then. -/
def Client.Settles (c : Client σ) (s : σ) (sequence : Option Int64) (u : WriterUpdate) : Prop :=
  u.update.original = u.update.updated ∨
    sequence ≠ none ∧ ∃ base ours, u.update.original = some base ∧ u.update.updated = some ours ∧
      c.Remakes s base ours

/-- An entry that is refused at the root it starts from, by a pointer with this sequence, ends the
attempt. -/
def Client.Stops (c : Client σ) (s : σ) (sequence : Option Int64) (u : WriterUpdate) : Prop :=
  u.update.original ≠ u.update.updated ∧ ∀ base ours, u.update.original = some base →
    u.update.updated = some ours → sequence = none ∨
      ∃ e, ChampMerge.ownMerge c.target.store c.fuel c.ourOrder s base ours = .error e

/-- The merge of an entry with the root its pointer has moved to fails, whatever else the server
holds. -/
def Client.Conflicts (c : Client σ) (s : σ) (u : WriterUpdate) (theirs : Option Cid) : Prop :=
  ∀ base ours root, u.update.original = some base → u.update.updated = some ours →
    theirs = some root → ∀ s', c.target.store.Extends s s' →
      ∃ e, ChampMerge.mergeWriterData c.target.store c.fuel c.ourOrder c.remoteOrder s' base ours
        root = .error e

section Remakes

variable {c : Client σ} {s s' : σ}

theorem Client.Remakes.congr {τ : Type} {c' : Client τ} {s' : τ} {base ours : Cid}
    (h : c.Remakes s base ours) (hget : c'.target.store.get s' = c.target.store.get s)
    (hsha : c'.sha256 = c.sha256) (hfuel : c'.fuel = c.fuel) (horder : c'.ourOrder = c.ourOrder) :
    c'.Remakes s' base ours := by
  obtain ⟨wd, ⟨hstored, hcid⟩, hmerge⟩ := h
  refine ⟨wd, ⟨by rw [hget, hstored], by rw [hsha, hcid]⟩, ?_⟩
  rw [hfuel, horder, ChampMerge.ownMerge_congr hget, hmerge]

theorem Client.Settles.congr {τ : Type} {c' : Client τ} {s' : τ} {sequence : Option Int64}
    {u : WriterUpdate} (h : c.Settles s sequence u)
    (hget : c'.target.store.get s' = c.target.store.get s) (hsha : c'.sha256 = c.sha256)
    (hfuel : c'.fuel = c.fuel) (horder : c'.ourOrder = c.ourOrder) :
    c'.Settles s' sequence u := by
  refine h.imp_right ?_
  rintro ⟨hsome, base, ours, hbase, hours, hremakes⟩
  exact ⟨hsome, base, ours, hbase, hours, hremakes.congr hget hsha hfuel horder⟩

theorem Client.Stops.congr {τ : Type} {c' : Client τ} {s' : τ} {sequence : Option Int64}
    {u : WriterUpdate} (h : c.Stops s sequence u)
    (hget : c'.target.store.get s' = c.target.store.get s) (hfuel : c'.fuel = c.fuel)
    (horder : c'.ourOrder = c.ourOrder) : c'.Stops s' sequence u := by
  refine ⟨h.1, fun base ours hbase hours => (h.2 base ours hbase hours).imp_right ?_⟩
  rintro ⟨e, he⟩
  exact ⟨e, by rw [hfuel, horder, ChampMerge.ownMerge_congr hget, he]⟩

end Remakes

/-! ## Runs -/

section Runs

variable {c : Client σ} {pointer : σ → PublicKeyHash → PointerUpdate} {good : σ → Prop}
  (owner : PublicKeyHash) {w : World σ} {u : WriterUpdate}

/-- `commit_one_with_merge` after a compare-and-swap that was not applied. -/
def Client.settle (c : Client σ) (owner : PublicKeyHash) (u : WriterUpdate) :
    Exec (World σ) Fault Unit := do
  let remote ← c.await (c.target.getPointerTarget owner u.writer)
  if remote.updated = u.update.updated then pure () else c.mergeOne owner u remote

theorem Client.commitOneWithMerge_of_refused (halone : w.others = []) {r : Result Bool} {s : σ}
    (hset : c.target.setPointerUpdate owner u.signer u.update w.server = (r, s))
    (hr : r = .ok false ∨ ∃ e, r = .error (.err e)) :
    c.commitOneWithMerge owner u w = c.settle owner u { w with server := s } := by
  have hattempt : Exec.attempt (c.await (c.target.setPointerUpdate owner u.signer u.update)) w =
      (.ok r, { w with server := s }) := by
    rw [Exec.attempt_run, c.await_alone halone hset]
  refine (Exec.bind_of_ok hattempt).trans ?_
  rcases hr with rfl | ⟨e, rfl⟩
  · rfl
  · rfl

variable (hworks : c.target.WorksOn c.sha256 pointer good) (halone : w.others = [])
  (hgood : good w.server)

include hworks halone hgood

/-- The pointer is at the entry's target. -/
theorem Client.settle_found (htarget : (pointer w.server u.writer).updated = u.update.updated) :
    ∃ s, c.settle owner u w = (.ok (), { w with server := s }) ∧
      c.target.Moved pointer good w.server s (pointer w.server) := by
  obtain ⟨s, hget, hs⟩ := hworks.get_pointer owner u.writer hgood
  refine ⟨s, (Exec.bind_of_ok (c.await_alone halone hget)).trans ?_, hs⟩
  rw [if_pos htarget]
  rfl

/-- The pointer is where the entry starts from, and the merge remakes the entry's root. -/
theorem Client.settle_remade (hsigner : u.signer.publicKeyHash = u.writer) {base ours : Cid}
    (hbase : u.update.original = some base) (hours : u.update.updated = some ours)
    (hne : u.update.original ≠ u.update.updated)
    (hremote : (pointer w.server u.writer).updated = u.update.original) {a : Int64}
    (hseq : (pointer w.server u.writer).sequence = some a)
    (hremakes : c.Remakes w.server base ours) :
    ∃ s, c.settle owner u w = (.ok (), { w with server := s }) ∧
      c.target.Moved pointer good w.server s (Function.update (pointer w.server) u.writer
        ⟨some base, some ours, some (a + 1)⟩) := by
  obtain ⟨wd, hstored, hmerge⟩ := hremakes
  obtain ⟨s₁, hget, hs₁⟩ := hworks.get_pointer owner u.writer hgood
  have hmerge₁ : ChampMerge.mergeWriterData c.target.store c.fuel c.ourOrder c.remoteOrder s₁ base
      ours base = .ok (wd, s₁) := by
    rw [ChampMerge.mergeWriterData_base, ChampMerge.ownMerge_congr hs₁.get, hmerge]
    rfl
  have hstored₁ : c.target.store.Stored c.sha256 s₁ ours wd :=
    ⟨by rw [hs₁.get, hstored.1], hstored.2⟩
  obtain ⟨s₂, hput, hs₂⟩ := hworks.put_again hs₁.good hstored₁
  have hfits : (pointer s₂ u.signer.publicKeyHash).Continues
      ⟨some base, some ours, some (a + 1)⟩ := by
    rw [hsigner, hs₂.pointer, hs₁.pointer]
    refine ⟨by rw [hremote, hbase], ?_⟩
    rw [hseq]
    rfl
  obtain ⟨s₃, hset, hs₃⟩ := hworks.set_fits (o := owner) hs₂.good hfits
  refine ⟨s₃, ?_, ?_⟩
  · refine (Exec.bind_of_ok (c.await_alone halone hget)).trans ?_
    rw [if_neg (by rw [hremote]; exact hne)]
    unfold mergeOne
    rw [hremote, hbase, hours, hseq]
    refine (Exec.bind_of_ok (c.await_alone (w := { w with server := s₁ }) halone
      (r := .ok wd) (s := s₁) ?_)).trans ?_
    · rw [Exec.ofExcept, hmerge₁]
    refine (Exec.bind_of_ok (c.await_alone (w := { w with server := s₁ }) halone
      (r := .ok ours) (s := s₂) ?_)).trans ?_
    · rw [Exec.ofExcept, hput]
    exact Exec.bind_of_ok (c.await_alone (w := { w with server := s₂ }) halone hset)
  · rw [hsigner, hs₂.pointer, hs₁.pointer] at hs₃
    exact (hs₁.trans hs₂).trans hs₃

/-- The pointer is where the entry starts from, and nothing comes of the merge. -/
theorem Client.settle_stops
    (hremote : (pointer w.server u.writer).updated = u.update.original)
    (hstops : c.Stops w.server (pointer w.server u.writer).sequence u) :
    ∃ e s, c.settle owner u w = (.error e, { w with server := s }) ∧ good s ∧
      c.target.store.Extends w.server s ∧ pointer s = pointer w.server := by
  obtain ⟨hne, hmerge⟩ := hstops
  obtain ⟨s₁, hget, hs₁⟩ := hworks.get_pointer owner u.writer hgood
  have hread : c.settle owner u w =
      c.mergeOne owner u (pointer w.server u.writer) { w with server := s₁ } := by
    refine (Exec.bind_of_ok (c.await_alone halone hget)).trans ?_
    rw [if_neg (by rw [hremote]; exact hne)]
  rw [hread]
  unfold mergeOne
  rw [hremote]
  cases hbase : u.update.original with
  | none => exact ⟨_, s₁, rfl, hs₁.good, hs₁.extends, hs₁.pointer⟩
  | some base =>
      cases hours : u.update.updated with
      | none => exact ⟨_, s₁, rfl, hs₁.good, hs₁.extends, hs₁.pointer⟩
      | some ours =>
          have hrun : ChampMerge.mergeWriterData c.target.store c.fuel c.ourOrder c.remoteOrder s₁
              base ours base = _ := ChampMerge.mergeWriterData_base
          rw [ChampMerge.ownMerge_congr hs₁.get] at hrun
          cases hown : ChampMerge.ownMerge c.target.store c.fuel c.ourOrder w.server base ours with
          | error e =>
              rw [hown] at hrun
              refine ⟨e, s₁, Exec.bind_of_error (c.await_alone (w := { w with server := s₁ })
                halone ?_), hs₁.good, hs₁.extends, hs₁.pointer⟩
              rw [Exec.ofExcept, hrun]
              rfl
          | ok wd =>
              rw [hown] at hrun
              have hnone : (pointer w.server u.writer).sequence = none := by
                rcases hmerge base ours hbase hours with h | ⟨e, he⟩
                · exact h
                · cases hown.symm.trans he
              rw [hnone]
              have hmerged : c.await (Exec.ofExcept fun s => ChampMerge.mergeWriterData
                  c.target.store c.fuel c.ourOrder c.remoteOrder s base ours base)
                  { w with server := s₁ } = (.ok wd, { w with server := s₁ }) :=
                c.await_alone (w := { w with server := s₁ }) halone (by
                  rw [Exec.ofExcept, hrun]
                  rfl)
              cases hput : c.target.store.put s₁ wd with
              | error e =>
                  refine ⟨e, s₁, (Exec.bind_of_ok hmerged).trans (Exec.bind_of_error
                    (c.await_alone (w := { w with server := s₁ }) halone ?_)), hs₁.good,
                    hs₁.extends, hs₁.pointer⟩
                  rw [Exec.ofExcept, hput]
              | ok written =>
                  obtain ⟨cid, s₂⟩ := written
                  obtain ⟨hgood₂, hext₂, hs₂⟩ := hworks.put_new hs₁.good hput
                  have hwritten : c.await (Exec.ofExcept fun s => c.target.store.put s wd)
                      { w with server := s₁ } = (.ok cid, { w with server := s₂ }) :=
                    c.await_alone (w := { w with server := s₁ }) halone (by
                      rw [Exec.ofExcept, hput])
                  -- a pointer without a sequence is not continued by an update without one
                  have hrefused : ¬ (pointer s₂ u.signer.publicKeyHash).Continues
                      ⟨some base, some cid, none⟩ := by
                    rintro ⟨-, hseq⟩
                    cases hseq
                  obtain ⟨r, s₃, hset, hr, hs₃⟩ := hworks.set_refused (o := owner) hgood₂ hrefused
                  have hpointer : pointer s₃ = pointer w.server := by
                    rw [hs₃.pointer, hs₂, hs₁.pointer]
                  have hext : c.target.store.Extends w.server s₃ :=
                    (hs₁.extends.trans hext₂).trans hs₃.extends
                  have hlast := c.await_alone (w := { w with server := s₂ }) halone hset
                  rcases hr with rfl | ⟨e, rfl⟩
                  · exact ⟨_, s₃, (Exec.bind_of_ok hmerged).trans ((Exec.bind_of_ok hwritten).trans
                      (Exec.bind_of_ok hlast)), hs₃.good, hext, hpointer⟩
                  · exact ⟨_, s₃, (Exec.bind_of_ok hmerged).trans ((Exec.bind_of_ok hwritten).trans
                      (Exec.bind_of_error hlast)), hs₃.good, hext, hpointer⟩

/-- An entry that continues its writer's pointer. -/
theorem Client.commitOneWithMerge_fits (hfits : u.Fits (pointer w.server u.writer)) :
    ∃ s, c.commitOneWithMerge owner u w = (.ok (), { w with server := s }) ∧
      c.target.Moved pointer good w.server s
        (Function.update (pointer w.server) u.writer u.update) := by
  obtain ⟨hsigner, hcontinues⟩ := hfits
  rw [← hsigner] at hcontinues
  obtain ⟨s, hset, hs⟩ := hworks.set_fits (o := owner) hgood hcontinues
  rw [hsigner] at hs
  exact ⟨s, c.commitOneWithMerge_accepted halone hset, hs⟩

/-- An entry whose target the server has is left at that. -/
theorem Client.commitOneWithMerge_passed (hsigner : u.signer.publicKeyHash = u.writer)
    (hrefused : ¬ (pointer w.server u.writer).Continues u.update)
    (htarget : (pointer w.server u.writer).updated = u.update.updated) :
    ∃ s, c.commitOneWithMerge owner u w = (.ok (), { w with server := s }) ∧
      c.target.Moved pointer good w.server s (pointer w.server) := by
  rw [← hsigner] at hrefused
  obtain ⟨r, s₁, hset, hr, hs₁⟩ := hworks.set_refused (o := owner) hgood hrefused
  obtain ⟨s, hrun, hs⟩ := c.settle_found owner (w := { w with server := s₁ }) (u := u) hworks
    halone hs₁.good (by rw [hs₁.pointer]; exact htarget)
  rw [hs₁.pointer] at hs
  exact ⟨s, (c.commitOneWithMerge_of_refused owner halone hset hr).trans hrun, hs₁.trans hs⟩

/-- An entry that is refused where it starts from, and whose root the merge remakes. -/
theorem Client.commitOneWithMerge_remade (hsigner : u.signer.publicKeyHash = u.writer)
    (hrefused : ¬ (pointer w.server u.writer).Continues u.update) {base ours : Cid}
    (hbase : u.update.original = some base) (hours : u.update.updated = some ours)
    (hne : u.update.original ≠ u.update.updated)
    (hremote : (pointer w.server u.writer).updated = u.update.original) {a : Int64}
    (hseq : (pointer w.server u.writer).sequence = some a)
    (hremakes : c.Remakes w.server base ours) :
    ∃ s, c.commitOneWithMerge owner u w = (.ok (), { w with server := s }) ∧
      c.target.Moved pointer good w.server s (Function.update (pointer w.server) u.writer
        ⟨some base, some ours, some (a + 1)⟩) := by
  rw [← hsigner] at hrefused
  obtain ⟨r, s₁, hset, hr, hs₁⟩ := hworks.set_refused (o := owner) hgood hrefused
  obtain ⟨s, hrun, hs⟩ := c.settle_remade owner (w := { w with server := s₁ }) hworks halone
    hs₁.good hsigner hbase hours hne (by rw [hs₁.pointer]; exact hremote)
    (by rw [hs₁.pointer]; exact hseq) (hremakes.congr hs₁.get rfl rfl rfl)
  rw [hs₁.pointer] at hs
  exact ⟨s, (c.commitOneWithMerge_of_refused owner halone hset hr).trans hrun, hs₁.trans hs⟩

/-- The pointer is at another root, and the merge with that fails. -/
theorem Client.settle_conflicts
    (hne : (pointer w.server u.writer).updated ≠ u.update.updated)
    (hconflicts : c.Conflicts w.server u (pointer w.server u.writer).updated) :
    ∃ e s, c.settle owner u w = (.error e, { w with server := s }) := by
  obtain ⟨s, hget, hs⟩ := hworks.get_pointer owner u.writer hgood
  have hread : c.settle owner u w =
      c.mergeOne owner u (pointer w.server u.writer) { w with server := s } := by
    refine (Exec.bind_of_ok (c.await_alone halone hget)).trans ?_
    rw [if_neg hne]
  rw [hread]
  unfold mergeOne
  cases hbase : u.update.original with
  | none => exact ⟨_, s, rfl⟩
  | some base =>
      cases hours : u.update.updated with
      | none => exact ⟨_, s, rfl⟩
      | some ours =>
          cases htheirs : (pointer w.server u.writer).updated with
          | none => exact ⟨_, s, rfl⟩
          | some root =>
              obtain ⟨e, he⟩ := hconflicts base ours root hbase hours htheirs s hs.extends
              refine ⟨e, s, Exec.bind_of_error (c.await_alone (w := { w with server := s }) halone
                ?_)⟩
              rw [Exec.ofExcept, he]

/-- An entry that the server has passed, and that conflicts with what came after it. -/
theorem Client.commitOneWithMerge_conflicts (hsigner : u.signer.publicKeyHash = u.writer)
    (hrefused : ¬ (pointer w.server u.writer).Continues u.update)
    (hne : (pointer w.server u.writer).updated ≠ u.update.updated)
    (hconflicts : c.Conflicts w.server u (pointer w.server u.writer).updated) :
    ∃ e s, c.commitOneWithMerge owner u w = (.error e, { w with server := s }) := by
  rw [← hsigner] at hrefused
  obtain ⟨r, s₁, hset, hr, hs₁⟩ := hworks.set_refused (o := owner) hgood hrefused
  rw [c.commitOneWithMerge_of_refused owner halone hset hr]
  refine c.settle_conflicts owner (w := { w with server := s₁ }) hworks halone hs₁.good ?_ ?_
  · rw [hs₁.pointer]
    exact hne
  · rw [hs₁.pointer]
    exact fun base ours root hbase hours hroot s' hext =>
      hconflicts base ours root hbase hours hroot s' (hs₁.extends.trans hext)

/-- A chain is accepted from its start on. -/
theorem Client.forEach_fits {entries : List WriterUpdate}
    (hchain : Applicable (pointer w.server) entries) :
    ∃ s, Exec.forEach entries (c.commitOneWithMerge owner) w = (.ok (), { w with server := s }) ∧
      c.target.Moved pointer good w.server s (pointersAfter (pointer w.server) entries) := by
  induction entries generalizing w with
  | nil => exact ⟨w.server, rfl, .refl hgood⟩
  | cons u entries ih =>
      obtain ⟨hfits, hrest⟩ := hchain
      obtain ⟨s₁, hone, hs₁⟩ := c.commitOneWithMerge_fits owner hworks halone hgood hfits
      rw [← hs₁.pointer] at hrest
      obtain ⟨s, hrun, hs⟩ := ih (w := { w with server := s₁ }) halone hs₁.good hrest
      rw [hs₁.pointer] at hs
      exact ⟨s, (Exec.forEach_cons_of_ok hone).trans hrun, hs₁.trans hs⟩

/-- Entries whose targets the server has are left at that. -/
theorem Client.forEach_passed {passed : List WriterUpdate}
    (h : ∀ u ∈ passed, u.signer.publicKeyHash = u.writer ∧
      ¬ (pointer w.server u.writer).Continues u.update ∧
      (pointer w.server u.writer).updated = u.update.updated) :
    ∃ s, Exec.forEach passed (c.commitOneWithMerge owner) w = (.ok (), { w with server := s }) ∧
      c.target.Moved pointer good w.server s (pointer w.server) := by
  induction passed generalizing w with
  | nil => exact ⟨w.server, rfl, .refl hgood⟩
  | cons u passed ih =>
      obtain ⟨hsigner, hrefused, htarget⟩ := h u List.mem_cons_self
      obtain ⟨s₁, hone, hs₁⟩ :=
        c.commitOneWithMerge_passed owner hworks halone hgood hsigner hrefused htarget
      obtain ⟨s, hrun, hs⟩ := ih (w := { w with server := s₁ }) halone hs₁.good (by
        rw [hs₁.pointer]
        exact fun v hv => h v (List.mem_cons_of_mem _ hv))
      rw [hs₁.pointer] at hs
      exact ⟨s, (Exec.forEach_cons_of_ok hone).trans hrun, hs₁.trans hs⟩

/-- Entries the server has passed, one of which conflicts with what came after it. -/
theorem Client.forEach_conflicts {passed : List WriterUpdate}
    (h : ∀ u ∈ passed, u.signer.publicKeyHash = u.writer ∧
      ¬ (pointer w.server u.writer).Continues u.update ∧
      ((pointer w.server u.writer).updated ≠ u.update.updated →
        c.Conflicts w.server u (pointer w.server u.writer).updated))
    (hne : ∃ u ∈ passed, (pointer w.server u.writer).updated ≠ u.update.updated) :
    ∃ e s, Exec.forEach passed (c.commitOneWithMerge owner) w =
      (.error e, { w with server := s }) := by
  induction passed generalizing w with
  | nil =>
      obtain ⟨u, hu, -⟩ := hne
      cases hu
  | cons u passed ih =>
      obtain ⟨hsigner, hrefused, hconflicts⟩ := h u List.mem_cons_self
      by_cases htarget : (pointer w.server u.writer).updated = u.update.updated
      · obtain ⟨s₁, hone, hs₁⟩ :=
          c.commitOneWithMerge_passed owner hworks halone hgood hsigner hrefused htarget
        have hne' : ∃ v ∈ passed, (pointer w.server v.writer).updated ≠ v.update.updated := by
          obtain ⟨v, hv, hvne⟩ := hne
          rcases List.mem_cons.1 hv with rfl | hv
          · exact absurd htarget hvne
          · exact ⟨v, hv, hvne⟩
        obtain ⟨e, s, hrun⟩ := ih (w := { w with server := s₁ }) halone hs₁.good (by
          rw [hs₁.pointer]
          intro v hv
          obtain ⟨hsigner', hrefused', hconflicts'⟩ := h v (List.mem_cons_of_mem _ hv)
          exact ⟨hsigner', hrefused', fun hvne base ours root hbase hours hroot s' hext =>
            hconflicts' hvne base ours root hbase hours hroot s' (hs₁.extends.trans hext)⟩)
          (by rw [hs₁.pointer]; exact hne')
        exact ⟨e, s, (Exec.forEach_cons_of_ok hone).trans hrun⟩
      · obtain ⟨e, s, hone⟩ := c.commitOneWithMerge_conflicts owner hworks halone hgood hsigner
          hrefused htarget (hconflicts htarget)
        exact ⟨e, s, Exec.bind_of_error hone⟩

end Runs

/-! ## A pointer that is behind -/

/-- One writer's pointer is where it should be, but its sequence is `n` behind. -/
structure Behind (writer : PublicKeyHash) (n : ℕ) (p q : PublicKeyHash → PointerUpdate) :
    Prop where
  others : ∀ v, v ≠ writer → q v = p v
  target : (q writer).updated = (p writer).updated
  sequence : (p writer).sequence = some ((q writer).sequence.getD 0 + Int64.ofNat n)

theorem increment_eq (sequence : Option Int64) :
    PointerUpdate.increment sequence = some (sequence.getD 0 + 1) := by
  cases sequence with
  | none => rfl
  | some a => rfl

section Behind

variable {v : PublicKeyHash} {n : ℕ} {p q : PublicKeyHash → PointerUpdate} {u : WriterUpdate}

theorem Behind.updated (h : Behind v n p q) (writer : PublicKeyHash) :
    (q writer).updated = (p writer).updated := by
  by_cases hw : writer = v
  · exact hw ▸ h.target
  · rw [h.others writer hw]

/-- An update that was taken for applied leaves its writer's pointer behind by one. -/
theorem Behind.of_same (hfits : u.Fits (p u.writer))
    (hsame : u.update.original = u.update.updated) :
    Behind u.writer 1 (Function.update p u.writer u.update) p where
  others := fun w hw => (Function.update_of_ne hw ..).symm
  target := by rw [Function.update_self, ← hsame, hfits.2.1]
  sequence := by
    rw [Function.update_self, hfits.2.2, increment_eq]
    rfl

theorem Behind.other (h : Behind v n p q) (hne : u.writer ≠ v) :
    Behind v n (Function.update p u.writer u.update) (Function.update q u.writer u.update) where
  others := by
    intro w hw
    by_cases hu : w = u.writer
    · rw [hu, Function.update_self, Function.update_self]
    · rw [Function.update_of_ne hu, Function.update_of_ne hu, h.others w hw]
  target := by rw [Function.update_of_ne hne.symm, Function.update_of_ne hne.symm, h.target]
  sequence := by
    rw [Function.update_of_ne hne.symm, Function.update_of_ne hne.symm, h.sequence]

/-- The next update of the writer is refused. -/
theorem Behind.not_continues (h : Behind u.writer n p q) (hpos : 0 < n) (hlt : n < 2 ^ 64)
    (hfits : u.Fits (p u.writer)) : ¬ (q u.writer).Continues u.update := by
  rintro ⟨-, hseq⟩
  rw [hfits.2.2, h.sequence, increment_eq, increment_eq, Option.getD_some, Option.some.injEq,
    Int64.add_left_inj, Int64.add_eq_left] at hseq
  have hzero : (Int64.ofNat n).toBitVec.toNat = 0 := by rw [hseq]; rfl
  simp at hzero
  omega

theorem Behind.same (h : Behind u.writer n p q) (hfits : u.Fits (p u.writer))
    (hsame : u.update.original = u.update.updated) :
    Behind u.writer (n + 1) (Function.update p u.writer u.update) q where
  others := fun w hw => by rw [Function.update_of_ne hw, h.others w hw]
  target := by rw [Function.update_self, h.target, ← hsame, hfits.2.1]
  sequence := by
    rw [Function.update_self, hfits.2.2, h.sequence, increment_eq, Option.getD_some,
      Int64.ofNat_add, Int64.add_assoc]
    rfl

theorem Behind.remade (h : Behind u.writer n p q) (hfits : u.Fits (p u.writer)) {a : Int64}
    (hseq : (q u.writer).sequence = some a) :
    Behind u.writer n (Function.update p u.writer u.update)
      (Function.update q u.writer ⟨u.update.original, u.update.updated, some (a + 1)⟩) where
  others := fun w hw => by
    rw [Function.update_of_ne hw, Function.update_of_ne hw, h.others w hw]
  target := by rw [Function.update_self, Function.update_self]
  sequence := by
    rw [Function.update_self, Function.update_self, hfits.2.2, h.sequence, increment_eq, hseq,
      Option.getD_some, Option.getD_some, Option.getD_some, Int64.add_assoc, Int64.add_assoc,
      Int64.add_comm (Int64.ofNat n)]

end Behind

/-- Entries of a chain of which one writer is behind, each of that writer's settled where it is
refused. -/
theorem Client.forEach_behind {c : Client σ} {pointer : σ → PublicKeyHash → PointerUpdate}
    {good : σ → Prop} (owner : PublicKeyHash) (hworks : c.target.WorksOn c.sha256 pointer good)
    {w : World σ} (halone : w.others = []) (hgood : good w.server) {v : PublicKeyHash} {n : ℕ}
    {entries : List WriterUpdate} {p : PublicKeyHash → PointerUpdate}
    (hbehind : Behind v n p (pointer w.server)) (hpos : 0 < n) (hlt : n + entries.length < 2 ^ 64)
    (hchain : Applicable p entries)
    (hsettles : ∀ u ∈ entries, u.writer = v → c.Settles w.server (pointer w.server v).sequence u) :
    ∃ s, Exec.forEach entries (c.commitOneWithMerge owner) w = (.ok (), { w with server := s }) ∧
      good s ∧ ∀ writer, (pointer s writer).updated = (pointersAfter p entries writer).updated := by
  induction entries generalizing w n p with
  | nil => exact ⟨w.server, rfl, hgood, hbehind.updated⟩
  | cons u entries ih =>
      obtain ⟨hfits, hrest⟩ := hchain
      rw [List.length_cons] at hlt
      have hlater : ∀ {s : σ} {p' : PublicKeyHash → PointerUpdate},
          c.target.Moved pointer good w.server s p' →
          ((p' v).sequence = none → (pointer w.server v).sequence = none) →
          ∀ x ∈ entries, x.writer = v → c.Settles s (p' v).sequence x := by
        intro s p' hs hseq x hx hxv
        have hx' := (hsettles x (List.mem_cons_of_mem _ hx) hxv).congr hs.get rfl rfl rfl
        refine hx'.imp_right ?_
        rintro ⟨hsome, hmerge⟩
        exact ⟨fun hnone => hsome (hseq hnone), hmerge⟩
      -- whatever the entry does, the rest goes on from there
      suffices hone : ∃ s p' n', c.commitOneWithMerge owner u w =
          (.ok (), { w with server := s }) ∧ c.target.Moved pointer good w.server s p' ∧
          Behind v n' (Function.update p u.writer u.update) p' ∧ 0 < n' ∧ n' ≤ n + 1 ∧
          ((p' v).sequence = none → (pointer w.server v).sequence = none) by
        obtain ⟨s₁, p', n', hrun₁, hs₁, hbehind', hpos', hle, hseq⟩ := hone
        have hserver := hs₁.pointer
        obtain ⟨s, hrun, hgood', hs⟩ := ih (w := { w with server := s₁ }) halone hs₁.good
          (hserver ▸ hbehind') hpos' (by omega) hrest (by
            rw [hserver]
            exact hlater hs₁ hseq)
        exact ⟨s, (Exec.forEach_cons_of_ok hrun₁).trans hrun, hgood', hs⟩
      by_cases hv : u.writer = v
      · subst hv
        have hrefused := hbehind.not_continues hpos (by omega) hfits
        have htarget : (pointer w.server u.writer).updated = u.update.original := by
          rw [hbehind.target, hfits.2.1]
        by_cases hsame : u.update.original = u.update.updated
        · obtain ⟨s, hrun, hs⟩ := c.commitOneWithMerge_passed owner hworks halone hgood hfits.1
            hrefused (htarget.trans hsame)
          exact ⟨s, _, n + 1, hrun, hs, hbehind.same hfits hsame, by omega, le_rfl, id⟩
        · obtain ⟨hsome, base, ours, hbase, hours, hremakes⟩ :=
            (hsettles u List.mem_cons_self rfl).resolve_left hsame
          obtain ⟨a, ha⟩ := Option.ne_none_iff_exists'.1 hsome
          obtain ⟨s, hrun, hs⟩ := c.commitOneWithMerge_remade owner hworks halone hgood hfits.1
            hrefused hbase hours hsame htarget ha hremakes
          have hnext := hbehind.remade hfits ha
          rw [hbase, hours] at hnext
          refine ⟨s, _, n, hrun, hs, hnext, hpos, Nat.le_succ n, fun hnone => ?_⟩
          rw [Function.update_self] at hnone
          cases hnone
      · have hfits' : u.Fits (pointer w.server u.writer) := by
          rw [hbehind.others _ hv]
          exact hfits
        obtain ⟨s, hrun, hs⟩ := c.commitOneWithMerge_fits owner hworks halone hgood hfits'
        refine ⟨s, _, n, hrun, hs, hbehind.other hv, hpos, Nat.le_succ n, fun hnone => ?_⟩
        rwa [Function.update_of_ne (Ne.symm hv)] at hnone

end Peergos
