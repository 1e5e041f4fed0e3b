import PeergosClient.Champ.Merge

/-!
# Merging with one's own base

Where the other side is still at the base there is nothing to replay: the merge compares our tree
with the base, and puts our tree into the WriterData of the base.  So it gives our WriterData again
just if that differs from the base in nothing but its tree.
-/

namespace Peergos

namespace ChampMerge

open Champ

section Congr

variable {σ τ : Type} {S : ContentAddressedStorage σ} {S' : ContentAddressedStorage τ} {s : σ}
  {s' : τ}

/-- Two stores with the same blocks lead to the same block. -/
theorem getBlock_congr (h : S.get s = S'.get s') (cid : Cid) :
    getBlock S s cid = getBlock S' s' cid := by
  unfold getBlock
  rw [h]

theorem loadChamp_congr (h : S.get s = S'.get s') (cid : Option Cid) :
    loadChamp S s cid = loadChamp S' s' cid := by
  cases cid with
  | none => rfl
  | some c => simp only [loadChamp, getBlock_congr h]

theorem diff_congr (h : S.get s = S'.get s') (order : HashOrder) (fuel : ℕ) (path : List ℕ)
    (original updated : Option Cid) (depth : ℕ) (higherLeft higherRight : List KeyElement)
    (out : List DiffEntry) :
    diff S fuel s order path original updated depth higherLeft higherRight out =
      diff S' fuel s' order path original updated depth higherLeft higherRight out := by
  induction fuel generalizing path original updated depth higherLeft higherRight out with
  | zero => rfl
  | succ fuel ih => simp only [diff, loadChamp_congr h, ih]

theorem create_congr (h : S.get s = S'.get s') (root : Cid) (H : KeyHasher) :
    ChampWrapper.create S s root H = ChampWrapper.create S' s' root H := by
  unfold ChampWrapper.create
  rw [h]

end Congr

section OwnMerge

variable {σ : Type} (S : ContentAddressedStorage σ)

/-- What `merge_writer_data` gives where the other side is at the base. -/
def ownMerge (fuel : ℕ) (order : HashOrder) (s : σ) (baseWd ourWd : Cid) : Result CborObject := do
  let base ← getBlock S s baseWd
  let ours ← getBlock S s ourWd
  let baseTree ← treeRoot base
  let ourTree ← treeRoot ours
  let _ ← diff S fuel s order [] (some baseTree) (some ourTree) 0 [] [] []
  let _ ← ChampWrapper.create S s ourTree identityKeyHasher
  withTree base ourTree

variable {S}

theorem ownMerge_congr {τ : Type} {S' : ContentAddressedStorage τ} {s : σ} {s' : τ}
    (h : S.get s = S'.get s') (fuel : ℕ) (order : HashOrder) (baseWd ourWd : Cid) :
    ownMerge S fuel order s baseWd ourWd = ownMerge S' fuel order s' baseWd ourWd := by
  simp only [ownMerge, getBlock_congr h, diff_congr h, create_congr h]

/-- A champ that was opened has the root it was opened at. -/
theorem rootHash_of_create {s : σ} {root : Cid} {H : KeyHasher} {w : ChampWrapper}
    (h : ChampWrapper.create S s root H = .ok w) : w.rootHash = root := by
  unfold ChampWrapper.create at h
  obtain ⟨raw, -, h⟩ := bind_eq_ok.1 h
  cases raw with
  | none => cases h
  | some raw =>
      obtain ⟨node, -, h⟩ := bind_eq_ok.1 h
      cases h
      rfl

/-- Nothing is replayed from the base itself. -/
theorem mergeChamp_base {fuel : ℕ} {ourOrder remoteOrder : HashOrder} {s : σ} {base ours : Cid} :
    mergeChamp S fuel ourOrder remoteOrder s base ours base = (do
      let _ ← diff S fuel s ourOrder [] (some base) (some ours) 0 [] [] []
      let _ ← ChampWrapper.create S s ours identityKeyHasher
      .ok (ours, s)) := by
  unfold mergeChamp
  cases fuel with
  | zero => rfl
  | succ fuel =>
      cases diff S (fuel + 1) s ourOrder [] (some base) (some ours) 0 [] [] [] with
      | error e => rfl
      | ok ds =>
          have hnone : diff S (fuel + 1) s remoteOrder [] (some base) (some base) 0 [] [] [] =
              .ok [] := by
            unfold diff
            rw [if_pos rfl]
          rw [ok_bind, ok_bind, hnone, ok_bind, if_neg (by simp)]
          cases hcreate : ChampWrapper.create S s ours identityKeyHasher with
          | error e => rfl
          | ok w =>
              rw [ok_bind, ok_bind, ← rootHash_of_create hcreate]
              rfl

/-- The merge with the base writes nothing. -/
theorem mergeWriterData_base {fuel : ℕ} {ourOrder remoteOrder : HashOrder} {s : σ}
    {baseWd ourWd : Cid} :
    mergeWriterData S fuel ourOrder remoteOrder s baseWd ourWd baseWd =
      (ownMerge S fuel ourOrder s baseWd ourWd).map fun wd => (wd, s) := by
  unfold mergeWriterData ownMerge
  cases getBlock S s baseWd with
  | error e => rfl
  | ok base =>
      cases getBlock S s ourWd with
      | error e => rfl
      | ok ours =>
          simp only [ok_bind]
          cases treeRoot base with
          | error e => rfl
          | ok b =>
              cases treeRoot ours with
              | error e => rfl
              | ok o =>
                  simp only [ok_bind, mergeChamp_base]
                  cases diff S fuel s ourOrder [] (some b) (some o) 0 [] [] [] with
                  | error e => rfl
                  | ok ds =>
                      cases ChampWrapper.create S s o identityKeyHasher with
                      | error e => rfl
                      | ok w =>
                          simp only [ok_bind]
                          cases withTree base o with
                          | error e => rfl
                          | ok wd => rfl

end OwnMerge

end ChampMerge

end Peergos
