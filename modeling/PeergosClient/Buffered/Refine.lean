import PeergosClient.Buffered.Server
import PeergosClient.Lib.Sha256

/-!
# Write buffering refines direct writing

Any sequence of writes, by any number of writers, gives the same pointers when it goes through the
buffer and is then committed owner by owner as when each write goes to the server at once; and the
server accepts every buffered entry as it comes.  This needs that no writer is written to under two
owners: `latest` looks an entry up by its writer alone, while owners are committed one by one.
-/

namespace Peergos

variable {σ : Type}

/-- The writes through the buffer, committed owner by owner, and the writes made directly: the
server accepts every entry as it comes, and both ways end at the same roots. -/
def RefinesDirect (c : Client σ) (pointer : σ → PublicKeyHash → PointerUpdate)
    (writes : List Write) (owners : List PublicKeyHash) (s : σ) : Prop :=
  ∃ w w' d, writeAll (c.buffered none) writes (World.fresh s) = (.ok (), w) ∧
    Exec.forEach owners c.commitPointers w = (.ok (), w') ∧
    AllAccepted c.target.toMutablePointers (sends owners w.pointers.updates) w.server w'.server ∧
    w'.pointers.updates = [] ∧
    writeAll c.target.toMutablePointers writes s = (.ok (), d) ∧
    ∀ writer, (pointer w'.server writer).updated = (pointer d writer).updated

/-- Buffering refines direct writing as long as every writer is written to under one owner. -/
theorem buffered_refines_direct (c : Client σ) {pointer : σ → PublicKeyHash → PointerUpdate}
    (cas : c.target.CompareAndSwap pointer) (ownerOf : PublicKeyHash → PublicKeyHash)
    (writes : List Write) (howner : ∀ x ∈ writes, x.owner = ownerOf x.signer.publicKeyHash)
    (owners : List PublicKeyHash) (hlisted : ∀ x ∈ writes, x.owner ∈ owners) (s : σ) :
    RefinesDirect c pointer writes owners s := by
  obtain ⟨w, d, hw, hd, h⟩ := (stands_fresh s).writeAll cas howner hlisted
  obtain ⟨w', hrun, hnil, hacc, hs⟩ :=
    c.commitPointers_forEach cas h.alone h.chain h.owned h.listed
  refine ⟨w, w', d, hw, hrun, hacc, hnil, hd, ?_⟩
  intro writer
  rw [hs]
  exact h.targets writer

/-- Two writers of two owners, their writes interleaved and two of them in a row. -/
def interleavedWrites : List Write :=
  [⟨byteKey 1, byteSigner 3, some (byteCid 10)⟩, ⟨byteKey 2, byteSigner 4, some (byteCid 20)⟩,
    ⟨byteKey 1, byteSigner 3, some (byteCid 11)⟩, ⟨byteKey 1, byteSigner 3, some (byteCid 12)⟩]

theorem buffered_refines_direct_interleaved :
    RefinesDirect (RamServer.client Sha256.sha256 false) RamServer.pointer interleavedWrites
      [byteKey 1, byteKey 2] .empty :=
  buffered_refines_direct (RamServer.client Sha256.sha256 false)
    (RamServer.compareAndSwap Sha256.sha256 false)
    (fun writer => if writer = byteKey 3 then byteKey 1 else byteKey 2) interleavedWrites
    (by decide) [byteKey 1, byteKey 2] (by decide) .empty

/-- One writer, written to under two owners in turn. -/
def crossedWrites : List Write :=
  [⟨byteKey 1, byteSigner 3, some (byteCid 10)⟩, ⟨byteKey 2, byteSigner 3, some (byteCid 11)⟩,
    ⟨byteKey 1, byteSigner 3, some (byteCid 12)⟩]

/-- The first owner's second entry starts from a root that the second owner has yet to commit. -/
theorem buffered_not_refines_crossed :
    ¬ RefinesDirect (RamServer.client Sha256.sha256 false) RamServer.pointer crossedWrites
      [byteKey 1, byteKey 2] .empty := by
  rintro ⟨w, w', -, hw, hcommit, -⟩
  have hw' : w = (writeAll ((RamServer.client Sha256.sha256 false).buffered none) crossedWrites
      (World.fresh .empty)).2 := by rw [hw]
  have hok : ((Exec.forEach [byteKey 1, byteKey 2]
      (RamServer.client Sha256.sha256 false).commitPointers w).1).toOption.isSome = true := by
    rw [hcommit]
    rfl
  rw [hw'] at hok
  revert hok
  decide +kernel

end Peergos
