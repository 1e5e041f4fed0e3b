import PeergosClient.Fs.Cryptree
import PeergosClient.Lib.Exec

/-!
# Writing spaces

All nodes of a writer live in one champ, under their map keys.  Here a champ is the map it refines,
from map keys to stored nodes, and the network the current champ of each writer; a value block is
in its place instead of its CID.  A change to a writing space takes effect when the writer's
pointer is moved to the new champ, in one step at the end.

The chunks of a file are found by a chain of map keys: each one is the hash of the stream secret
and the one before it.
-/

namespace Peergos

/-- A writer's champ, as the map from map keys to nodes. -/
abbrev Tree := Bytes → Option CryptreeBlock

namespace Tree

/-- `ChampWrapper::put` with a value: a compare-and-swap, unless the key is new. -/
def put (t : Tree) (key : Bytes) (expected : Option CryptreeBlock) (value : CryptreeBlock) :
    Result Tree :=
  match t key with
  | some current =>
      if expected = some current then .ok (Function.update t key (some value))
      else protocolErr "champ CAS failed"
  | none => .ok (Function.update t key (some value))

/-- `champ_remove_entry`, and every other removal of a present key with its current value. -/
def removeEntry (t : Tree) (key : Bytes) : Tree := Function.update t key none

end Tree

/-- The champ each writer's pointer leads to. -/
abbrev Network := PublicKeyHash → Option Tree

/-- `open_writer_root`, `open_writer_champ`. -/
def openWriterRoot (net : Network) (writer : PublicKeyHash) : Result Tree :=
  match net writer with
  | some t => .ok t
  | none => .error (.err (.protocolCid "writing space has no pointer" writer.target))

/-- `fetch_chunk_node`, `fetch_chunk_node_verified`. -/
def fetchChunkNode (t : Tree) (rBaseKey : SymmetricKey) (mapKey : Bytes) : Option CryptreeNode :=
  (t mapKey).map fun block => CryptreeNode.fromCbor block rBaseKey

/-- The pointer update at the end of a change: the writer's pointer moves to the new champ.  It is
signed by `signer`, so it is refused for another writer. -/
def commitTree (writer : PublicKeyHash) (signer : SigningPrivateKeyAndPublicHash) (t : Tree)
    (rejected : String) : Exec Network Fault Unit := fun net =>
  if signer.publicKeyHash = writer then (.ok (), Function.update net writer (some t))
  else (protocolErr rejected, net)

/-! ## Locations of chunks -/

section Chain

variable (H : ContentHasher)

/-- `calculate_next_map_key`. -/
def calculateNextMapKey (streamSecret mapKey : Bytes) (bat : Option Bat) :
    Result (Bytes × Option Bat) :=
  let next := H.sha256 (streamSecret ++ mapKey)
  match bat with
  | some b => do
      let nextBat ← Bat.new (H.sha256 (streamSecret ++ b.secret))
      pure (next, some nextBat)
  | none => pure (next, none)

/-- `advance_map_key`. -/
def advanceMapKey (streamSecret mapKey : Bytes) (bat : Option Bat) : ℕ → Result (Bytes × Option Bat)
  | 0 => pure (mapKey, bat)
  | n + 1 => do
      let (mk, bt) ← advanceMapKey streamSecret mapKey bat n
      calculateNextMapKey H streamSecret mk bt

/-- The map key of chunk `i`. -/
def chunkKey (streamSecret mapKey : Bytes) : ℕ → Bytes
  | 0 => mapKey
  | i + 1 => H.sha256 (streamSecret ++ chunkKey streamSecret mapKey i)

/-- The BAT of chunk `i`. -/
def chunkBat (streamSecret : Bytes) (bat : Option Bat) : ℕ → Option Bat
  | 0 => bat
  | i + 1 => (chunkBat streamSecret bat i).map fun b =>
      ⟨H.sha256 (streamSecret ++ b.secret), H.sha256_length _⟩

theorem calculateNextMapKey_chunk (streamSecret mapKey : Bytes) (bat : Option Bat) (i : ℕ) :
    calculateNextMapKey H streamSecret (chunkKey H streamSecret mapKey i)
        (chunkBat H streamSecret bat i) =
      .ok (chunkKey H streamSecret mapKey (i + 1), chunkBat H streamSecret bat (i + 1)) := by
  unfold calculateNextMapKey
  cases h : chunkBat H streamSecret bat i with
  | none => simp [chunkKey, chunkBat, h, pure, Except.pure]
  | some b =>
      simp [chunkKey, chunkBat, h, Bat.new, H.sha256_length, bind, Except.bind, pure, Except.pure]

theorem advanceMapKey_eq (streamSecret mapKey : Bytes) (bat : Option Bat) (n : ℕ) :
    advanceMapKey H streamSecret mapKey bat n =
      .ok (chunkKey H streamSecret mapKey n, chunkBat H streamSecret bat n) := by
  induction n with
  | zero => rfl
  | succ n ih =>
      rw [advanceMapKey, ih]
      exact calculateNextMapKey_chunk H streamSecret mapKey bat n

end Chain

end Peergos
