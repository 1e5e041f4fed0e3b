import PeergosClient.Messaging.FileStore
import PeergosClient.Messaging.StoredRecords

/-!
# When the log in a file is the log in memory

Files answer as a log in memory does for any batches of messages and any chunk boundaries, provided
that what is read back from an encoding is what was encoded.  Of the messages the types of the source
allow, that leaves out those that name a key hash whose CID has no binary form of its own: one of
them in the log and no read that comes past it succeeds as it does in memory.
-/

namespace Peergos

namespace FileBackedMessageStore

variable {s : FileBackedMessageStore} {msgs : List Wire.SignedMessage}

/-- The messages of a log can be read back exactly when the keys they name can. -/
theorem readable_iff (hrange : ∀ m ∈ msgs, m.msg.InRange)
    (hlen : (logBytes msgs).length < 2 ^ 63) :
    Readable msgs ↔ ∀ m ∈ msgs, ∀ k ∈ m.msg.keyHashes, k.target.Written := by
  have hkeys : (∀ m ∈ msgs, m.msg.Encodable) ↔
      ∀ m ∈ msgs, ∀ k ∈ m.msg.keyHashes, k.target.Written :=
    forall₂_congr fun m hm => Wire.MessageEnvelope.encodable_iff (hrange m hm)
  exact ⟨fun h => hkeys.1 h.encodable, fun h => ⟨hkeys.2 h, hlen⟩⟩

/-- Reading from the start parses every message of the log. -/
theorem getMessagesFrom_zero (h : s.Holds msgs) (hlen : (logBytes msgs).length < 2 ^ 63) :
    s.getMessagesFrom 0 = (msgs.map Wire.SignedMessage.toCbor).mapM Wire.SignedMessage.fromCbor := by
  have hordered : ∀ v ∈ msgs.map Wire.SignedMessage.toCbor, v.Ordered := by
    intro v hv
    obtain ⟨m, -, rfl⟩ := List.mem_map.1 hv
    exact m.ordered_toCbor
  have hshort : (msgs.map Wire.SignedMessage.toCbor).length ≤ usizeMax := by
    have := length_le_concat msgs
    rw [List.length_map, usizeMax]
    omega
  have hoffset : s.chunkByteOffset (logBytes msgs).length 0 = (0, 0) := if_pos le_rfl
  simp only [getMessagesFrom, readRange, h.log, hoffset]
  by_cases hempty : (logBytes msgs).length ≤ 0 ∨ usizeMax = 0
  · have hzero : (logBytes msgs).length ≤ 0 := hempty.resolve_right (by rw [usizeMax]; norm_num)
    have hnil : msgs = [] := List.length_eq_zero_iff.1
      (Nat.le_zero.1 ((length_le_concat msgs).trans hzero))
    rw [if_pos hempty, hnil]
    rfl
  · rw [logBytes_eq_streamBytes] at hlen hempty ⊢
    rw [if_neg hempty, List.drop_zero, parseStream_concat _ _ _ hordered hlen, List.drop_zero,
      List.take_of_length_le hshort]

/-- A read of the whole log as it was written shows that every message reads back. -/
theorem written_of_getMessagesFrom (h : s.Holds msgs) (hrange : ∀ m ∈ msgs, m.msg.InRange)
    (hlen : (logBytes msgs).length < 2 ^ 63) (hall : s.getMessagesFrom 0 = .ok msgs) :
    ∀ m ∈ msgs, ∀ k ∈ m.msg.keyHashes, k.target.Written := by
  rw [getMessagesFrom_zero h hlen, mapM_map_iff] at hall
  intro m hm
  have hshort : m.msg.serialize.length < 2 ^ 63 := by
    have hle : m.serialize.length ≤ (logBytes msgs).length := by
      rw [logBytes, RecordStream.concat, List.length_flatMap]
      exact List.le_sum_of_mem (List.mem_map.2 ⟨m, hm, rfl⟩)
    have := m.length_envelope_le
    omega
  exact (Wire.SignedMessage.readsBack_iff (hrange m hm) hshort).1 (hall m hm)

end FileBackedMessageStore

/-- **When the files answer as the log in memory.**  After batches added from the empty log on, each
with the number of messages there are, wherever the chunk boundaries fall, every read from the files
returns what the log in memory returns if and only if every key hash in the messages has a binary
form of its own. -/
theorem fileStore_refines_ram_iff {chunkSize : ℕ} (hpos : 0 < chunkSize)
    (batches : List (List Wire.SignedMessage))
    (hrange : ∀ m ∈ batches.flatten, m.msg.InRange)
    (hlen : (FileBackedMessageStore.logBytes batches.flatten).length < 2 ^ 63) :
    (∃ s, (FileBackedMessageStore.create chunkSize hpos).addAll 0 batches = .ok s ∧
        s.Answers ((RamMessageStore.mk []).addAll 0 batches)) ↔
      ∀ m ∈ batches.flatten, ∀ k ∈ m.msg.keyHashes, k.target.Written := by
  obtain ⟨s, hadd, hholds⟩ := FileBackedMessageStore.addAll_eq
    (FileBackedMessageStore.holds_create hpos) batches
  rw [List.nil_append] at hholds
  rw [RamMessageStore.addAll_empty]
  constructor
  · rintro ⟨s', hadd', hanswers⟩
    obtain rfl : s = s' := Except.ok.inj (hadd.symm.trans hadd')
    have hall : s.getMessagesFrom 0 = .ok batches.flatten :=
      (hanswers 0 0 le_rfl le_rfl (by norm_num)).1
    exact FileBackedMessageStore.written_of_getMessagesFrom hholds hrange hlen hall
  · intro hwritten
    exact ⟨s, hadd, hholds.answers
      ((FileBackedMessageStore.readable_iff hrange hlen).2 hwritten)⟩

/-! ## Samples -/

/-- A short text by the creator of a chat. -/
def sampleMessage (text : String) : Wire.SignedMessage where
  signature := [1, 2, 3]
  msg := ⟨MemberId.creator, TreeClock.init [MemberId.creator], 5, [],
    .application ⟨[.text text]⟩⟩

theorem inRange_sampleMessage (text : String) : (sampleMessage text).msg.InRange := by
  refine ⟨?_, ?_, ?_⟩
  · simp [sampleMessage, MemberId.creator, MemberId.single, MemberId.Encodable]
  · intro e he c hc
    have hinit : (sampleMessage text).msg.timestamp.time.entries = [([0], 0)] := rfl
    obtain rfl : e = ([0], 0) := by simpa [hinit] using he
    obtain rfl : c = 0 := by simpa using hc
    norm_num
  · simp [sampleMessage, Wire.Message.InRange, ApplicationMessage.InRange,
      Content.InRange]

/-- Two batches whose second one, with an invitation in it, crosses several chunk boundaries. -/
def sampleBatches (version : CidVersion) : List (List Wire.SignedMessage) :=
  [[sampleMessage "a"], [invitation version, sampleMessage "b"]]

theorem inRange_sampleBatches (version : CidVersion) :
    ∀ m ∈ (sampleBatches version).flatten, m.msg.InRange := by
  have hflat : (sampleBatches version).flatten =
      [sampleMessage "a", invitation version, sampleMessage "b"] := rfl
  simp only [hflat, List.forall_mem_cons]
  exact ⟨inRange_sampleMessage "a", invitation_inRange version, inRange_sampleMessage "b",
    List.forall_mem_nil _⟩

/-- With a key of version 1 the last message is read past the invitation. -/
theorem fileStore_refines_ram_iff_sampleBatches :
    ∃ s, (FileBackedMessageStore.create 40 (by decide)).addAll 0 (sampleBatches .v1) = .ok s ∧
      s.getMessages 1 3 = .ok [invitation .v1, sampleMessage "b"] := by
  obtain ⟨s, hadd, hanswers⟩ := (fileStore_refines_ram_iff (show 0 < 40 by decide)
    (sampleBatches .v1) (inRange_sampleBatches .v1) (by decide +kernel)).2 (by decide)
  exact ⟨s, hadd, (hanswers 1 3 (by decide) (by decide) (by decide)).2⟩

/-- With a key of version 0 the files fail where the log in memory has three messages. -/
theorem fileStore_not_refines_ram :
    ∃ s, (FileBackedMessageStore.create 40 (by decide)).addAll 0 (sampleBatches .v0) = .ok s ∧
      s.getMessagesFrom 0 = .error (.err (.multiformat "EOF reading varint")) ∧
      ((RamMessageStore.mk []).addAll 0 (sampleBatches .v0)).getMessagesFrom 0 =
        [sampleMessage "a", invitation .v0, sampleMessage "b"] := by
  obtain ⟨s, hadd, hholds⟩ := FileBackedMessageStore.addAll_eq
    (FileBackedMessageStore.holds_create (show 0 < 40 by decide)) (sampleBatches .v0)
  refine ⟨s, hadd, ?_, rfl⟩
  rw [FileBackedMessageStore.getMessagesFrom_zero hholds (by decide +kernel)]
  decide +kernel

end Peergos
