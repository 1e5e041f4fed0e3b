import PeergosClient.Lib.ByteOrder
import PeergosClient.Lib.RecordStream
import PeergosClient.Messaging.Wire

/-!
# The message log in a file

`FileBackedMessageStore`: the log of a chat as the encodings of its messages one after another, and
beside it an index of where some of the messages start, one entry for each append that crossed a
chunk boundary.  A reader starts at the last indexed message at or before the one it wants, parses
from there and skips.

A log kept this way returns what a log kept in memory, `RamMessageStore`, returns.
-/

namespace Peergos

open ByteOrder

variable {α : Type}

/-- `usize::MAX`. -/
def usizeMax : ℕ := 2 ^ 64 - 1

/-! ## Parsing a stream -/

/-- The loop of `parse_stream` over the bytes still to come, with a bound on its rounds. -/
def parseStreamLoop (fromCbor : CborObject → Result α) (skip max : ℕ) :
    ℕ → Bytes → ℕ → List α → Result (List α)
  | 0, _, _, _ => .error .fuel
  | rounds + 1, bytes, skipped, out =>
      if bytes ≠ [] ∧ out.length < max then do
        let (cbor, consumed) ← liftCbor (CborObject.fromBytesConsumed bytes)
        if consumed = 0 then pure out
        else if skipped < skip then
          parseStreamLoop fromCbor skip max rounds (bytes.drop consumed) (skipped + 1) out
        else do
          let msg ← fromCbor cbor
          parseStreamLoop fromCbor skip max rounds (bytes.drop consumed) skipped (out ++ [msg])
      else pure out

/-- `parse_stream`: each round takes at least one byte, so there are no more rounds than bytes. -/
def parseStream (fromCbor : CborObject → Result α) (bytes : Bytes) (skip max : ℕ) :
    Result (List α) :=
  parseStreamLoop fromCbor skip max (bytes.length + 1) bytes 0 []

/-- The bytes of a list of values, one after another. -/
def streamBytes (values : List CborObject) : Bytes :=
  RecordStream.concat CborObject.toBytes values

theorem streamBytes_cons (v : CborObject) (values : List CborObject) :
    streamBytes (v :: values) = v.toBytes ++ streamBytes values :=
  rfl

theorem length_le_streamBytes (values : List CborObject) :
    values.length ≤ (streamBytes values).length := by
  induction values with
  | nil => exact Nat.zero_le _
  | cons v values ih =>
      have hpos := CborObject.length_toBytes_pos v
      rw [streamBytes_cons, List.length_append, List.length_cons]
      omega

/-- `collect::<Result<Vec<_>>>()`, after values already there. -/
theorem mapM_cons_map {β γ : Type} (f : β → Result γ) (b : β) (l : List β) (out : List γ) :
    (do
      let c ← f b
      (l.mapM f).map fun cs => (out ++ [c]) ++ cs) = ((b :: l).mapM f).map fun cs => out ++ cs := by
  rw [List.mapM_cons]
  cases f b with
  | error e => rfl
  | ok c =>
      cases l.mapM f with
      | error e => rfl
      | ok cs => simp [Except.map, pure, Except.pure]

/-- What the loop adds to `out`: the values after those to skip, no more than there is room for. -/
theorem parseStreamLoop_concat (fromCbor : CborObject → Result α) (skip max : ℕ)
    {values : List CborObject} (hordered : ∀ v ∈ values, v.Ordered)
    (hlen : (streamBytes values).length < 2 ^ 63) {rounds : ℕ} (hrounds : values.length < rounds)
    (skipped : ℕ) (out : List α) :
    parseStreamLoop fromCbor skip max rounds (streamBytes values) skipped out =
      (((values.drop (skip - skipped)).take (max - out.length)).mapM fromCbor).map
        fun msgs => out ++ msgs := by
  induction values generalizing rounds skipped out with
  | nil =>
      obtain ⟨rounds, rfl⟩ : ∃ k, rounds = k + 1 := ⟨_, (Nat.succ_pred_eq_of_pos hrounds).symm⟩
      simp [parseStreamLoop, streamBytes, pure, Except.pure, Except.map]
  | cons v values ih =>
      obtain ⟨rounds, rfl⟩ : ∃ k, rounds = k + 1 :=
        ⟨_, (Nat.succ_pred_eq_of_pos (Nat.lt_of_le_of_lt (Nat.zero_le _) hrounds)).symm⟩
      have hpos := CborObject.length_toBytes_pos v
      have hne : streamBytes (v :: values) ≠ [] := by
        intro h
        rw [streamBytes_cons, List.append_eq_nil_iff] at h
        rw [h.1] at hpos
        exact lt_irrefl _ hpos
      by_cases hroom : out.length < max
      · have hread : CborObject.fromBytesConsumed (streamBytes (v :: values)) =
            .ok (v, v.toBytes.length) :=
          CborObject.fromBytesConsumed_encoded (hordered v List.mem_cons_self)
            (lt_trans hlen (by norm_num))
        have hdrop : (streamBytes (v :: values)).drop v.toBytes.length = streamBytes values := by
          rw [streamBytes_cons, List.drop_left]
        have hlen' : (streamBytes values).length < 2 ^ 63 := by
          rw [streamBytes_cons, List.length_append] at hlen
          omega
        have hordered' : ∀ w ∈ values, w.Ordered := fun w hw =>
          hordered w (List.mem_cons_of_mem v hw)
        have hrounds' : values.length < rounds := by simpa using hrounds
        rw [parseStreamLoop, if_pos ⟨hne, hroom⟩, hread]
        simp only [liftCbor, ok_bind, hdrop, if_neg hpos.ne']
        by_cases hskip : skipped < skip
        · rw [if_pos hskip, ih hordered' hlen' hrounds']
          obtain ⟨k, hk⟩ : ∃ k, skip - skipped = k + 1 := ⟨skip - skipped - 1, by omega⟩
          have hk' : skip - (skipped + 1) = k := by omega
          rw [hk, hk', List.drop_succ_cons]
        · have hzero : skip - skipped = 0 := by omega
          obtain ⟨k, hk⟩ : ∃ k, max - out.length = k + 1 := ⟨max - out.length - 1, by omega⟩
          rw [if_neg hskip, hzero, hk, List.drop_zero, List.take_succ_cons, ← mapM_cons_map]
          congr 1
          funext msg
          have hk' : max - (out ++ [msg]).length = k := by
            rw [List.length_append, List.length_singleton]
            omega
          rw [ih hordered' hlen' hrounds', hzero, hk', List.drop_zero]
      · have hzero : max - out.length = 0 := by omega
        rw [parseStreamLoop, if_neg fun h => hroom h.2, hzero, List.take_zero]
        simp [pure, Except.pure, Except.map]

/-- The stream parser returns the values of the stream, from the first one not skipped on. -/
theorem parseStream_concat (fromCbor : CborObject → Result α) (skip max : ℕ)
    {values : List CborObject} (hordered : ∀ v ∈ values, v.Ordered)
    (hlen : (streamBytes values).length < 2 ^ 63) :
    parseStream fromCbor (streamBytes values) skip max =
      ((values.drop skip).take max).mapM fromCbor := by
  have hcount := length_le_streamBytes values
  rw [parseStream, parseStreamLoop_concat fromCbor skip max hordered hlen (by omega)]
  simp only [Nat.sub_zero, List.length_nil, List.nil_append]
  cases ((values.drop skip).take max).mapM fromCbor with
  | error e => rfl
  | ok msgs => rfl

/-! ## The index -/

/-- The loop of `scan_index` over the whole entries there are. -/
def scanIndexLoop (index : ℤ) : ℕ → Bytes → ℕ × ℤ → ℕ × ℤ
  | 0, _, prev => prev
  | entries + 1, bytes, prev =>
      let msgIndex := ofBeI64 (bytes.take 8)
      let byteOffset := asU64 (ofBeI64 ((bytes.drop 8).take 8))
      if index < msgIndex then prev
      else scanIndexLoop index entries (bytes.drop 16) (byteOffset, msgIndex)

/-- `scan_index`. -/
def scanIndex (idxBytes : Bytes) (index : ℤ) : ℕ × ℤ :=
  scanIndexLoop index (idxBytes.length / 16) idxBytes (0, 0)

/-- The loop of `boundary_entry`: how many messages it counts, and their bytes. -/
def boundaryLoop (crossed : ℕ → Bool) : List ℕ → ℕ → ℕ → ℕ × ℕ
  | [], count, total => (count, total)
  | size :: sizes, count, total =>
      if crossed (total + size) then (count + 1, total + size)
      else boundaryLoop crossed sizes (count + 1) (total + size)

/-- `boundary_entry`. -/
def boundaryEntry (sizeBefore chunkSize : ℕ) (sizes : List ℕ) (msgIndex : ℤ) (appendedLen : ℕ) :
    Option (ℤ × ℕ) :=
  let crossed := fun extra : ℕ => decide (sizeBefore / chunkSize < (sizeBefore + extra) / chunkSize)
  if crossed appendedLen = false then none
  else
    let (count, total) := boundaryLoop crossed sizes 0 0
    some (msgIndex + count, sizeBefore + total)

/-! ## The store -/

/-- The files of a `FileBackedMessageStore`: the contents of the log and of the index, if they are
there, and the chunk size of the log file. -/
structure FileBackedMessageStore where
  log : Option Bytes
  index : Option Bytes
  chunkSize : ℕ
  chunkSize_pos : 0 < chunkSize

namespace FileBackedMessageStore

/-- `FileBackedMessageStore::chunk_byte_offset`. -/
def chunkByteOffset (s : FileBackedMessageStore) (logSize : ℕ) (index : ℤ) : ℕ × ℕ :=
  if index ≤ 0 then (0, 0)
  else if logSize < s.chunkSize then (0, asU64 index)
  else
    match s.index with
    | none => (0, asU64 index)
    | some idxBytes =>
        let (offset, atIndex) := scanIndex idxBytes index
        (offset, asU64 (index - atIndex))

/-- `FileBackedMessageStore::read_range`. -/
def readRange (s : FileBackedMessageStore) (start : ℤ) (max : ℕ) :
    Result (List Wire.SignedMessage) :=
  match s.log with
  | none => .ok []
  | some log =>
      let (offset, skip) := s.chunkByteOffset log.length start
      if log.length ≤ offset ∨ max = 0 then .ok []
      else parseStream Wire.SignedMessage.fromCbor (log.drop offset) skip max

/-- `FileBackedMessageStore::get_messages_from`. -/
def getMessagesFrom (s : FileBackedMessageStore) (index : ℤ) : Result (List Wire.SignedMessage) :=
  s.readRange index usizeMax

/-- `FileBackedMessageStore::get_messages`. -/
def getMessages (s : FileBackedMessageStore) (fromIndex toIndex : ℤ) :
    Result (List Wire.SignedMessage) :=
  if toIndex ≤ fromIndex then .ok []
  else s.readRange fromIndex (asU64 (toIndex - fromIndex))

/-- `FileBackedMessageStore::add_messages`, in the order of its writes: the log first, then the
index. -/
def addMessages (s : FileBackedMessageStore) (msgIndex : ℤ) (msgs : List Wire.SignedMessage) :
    Result FileBackedMessageStore :=
  if msgs = [] then .ok s
  else
    let raw := RecordStream.concat Wire.SignedMessage.serialize msgs
    let sizes := msgs.map fun m => m.serialize.length
    match s.log with
    | none => protocolErr "chat message log missing"
    | some log =>
        let appended := { s with log := some (log ++ raw) }
        match boundaryEntry log.length s.chunkSize sizes msgIndex raw.length with
        | none => .ok appended
        | some (entryIndex, entryOffset) =>
            match s.index with
            | none => protocolErr "chat message index missing"
            | some index =>
                .ok { appended with
                  index := some (index ++ (beI64 entryIndex ++ beI64 entryOffset)) }

/-- The files as they are created: nothing in the log, the entry `(0, 0)` in the index. -/
def create (chunkSize : ℕ) (hpos : 0 < chunkSize) : FileBackedMessageStore :=
  ⟨some [], some (beI64 0 ++ beI64 0), chunkSize, hpos⟩

/-- Batches added one after another, each with the number of messages stored so far. -/
def addAll (s : FileBackedMessageStore) (stored : ℕ) :
    List (List Wire.SignedMessage) → Result FileBackedMessageStore
  | [] => .ok s
  | batch :: batches => do
      let s ← s.addMessages stored batch
      s.addAll (stored + batch.length) batches

end FileBackedMessageStore

/-- `RamMessageStore`, the messages of it. -/
structure RamMessageStore where
  messages : List Wire.SignedMessage

namespace RamMessageStore

/-- `RamMessageStore::get_messages_from`. -/
def getMessagesFrom (s : RamMessageStore) (index : ℤ) : List Wire.SignedMessage :=
  let start := min (asU64 (max index 0)) s.messages.length
  s.messages.drop start

/-- `RamMessageStore::get_messages`. -/
def getMessages (s : RamMessageStore) (fromIndex toIndex : ℤ) : List Wire.SignedMessage :=
  let start := min (asU64 (max fromIndex 0)) s.messages.length
  let stop := min (asU64 (max toIndex 0)) s.messages.length
  if stop ≤ start then [] else (s.messages.take stop).drop start

/-- `RamMessageStore::add_messages`. -/
def addMessages (s : RamMessageStore) (_msgIndex : ℤ) (msgs : List Wire.SignedMessage) :
    RamMessageStore := ⟨s.messages ++ msgs⟩

/-- Batches added one after another, each with the number of messages stored so far. -/
def addAll (s : RamMessageStore) (stored : ℕ) : List (List Wire.SignedMessage) → RamMessageStore
  | [] => s
  | batch :: batches => (s.addMessages stored batch).addAll (stored + batch.length) batches

end RamMessageStore

/-! ## What the files hold -/

namespace FileBackedMessageStore

/-- The bytes of a log. -/
def logBytes (msgs : List Wire.SignedMessage) : Bytes :=
  RecordStream.concat Wire.SignedMessage.serialize msgs

/-- Where a message starts in the log. -/
def messageOffset (msgs : List Wire.SignedMessage) (n : ℕ) : ℕ :=
  RecordStream.offset Wire.SignedMessage.serialize msgs n

theorem logBytes_append (msgs batch : List Wire.SignedMessage) :
    logBytes (msgs ++ batch) = logBytes msgs ++ logBytes batch :=
  RecordStream.concat_append

theorem logBytes_cons (m : Wire.SignedMessage) (msgs : List Wire.SignedMessage) :
    logBytes (m :: msgs) = m.serialize ++ logBytes msgs :=
  rfl

theorem messageOffset_zero (msgs : List Wire.SignedMessage) : messageOffset msgs 0 = 0 :=
  RecordStream.offset_zero

theorem messageOffset_le (msgs : List Wire.SignedMessage) (n : ℕ) :
    messageOffset msgs n ≤ (logBytes msgs).length :=
  RecordStream.offset_le

theorem length_le_of_messageOffset {msgs : List Wire.SignedMessage} {n : ℕ}
    (h : (logBytes msgs).length ≤ messageOffset msgs n) : msgs.length ≤ n :=
  not_lt.1 fun hn => absurd h (not_le.2
    (RecordStream.offset_lt_length Wire.SignedMessage.serialize_ne_nil hn))

theorem drop_messageOffset (msgs : List Wire.SignedMessage) (n : ℕ) :
    (logBytes msgs).drop (messageOffset msgs n) = logBytes (msgs.drop n) :=
  RecordStream.drop_offset

/-- The index entry of a message: its number and where it starts. -/
def entryBytes (msgs : List Wire.SignedMessage) (n : ℕ) : Bytes :=
  beI64 n ++ beI64 (messageOffset msgs n)

/-- The log holds the messages, and every index entry is the entry of one of them or of the next
one to come. -/
structure Holds (s : FileBackedMessageStore) (msgs : List Wire.SignedMessage) : Prop where
  log : s.log = some (logBytes msgs)
  index : ∃ entries : List ℕ, (∀ n ∈ entries, n ≤ msgs.length) ∧
    s.index = some (RecordStream.concat (entryBytes msgs) entries)

/-- The messages read back and their bytes can be in memory at once. -/
structure Readable (msgs : List Wire.SignedMessage) : Prop where
  encodable : ∀ m ∈ msgs, m.msg.Encodable
  length_lt : (logBytes msgs).length < 2 ^ 63

variable {s : FileBackedMessageStore} {msgs batch : List Wire.SignedMessage}

theorem length_entryBytes (n : ℕ) : (entryBytes msgs n).length = 16 := by
  simp [entryBytes]

theorem length_concat_entryBytes (entries : List ℕ) :
    (RecordStream.concat (entryBytes msgs) entries).length = 16 * entries.length := by
  induction entries with
  | nil => rfl
  | cons n entries ih =>
      rw [RecordStream.concat_cons, List.length_append, length_entryBytes, ih, List.length_cons]
      omega

theorem length_le_concat (msgs : List Wire.SignedMessage) :
    msgs.length ≤ (logBytes msgs).length := by
  induction msgs with
  | nil => exact Nat.zero_le _
  | cons m msgs ih =>
      have hpos := List.length_pos_iff.2 m.serialize_ne_nil
      rw [logBytes_cons, List.length_append, List.length_cons]
      omega

/-- The entries are as they were when messages have been added. -/
theorem entryBytes_append {n : ℕ} (h : n ≤ msgs.length) :
    entryBytes (msgs ++ batch) n = entryBytes msgs n := by
  have hoff : messageOffset (msgs ++ batch) n = messageOffset msgs n :=
    RecordStream.offset_append h
  rw [entryBytes, hoff, entryBytes]

theorem concat_entryBytes_append {entries : List ℕ} (h : ∀ n ∈ entries, n ≤ msgs.length) :
    RecordStream.concat (entryBytes (msgs ++ batch)) entries =
      RecordStream.concat (entryBytes msgs) entries := by
  induction entries with
  | nil => rfl
  | cons n entries ih =>
      rw [List.forall_mem_cons] at h
      rw [RecordStream.concat_cons, RecordStream.concat_cons, entryBytes_append h.1, ih h.2]

/-! ### Looking up an offset -/

/-- The scan ends at an entry it has seen whose number is at most the one wanted. -/
theorem scanIndexLoop_entries (hread : Readable msgs) (index : ℤ) {entries : List ℕ}
    (hentries : ∀ n ∈ entries, n ≤ msgs.length) {k : ℕ} (hk : k ≤ msgs.length) (hki : k ≤ index) :
    ∃ n ≤ msgs.length, (n : ℤ) ≤ index ∧
      scanIndexLoop index entries.length (RecordStream.concat (entryBytes msgs) entries)
        (messageOffset msgs k, k) = (messageOffset msgs n, (n : ℤ)) := by
  induction entries generalizing k with
  | nil => exact ⟨k, hk, hki, rfl⟩
  | cons n entries ih =>
      rw [List.forall_mem_cons] at hentries
      have hcount := length_le_concat msgs
      have hoff := messageOffset_le msgs n
      have hlen := hread.length_lt
      have hnum : ofBeI64 (beI64 (n : ℤ)) = n := ofBeI64_beI64 (by omega) (by omega)
      have hpos : asU64 (ofBeI64 (beI64 (messageOffset msgs n : ℤ))) =
          messageOffset msgs n := by
        rw [ofBeI64_beI64 (by omega) (by omega), asU64_of_nonneg (by omega) (by omega),
          Int.toNat_natCast]
      have htake : (RecordStream.concat (entryBytes msgs) (n :: entries)).take 8 = beI64 n := by
        rw [RecordStream.concat_cons, entryBytes, List.append_assoc]
        exact List.take_left' (length_beI64 _)
      have hdrop8 : ((RecordStream.concat (entryBytes msgs) (n :: entries)).drop 8).take 8 =
          beI64 (messageOffset msgs n) := by
        rw [RecordStream.concat_cons, entryBytes, List.append_assoc,
          List.drop_left' (length_beI64 _)]
        exact List.take_left' (length_beI64 _)
      have hdrop16 : (RecordStream.concat (entryBytes msgs) (n :: entries)).drop 16 =
          RecordStream.concat (entryBytes msgs) entries :=
        List.drop_left' (length_entryBytes n)
      simp only [List.length_cons, scanIndexLoop, htake, hdrop8, hdrop16, hnum, hpos]
      by_cases hlt : index < n
      · exact ⟨k, hk, hki, by rw [if_pos hlt]⟩
      · obtain ⟨m, hm, hmi, heq⟩ := ih hentries.2 hentries.1 (not_lt.1 hlt)
        exact ⟨m, hm, hmi, by rw [if_neg hlt, heq]⟩

/-- Reading starts at a message, and skips up to the one wanted. -/
theorem chunkByteOffset_eq (h : s.Holds msgs) (hread : Readable msgs) {index : ℤ} (hi : 0 ≤ index)
    (hlt : index < 2 ^ 63) (logSize : ℕ) :
    ∃ n skip, n ≤ msgs.length ∧ n + skip = index.toNat ∧
      s.chunkByteOffset logSize index =
        (messageOffset msgs n, skip) := by
  have hcast : asU64 index = index.toNat := asU64_of_nonneg hi (by omega)
  unfold chunkByteOffset
  by_cases hzero : index ≤ 0
  · refine ⟨0, 0, Nat.zero_le _, by omega, ?_⟩
    rw [if_pos hzero, messageOffset_zero]
  · rw [if_neg hzero]
    by_cases hsmall : logSize < s.chunkSize
    · refine ⟨0, index.toNat, Nat.zero_le _, by omega, ?_⟩
      rw [if_pos hsmall, messageOffset_zero, hcast]
    · obtain ⟨entries, hentries, hindex⟩ := h.index
      obtain ⟨n, hn, hni, hscan⟩ := scanIndexLoop_entries hread index hentries
        (Nat.zero_le msgs.length) hi
      have hcount : (RecordStream.concat (entryBytes msgs) entries).length / 16 =
          entries.length := by
        rw [length_concat_entryBytes]
        omega
      refine ⟨n, index.toNat - n, hn, by omega, ?_⟩
      rw [messageOffset_zero, Nat.cast_zero] at hscan
      simp only [if_neg hsmall, hindex, scanIndex, hcount, hscan]
      rw [asU64_of_nonneg (by omega) (by omega)]
      congr 1
      omega

/-! ### Reading -/

theorem logBytes_eq_streamBytes (msgs : List Wire.SignedMessage) :
    logBytes msgs = streamBytes (msgs.map Wire.SignedMessage.toCbor) := by
  rw [logBytes, streamBytes, RecordStream.concat, RecordStream.concat, List.flatMap_map]
  rfl

theorem Readable.length_envelope_lt (h : Readable msgs) {m : Wire.SignedMessage} (hm : m ∈ msgs) :
    m.msg.serialize.length < 2 ^ 63 := by
  have hle : m.serialize.length ≤ (logBytes msgs).length := by
    rw [logBytes, RecordStream.concat, List.length_flatMap]
    exact List.le_sum_of_mem (List.mem_map.2 ⟨m, hm, rfl⟩)
  have := m.length_envelope_le
  have := h.length_lt
  omega

theorem Readable.drop (h : Readable msgs) (n : ℕ) : Readable (msgs.drop n) := by
  refine ⟨fun m hm => h.encodable m (List.mem_of_mem_drop hm), ?_⟩
  have := h.length_lt
  rw [← drop_messageOffset, List.length_drop]
  omega

/-- Messages parse back from the bytes of a log. -/
theorem parseStream_logBytes (h : Readable msgs) (skip max : ℕ) :
    parseStream Wire.SignedMessage.fromCbor (logBytes msgs) skip max =
      .ok ((msgs.drop skip).take max) := by
  have hlen := h.length_lt
  rw [logBytes_eq_streamBytes] at hlen ⊢
  have hordered : ∀ v ∈ msgs.map Wire.SignedMessage.toCbor, v.Ordered := by
    intro v hv
    obtain ⟨m, -, rfl⟩ := List.mem_map.1 hv
    exact m.ordered_toCbor
  rw [parseStream_concat _ _ _ hordered hlen, ← List.map_drop, ← List.map_take]
  refine mapM_map_eq_ok fun m hm => ?_
  have hmem : m ∈ msgs := List.mem_of_mem_drop (List.mem_of_mem_take hm)
  exact Wire.SignedMessage.fromCbor_toCbor (h.encodable m hmem) (h.length_envelope_lt hmem)

/-- Reading from a message on gives that message and those after it. -/
theorem readRange_eq (h : s.Holds msgs) (hread : Readable msgs) {start : ℤ} (hs : 0 ≤ start)
    (hlt : start < 2 ^ 63) (max : ℕ) :
    s.readRange start max = .ok ((msgs.drop start.toNat).take max) := by
  obtain ⟨n, skip, hn, hskip, hoff⟩ :=
    chunkByteOffset_eq h hread hs hlt (logBytes msgs).length
  simp only [readRange, h.log, hoff]
  by_cases hstop : (logBytes msgs).length ≤ messageOffset msgs n ∨ max = 0
  · rw [if_pos hstop]
    rcases hstop with hend | rfl
    · have hall : msgs.length ≤ start.toNat := by
        have := length_le_of_messageOffset hend
        omega
      rw [List.drop_of_length_le hall, List.take_nil]
    · rw [List.take_zero]
  · rw [if_neg hstop, drop_messageOffset, parseStream_logBytes (hread.drop n), List.drop_drop,
      hskip]

/-! ### Adding -/

/-- The loop stops after some of the messages. -/
theorem boundaryLoop_eq (crossed : ℕ → Bool) (sizes : List ℕ) (count total : ℕ) :
    ∃ k ≤ sizes.length,
      boundaryLoop crossed sizes count total = (count + k, total + (sizes.take k).sum) := by
  induction sizes generalizing count total with
  | nil => exact ⟨0, le_rfl, rfl⟩
  | cons size sizes ih =>
      rw [boundaryLoop]
      by_cases hc : crossed (total + size) = true
      · exact ⟨1, by simp, by simp [hc]⟩
      · obtain ⟨k, hk, heq⟩ := ih (count + 1) (total + size)
        refine ⟨k + 1, by simpa using hk, ?_⟩
        rw [if_neg hc, heq, List.take_succ_cons, List.sum_cons]
        exact Prod.ext (by omega) (by omega)

theorem sum_sizes (batch : List Wire.SignedMessage) (k : ℕ) :
    ((batch.map fun m => m.serialize.length).take k).sum = messageOffset batch k := by
  rw [← List.map_take, messageOffset, RecordStream.offset, RecordStream.concat,
    List.length_flatMap]

/-- An index entry that an append writes is the entry of a message. -/
theorem boundaryEntry_eq {chunkSize appended : ℕ} {e : ℤ × ℕ}
    (h : boundaryEntry (logBytes msgs).length chunkSize (batch.map fun m => m.serialize.length)
      msgs.length appended = some e) :
    ∃ n ≤ (msgs ++ batch).length, e = ((n : ℤ), messageOffset (msgs ++ batch) n) := by
  obtain ⟨k, hk, hloop⟩ := boundaryLoop_eq (fun extra : ℕ => decide ((logBytes msgs).length /
    chunkSize < ((logBytes msgs).length + extra) / chunkSize))
    (batch.map fun m => m.serialize.length) 0 0
  rw [List.length_map] at hk
  simp only [boundaryEntry, hloop] at h
  split at h
  · cases h
  · refine ⟨msgs.length + k, by rw [List.length_append]; omega, ?_⟩
    have hoff : messageOffset (msgs ++ batch) (msgs.length + k) =
        (logBytes msgs).length + messageOffset batch k := by
      rw [messageOffset, RecordStream.offset, List.take_length_add_append,
        RecordStream.concat_append, List.length_append]
      rfl
    rw [hoff, ← sum_sizes, ← Option.some.inj h]
    simp

/-- Adding messages to files that hold some. -/
theorem addMessages_eq (h : s.Holds msgs) (batch : List Wire.SignedMessage) :
    ∃ s', s.addMessages msgs.length batch = .ok s' ∧ s'.Holds (msgs ++ batch) := by
  by_cases hnil : batch = []
  · subst hnil
    exact ⟨s, rfl, by rwa [List.append_nil]⟩
  obtain ⟨entries, hentries, hindex⟩ := h.index
  have hentries' : ∀ n ∈ entries, n ≤ (msgs ++ batch).length := fun n hn =>
    (hentries n hn).trans (by rw [List.length_append]; omega)
  have hlog : logBytes msgs ++ RecordStream.concat Wire.SignedMessage.serialize batch =
      logBytes (msgs ++ batch) := (logBytes_append msgs batch).symm
  simp only [addMessages, if_neg hnil, h.log, hlog]
  cases hentry : boundaryEntry (logBytes msgs).length s.chunkSize
      (batch.map fun m => m.serialize.length) msgs.length
      (RecordStream.concat Wire.SignedMessage.serialize batch).length with
  | none =>
      refine ⟨_, rfl, rfl, entries, hentries', ?_⟩
      rw [concat_entryBytes_append hentries]
      exact hindex
  | some e =>
      obtain ⟨n, hn, rfl⟩ := boundaryEntry_eq hentry
      simp only [hindex]
      refine ⟨_, rfl, rfl, entries ++ [n], ?_, ?_⟩
      · intro n' hn'
        rcases List.mem_append.1 hn' with hn' | hn'
        · exact hentries' n' hn'
        · rw [List.mem_singleton.1 hn']
          exact hn
      · rw [RecordStream.concat_append, concat_entryBytes_append hentries]
        simp [RecordStream.concat, entryBytes]

theorem holds_create {chunkSize : ℕ} (hpos : 0 < chunkSize) : (create chunkSize hpos).Holds [] :=
  ⟨rfl, [0], by simp, by simp [create, RecordStream.concat, entryBytes, messageOffset]⟩

/-- After any batches the files hold their messages. -/
theorem addAll_eq (h : s.Holds msgs) (batches : List (List Wire.SignedMessage)) :
    ∃ s', s.addAll msgs.length batches = .ok s' ∧ s'.Holds (msgs ++ batches.flatten) := by
  induction batches generalizing s msgs with
  | nil => exact ⟨s, rfl, by simpa using h⟩
  | cons batch batches ih =>
      obtain ⟨s₁, hadd, h₁⟩ := addMessages_eq h batch
      obtain ⟨s', hall, h'⟩ := ih h₁
      refine ⟨s', ?_, by simpa using h'⟩
      rw [addAll, hadd, ok_bind, ← List.length_append]
      exact hall

end FileBackedMessageStore

theorem RamMessageStore.messages_addAll (s : RamMessageStore) (stored : ℕ)
    (batches : List (List Wire.SignedMessage)) :
    (s.addAll stored batches).messages = s.messages ++ batches.flatten := by
  induction batches generalizing s stored with
  | nil => simp [addAll]
  | cons batch batches ih => simp [addAll, ih, addMessages]

/-! ## The two stores agree -/

namespace FileBackedMessageStore

variable {s : FileBackedMessageStore} {msgs : List Wire.SignedMessage}

theorem getMessagesFrom_eq_ram (h : s.Holds msgs) (hread : Readable msgs) {i : ℤ} (hi : 0 ≤ i)
    (hlt : i < 2 ^ 63) :
    s.getMessagesFrom i = .ok (RamMessageStore.getMessagesFrom ⟨msgs⟩ i) := by
  have hcount := (length_le_concat msgs).trans_lt hread.length_lt
  have hall : (msgs.drop i.toNat).length ≤ usizeMax := by
    rw [List.length_drop, usizeMax]
    omega
  rw [getMessagesFrom, readRange_eq h hread hi hlt, List.take_of_length_le hall]
  simp only [RamMessageStore.getMessagesFrom, max_eq_left hi,
    asU64_of_nonneg hi (hlt.trans (by norm_num))]
  rcases le_total i.toNat msgs.length with hle | hle
  · rw [min_eq_left hle]
  · rw [min_eq_right hle, List.drop_length, List.drop_of_length_le hle]

theorem getMessages_eq_ram (h : s.Holds msgs) (hread : Readable msgs) {i j : ℤ} (hi : 0 ≤ i)
    (hij : i ≤ j) (hlt : j < 2 ^ 63) :
    s.getMessages i j = .ok (RamMessageStore.getMessages ⟨msgs⟩ i j) := by
  have hj : 0 ≤ j := hi.trans hij
  simp only [RamMessageStore.getMessages, max_eq_left hi, max_eq_left hj,
    asU64_of_nonneg hi (show i < 2 ^ 64 by omega), asU64_of_nonneg hj (show j < 2 ^ 64 by omega)]
  by_cases heq : j ≤ i
  · obtain rfl : i = j := le_antisymm hij heq
    rw [getMessages, if_pos le_rfl, if_pos le_rfl]
  · rw [getMessages, if_neg heq, readRange_eq h hread hi (by omega),
      asU64_of_nonneg (by omega) (by omega)]
    rcases le_total msgs.length i.toNat with hle | hle
    · rw [List.drop_of_length_le hle, List.take_nil, if_pos (by omega)]
    · have hsub : (j - i).toNat = j.toNat - i.toNat := by omega
      rw [min_eq_left hle, hsub, ← List.drop_take]
      split
      · next hstop =>
          have hshort : (msgs.take j.toNat).length ≤ i.toNat := by
            rw [List.length_take]
            omega
          rw [List.drop_of_length_le hshort]
      · rcases le_total j.toNat msgs.length with hj' | hj'
        · rw [min_eq_left hj']
        · rw [min_eq_right hj', List.take_length, List.take_of_length_le hj']

end FileBackedMessageStore

/-- The files answer every read as a log in memory does. -/
def FileBackedMessageStore.Answers (s : FileBackedMessageStore) (ram : RamMessageStore) : Prop :=
  ∀ i j : ℤ, 0 ≤ i → i ≤ j → j < 2 ^ 63 →
    s.getMessagesFrom i = .ok (ram.getMessagesFrom i) ∧
      s.getMessages i j = .ok (ram.getMessages i j)

theorem RamMessageStore.addAll_empty (batches : List (List Wire.SignedMessage)) :
    (RamMessageStore.mk []).addAll 0 batches = ⟨batches.flatten⟩ := by
  have h := (RamMessageStore.mk []).messages_addAll 0 batches
  rw [List.nil_append] at h
  rw [← h]

/-- Files that hold messages which can be read back answer as a log of them in memory. -/
theorem FileBackedMessageStore.Holds.answers {s : FileBackedMessageStore}
    {msgs : List Wire.SignedMessage} (h : s.Holds msgs) (hread : Readable msgs) :
    s.Answers ⟨msgs⟩ := fun _ _ hi hij hlt =>
  ⟨getMessagesFrom_eq_ram h hread hi (by omega), getMessages_eq_ram h hread hi hij hlt⟩

/-! ## Streams of values -/

/-- An encoding says itself where it ends, so a stream of encodings parses back into the values it
was made of, whatever is made of each of them, and a log into its messages. -/
theorem encodings_self_delimiting :
    (∀ v : CborObject, v.Built → ∀ rest : Bytes, (v.toBytes ++ rest).length < 2 ^ 63 →
      CborObject.fromBytesConsumed (v.toBytes ++ rest) = .ok (v, v.toBytes.length)) ∧
    (∀ values : List CborObject, (∀ v ∈ values, v.Built) → (streamBytes values).length < 2 ^ 63 →
      parseStream .ok (streamBytes values) 0 usizeMax = .ok values ∧
      ∀ (fromCbor : CborObject → Result Wire.SignedMessage) (skip max : ℕ),
        parseStream fromCbor (streamBytes values) skip max =
          ((values.drop skip).take max).mapM fromCbor) ∧
    ∀ msgs : List Wire.SignedMessage, FileBackedMessageStore.Readable msgs →
      parseStream Wire.SignedMessage.fromCbor (FileBackedMessageStore.logBytes msgs) 0 usizeMax =
        .ok msgs := by
  refine ⟨fun v hv rest hlen => ?_, fun values hbuilt hlen => ⟨?_, fun fromCbor skip max => ?_⟩,
    fun msgs hread => ?_⟩
  · exact CborObject.fromBytesConsumed_encoded hv.ordered (hlen.trans (by norm_num))
  · have hshort : values.length ≤ usizeMax := by
      have := length_le_streamBytes values
      rw [usizeMax]
      omega
    have hsame : (values.map id).mapM (Except.ok : CborObject → Result CborObject) = .ok values :=
      mapM_map_eq_ok fun _ _ => rfl
    rw [List.map_id] at hsame
    rw [parseStream_concat _ _ _ (fun v hv => (hbuilt v hv).ordered) hlen, List.drop_zero,
      List.take_of_length_le hshort, hsame]
  · exact parseStream_concat _ _ _ (fun v hv => (hbuilt v hv).ordered) hlen
  · have hshort : msgs.length ≤ usizeMax := by
      have := FileBackedMessageStore.length_le_concat msgs
      have := hread.length_lt
      rw [usizeMax]
      omega
    rw [FileBackedMessageStore.parseStream_logBytes hread, List.drop_zero,
      List.take_of_length_le hshort]

theorem encodings_self_delimiting_pair :
    CborObject.fromBytesConsumed ((CborObject.list [.long 300, .null]).toBytes ++ [7, 7]) =
        .ok (.list [.long 300, .null], 5) ∧
      parseStream .ok (streamBytes [.long 300, .null, .str "x"]) 0 usizeMax =
        .ok [.long 300, .null, .str "x"] := by
  refine ⟨?_, ?_⟩
  · refine encodings_self_delimiting.1 (.list [.long 300, .null]) (.list _ ?_) [7, 7]
      (by decide +kernel)
    simp only [List.forall_mem_cons]
    exact ⟨.long _, .null, List.forall_mem_nil _⟩
  · refine (encodings_self_delimiting.2.1 [.long 300, .null, .str "x"] ?_ (by decide +kernel)).1
    simp only [List.forall_mem_cons]
    exact ⟨.long _, .null, .str _, List.forall_mem_nil _⟩

end Peergos
