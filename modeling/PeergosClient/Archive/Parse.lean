import PeergosClient.Archive.Index
import PeergosClient.Fs.SectionRead
import PeergosClient.Lib.ByteOrder

/-!
# Opening an archive

An archive is opened from its end: the end record says where the central directory is, or a zip64
end record does, and the central directory lists the entries.  All of it is bytes that anybody may
have written, with lengths and offsets of up to 64 bits.

An access out of range is a panic, and so is arithmetic out of range in a build that checks it.
`crc32` is the checksum of a byte string.
-/

namespace Peergos

open Chunks ByteOrder

/-! ## Numbers in a byte string -/

/-- The result of an operation on `i64`. -/
def Overflow.i64 (o : Overflow) (n : ℤ) : Result ℤ :=
  if -2 ^ 63 ≤ n ∧ n < 2 ^ 63 then .ok n
  else
    match o with
    | checked => .error .panic
    | wrapping => .ok (Int.bmod n (2 ^ 64))

/-- The little endian number in `width` bytes. -/
def leAt (width : ℕ) (d : Bytes) (i : ℕ) : ℕ := ofLe (slice d i (i + width))

/-- The little endian number in `width` bytes, read by index. -/
def readLe (width : ℕ) (d : Bytes) (i : ℕ) : Result ℕ :=
  if i + width ≤ d.length then .ok (leAt width d i) else .error .panic

/-- `u16_at`. -/
def u16At (d : Bytes) (i : ℕ) : Result ℕ := readLe 2 d i

/-- `u32_at`. -/
def u32At (d : Bytes) (i : ℕ) : Result ℕ := readLe 4 d i

/-- `u64_at`. -/
def u64At (d : Bytes) (i : ℕ) : Result ℕ := do
  let v ← readLe 8 d i
  if v > 2 ^ 63 - 1 then protocolErr s!"Zip value too large: {v}" else pure v

/-- The number a byte string stands for with a sign bit, `i32::from_le_bytes`. -/
def i32At (d : Bytes) (i : ℕ) : Result ℤ := do
  let v ← readLe 4 d i
  pure (Int.bmod v (2 ^ 32))

/-! ## Constants -/

/-- `LOCAL_HEADER_SIG`. -/
def localHeaderSig : ℕ := 0x04034b50
/-- `CENTRAL_HEADER_SIG`. -/
def centralHeaderSig : ℕ := 0x02014b50
/-- `EOCD_SIG`. -/
def eocdSig : ℕ := 0x06054b50
/-- `ZIP64_EOCD_SIG`. -/
def zip64EocdSig : ℕ := 0x06064b50
/-- `ZIP64_LOCATOR_SIG`. -/
def zip64LocatorSig : ℕ := 0x07064b50

/-- `EOCD_SIZE`. -/
def eocdSize : ℕ := 22
/-- `ZIP64_EOCD_SIZE`. -/
def zip64EocdSize : ℕ := 56
/-- `ZIP64_LOCATOR_SIZE`. -/
def zip64LocatorSize : ℕ := 20
/-- `LOCAL_HEADER_SIZE`. -/
def localHeaderSize : ℕ := 30
/-- `CENTRAL_HEADER_SIZE`. -/
def centralHeaderSize : ℕ := 46
/-- `MAX_COMMENT_SIZE`. -/
def maxCommentSize : ℕ := 0xFFFF

/-- `DEFLATED`. -/
def methodDeflated : ℕ := 8

/-- `ZIP64_EXTRA_ID`. -/
def zip64ExtraId : ℕ := 0x0001
/-- `UNICODE_NAME_EXTRA_ID`. -/
def unicodeNameExtraId : ℕ := 0x7075
/-- `EXTENDED_TIMESTAMP_EXTRA_ID`. -/
def extendedTimestampExtraId : ℕ := 0x5455

/-- `U32_MAX`. -/
def u32Max : ℕ := 0xFFFFFFFF

/-- `MAX_ENTRIES`. -/
def maxEntries : ℕ := 500000
/-- `MAX_CENTRAL_DIRECTORY`. -/
def maxCentralDirectory : ℕ := 64 * 1024 * 1024

/-! ## Names and times -/

/-- `CP437_HIGH`. -/
def cp437High : List Char :=
  ("ÇüéâäàåçêëèïîìÄÅÉæÆôöòûùÿÖÜ¢£¥₧ƒáíóúñÑªº¿⌐¬½¼¡«»░▒▓│┤╡╢╖╕╣║╗╝╜╛┐└┴┬├─┼╞╟╚╔╩╦╠═╬╧╨╤╥╙╘╒╓╫╪┘┌█▄▌▐▀" ++
    "αßΓπΣσµτΦΘΩδ∞φε∩≡±≥≤⌠⌡÷≈°∙·√ⁿ²■\u00a0").toList

/-- A byte of a name that is not UTF-8. -/
def decodeCp437 (b : UInt8) : Result Char :=
  if b.toNat < 0x80 then .ok (Char.ofNat b.toNat)
  else
    match cp437High[b.toNat - 0x80]? with
    | some c => .ok c
    | none => .error .panic

/-- `decode_name`. -/
def decodeName (raw : Bytes) (utf8 : Bool) : Result EntryName :=
  if utf8 then
    match String.fromUTF8? ⟨raw.toArray⟩ with
    | some name => .ok name.toList
    | none => protocolErr "Invalid UTF-8 in zip entry name"
  else raw.mapM decodeCp437

/-- `days_from_civil`. -/
def daysFromCivil (y m d : ℤ) : ℤ :=
  let y := if m ≤ 2 then y - 1 else y
  let era := (if y ≥ 0 then y else y - 399).tdiv 400
  let yoe := y - era * 400
  let doy := (153 * (m + if m > 2 then -3 else 9) + 2).tdiv 5 + d - 1
  let doe := yoe * 365 + yoe.tdiv 4 - yoe.tdiv 100 + doy
  era * 146097 + doe - 719468

/-- `dos_time_to_millis`. -/
def dosTimeToMillis (dosTime dosDate : ℕ) : ℤ :=
  if dosDate = 0 then 0
  else
    let year : ℕ := 1980 + dosDate / 2 ^ 9 % 2 ^ 7
    let month : ℕ := dosDate / 2 ^ 5 % 2 ^ 4
    let day : ℕ := dosDate % 2 ^ 5
    let hour : ℕ := dosTime / 2 ^ 11 % 2 ^ 5
    let minute : ℕ := dosTime / 2 ^ 5 % 2 ^ 6
    let second : ℕ := dosTime % 2 ^ 5 * 2
    if ¬ (1 ≤ month ∧ month ≤ 12) ∨ ¬ (1 ≤ day ∧ day ≤ 31) then 0
    else
      ((daysFromCivil year month day * 24 + hour) * 60 + minute) * 60000 + second * 1000

/-! ## Records of the central directory -/

section Records

variable (crc32 : Bytes → ℕ)

/-- What the extra fields of a record can change. -/
structure ExtraState where
  size : ℕ
  compressedSize : ℕ
  localHeaderOffset : ℕ
  rawName : EntryName
  millis : ℤ

/-- A field that a zip64 extra holds if its own place has the largest value: it and where the next
one starts. -/
def zip64Field (d : Bytes) (limit at' v : ℕ) : Result (ℕ × ℕ) :=
  if v = u32Max ∧ at' + 8 ≤ limit then do
    let v ← u64At d at'
    pure (v, at' + 8)
  else pure (v, at')

/-- One extra field, of which the body lies in `d[body..body + len]`. -/
def readExtra (d : Bytes) (utf8 : Bool) (nameStart extraStart id body len : ℕ) (s : ExtraState) :
    Result ExtraState :=
  if id = zip64ExtraId then do
    let (size, next) ← zip64Field d (body + len) body s.size
    let (compressedSize, next) ← zip64Field d (body + len) next s.compressedSize
    let (localHeaderOffset, _) ← zip64Field d (body + len) next s.localHeaderOffset
    pure { s with size, compressedSize, localHeaderOffset }
  else if id = unicodeNameExtraId ∧ !utf8 ∧ len > 5 then do
    let version ← readLe 1 d body
    if version = 1 then do
      let name ← sliceOf d nameStart extraStart
      let crc ← u32At d (body + 1)
      if crc32 name = crc then do
        let unicode ← sliceOf d (body + 5) (body + len)
        let rawName ← decodeName unicode true
        pure { s with rawName }
      else pure s
    else pure s
  else if id = extendedTimestampExtraId ∧ len ≥ 5 then do
    let flags ← readLe 1 d body
    if flags.testBit 0 then do
      let seconds ← i32At d (body + 1)
      pure { s with millis := seconds * 1000 }
    else pure s
  else pure s

/-- The loop over the extra fields from `i` to `stop`. -/
def readExtras (d : Bytes) (utf8 : Bool) (nameStart extraStart stop : ℕ) :
    ℕ → ℕ → ExtraState → Result ExtraState
  | 0, _, _ => .error .fuel
  | fuel + 1, i, s =>
      if i + 4 ≤ stop then do
        let id ← u16At d i
        let len ← u16At d (i + 2)
        let body := i + 4
        if body + len > stop then pure s
        else do
          let s ← readExtra crc32 d utf8 nameStart extraStart id body len s
          readExtras d utf8 nameStart extraStart stop fuel (body + len) s
      else pure s

/-- A record of the central directory before its offset is shifted. -/
def parseRecord (d : Bytes) (offset : ℕ) : Result (Option ZipEntry) := do
  let sig ← u32At d offset
  if sig ≠ centralHeaderSig then protocolErr "Invalid zip central directory record"
  else do
    let flags ← u16At d (offset + 8)
    let method ← u16At d (offset + 10)
    let dosTime ← u16At d (offset + 12)
    let dosDate ← u16At d (offset + 14)
    let crc ← u32At d (offset + 16)
    let compressedSize ← u32At d (offset + 20)
    let size ← u32At d (offset + 24)
    let nameLen ← u16At d (offset + 28)
    let extraLen ← u16At d (offset + 30)
    let external ← u32At d (offset + 38)
    let localHeaderOffset ← u32At d (offset + 42)
    let nameStart := offset + centralHeaderSize
    let extraStart := nameStart + nameLen
    let utf8 := flags.testBit 11
    let name ← sliceOf d nameStart extraStart
    let rawName ← decodeName name utf8
    let s ← readExtras crc32 d utf8 nameStart extraStart (extraStart + extraLen) (extraLen + 1)
      extraStart ⟨size, compressedSize, localHeaderOffset, rawName, dosTimeToMillis dosTime dosDate⟩
    let isDirectory := s.rawName.getLast? = some '/' ∨ external.testBit 4 = true
    match normalisePath s.rawName with
    | some path =>
        if path = [] then pure none
        else
          pure (some ⟨path, isDirectory, if isDirectory then 0 else s.size,
            if isDirectory then 0 else s.compressedSize, method, crc, s.localHeaderOffset, s.millis,
            flags⟩)
    | none => pure none

/-- `ZipEntry::from_central_directory`. -/
def fromCentralDirectory (o : Overflow) (d : Bytes) (offset : ℕ) (delta : ℤ) :
    Result (Option ZipEntry) := do
  match ← parseRecord crc32 d offset with
  | none => pure none
  | some e => do
      let localHeaderOffset ← o.i64 (e.localHeaderOffset + delta)
      pure (some { e with localHeaderOffset })

end Records

/-- `records` from `pos` on. -/
def recordsFrom (o : Overflow) (cd : Bytes) : ℕ → ℕ → Result (List (ℕ × ℕ))
  | 0, _ => .error .fuel
  | fuel + 1, pos => do
      let left ← o.u64 ((cd.length : ℤ) - pos)
      if left ≥ centralHeaderSize then do
        let sig ← u32At cd pos
        if sig = centralHeaderSig then do
          let nameLen ← u16At cd (pos + 28)
          let extraLen ← u16At cd (pos + 30)
          let commentLen ← u16At cd (pos + 32)
          let len := centralHeaderSize + nameLen + extraLen + commentLen
          if left < len then pure []
          else do
            let rest ← recordsFrom o cd fuel (pos + len)
            pure ((pos, len) :: rest)
        else pure []
      else pure []

/-- `records`. -/
def records (o : Overflow) (cd : Bytes) : Result (List (ℕ × ℕ)) :=
  recordsFrom o cd (cd.length + 1) 0

/-! ## Opening -/

/-- An archive in the drive: what can be read of it, and the size it claims to have, a `u64`.  What
is there leaves the length of a local header below `i64::MAX`. -/
structure ArchiveFile where
  content : Bytes
  size : ℕ
  content_le : content.length + 2 ^ 17 ≤ 2 ^ 63
  size_lt : size < 2 ^ 64

/-- `FileWrapper::read_section`, clamped to the claimed size. -/
def ArchiveFile.readSection (o : Overflow) (f : ArchiveFile) (offset length : ℕ) : Result Bytes :=
  if length = 0 ∨ f.size ≤ offset then pure []
  else do
    let sum ← o.u64 (offset + length)
    pure (slice f.content offset (min sum f.size))

/-- `read_exact`. -/
def ArchiveFile.readExact (o : Overflow) (f : ArchiveFile) (offset len : ℕ) : Result Bytes := do
  let bytes ← f.readSection o offset len
  if bytes.length ≠ len then protocolErr "Unexpected end of zip file" else pure bytes

/-- The first of the candidates for which the test holds. -/
def findCandidate (test : ℕ → Result Bool) : List ℕ → Result (Option ℕ)
  | [] => pure none
  | i :: rest => do
      if ← test i then pure (some i) else findCandidate test rest

/-- Whether there is an end record at `i` whose comment reaches the end of the file. -/
def isExactEocd (tail : Bytes) (i : ℕ) : Result Bool := do
  let sig ← u32At tail i
  if sig = eocdSig then do
    let comment ← u16At tail (i + 20)
    pure (decide (i + eocdSize + comment = tail.length))
  else pure false

/-- Whether there is the signature of an end record at `i`. -/
def isEocd (tail : Bytes) (i : ℕ) : Result Bool := do
  let sig ← u32At tail i
  pure (decide (sig = eocdSig))

/-- `find_eocd`: the last end record whose comment reaches the end of the file, or else the last
one. -/
def findEocd (tail : Bytes) : Result (Option ℕ) :=
  if tail.length < eocdSize then pure none
  else do
    let candidates := (List.range (tail.length - eocdSize + 1)).reverse
    match ← findCandidate (isExactEocd tail) candidates with
    | some i => pure (some i)
    | none => findCandidate (isEocd tail) candidates

/-- `Directory`. -/
structure Directory where
  start : ℕ
  size : ℕ
  entries : ℕ
  delta : ℤ
  deriving DecidableEq

/-- `as i64`. -/
def asI64 (n : ℕ) : ℤ := Int.bmod n (2 ^ 64)

section Open

variable (o : Overflow)

/-- The end of `locate_central_directory`: a directory that ends at `position`. -/
def directoryBefore (position size entries offset : ℕ) : Result Directory :=
  if size ≤ position then do
    let delta ← o.i64 (asI64 (position - size) - asI64 offset)
    pure ⟨position - size, size, entries, delta⟩
  else protocolErr "Corrupt zip archive: invalid central directory"

/-- A zip64 end record at `d[at'..]`, which is at `position` of the file. -/
def parseZip64 (d : Bytes) (at' position : ℕ) : Result Directory := do
  let entries ← u64At d (at' + 32)
  let size ← u64At d (at' + 40)
  let offset ← u64At d (at' + 48)
  directoryBefore o position size entries offset

/-- Whether there is a zip64 locator in front of the end record. -/
def hasLocator (tail : Bytes) (eocd : ℕ) : Result Bool :=
  if zip64LocatorSize ≤ eocd then do
    let sig ← u32At tail (eocd - zip64LocatorSize)
    pure (decide (sig = zip64LocatorSig))
  else pure false

/-- The zip64 end record normally sits right before its locator, so is already read. -/
def zip64InTail (tail : Bytes) (locator : ℕ) : Result Bool :=
  if zip64EocdSize ≤ locator then do
    let sig ← u32At tail (locator - zip64EocdSize)
    pure (decide (sig = zip64EocdSig))
  else pure false

/-- `ZipReader::locate_central_directory`. -/
def locateCentralDirectory (f : ArchiveFile) (tail : Bytes) (tailStart eocd : ℕ) :
    Result Directory := do
  let entries ← u16At tail (eocd + 10)
  let size ← u32At tail (eocd + 12)
  let offset ← u32At tail (eocd + 16)
  let locator := eocd - zip64LocatorSize
  if ← hasLocator tail eocd then
    if ← zip64InTail tail locator then
      parseZip64 o tail (locator - zip64EocdSize) (tailStart + (locator - zip64EocdSize))
    else do
      let recorded ← u64At tail (locator + 8)
      let record ← f.readExact o recorded zip64EocdSize
      let sig ← u32At record 0
      if sig ≠ zip64EocdSig then
        protocolErr "Corrupt zip archive: no zip64 end of central directory record"
      else parseZip64 o record 0 recorded
  else if size = u32Max ∨ offset = u32Max then
    protocolErr "Corrupt zip archive: zip64 fields without a zip64 locator"
  else directoryBefore o (tailStart + eocd) size entries offset

/-- The first half of `ZipReader::open`: where the central directory is, and its bytes. -/
def readDirectoryBytes (f : ArchiveFile) : Result (Directory × Bytes) :=
  if f.size < eocdSize then protocolErr "File is too small to be a zip archive"
  else do
    let tailLen := min f.size (eocdSize + maxCommentSize)
    let tailStart := f.size - tailLen
    let tail ← f.readExact o tailStart tailLen
    match ← findEocd tail with
    | none => protocolErr "Not a zip archive: no end of central directory record"
    | some eocd => do
        let cd ← locateCentralDirectory o f tail tailStart eocd
        if cd.entries > maxEntries then
          protocolErr s!"Too many entries to browse this archive: {cd.entries}"
        else do
          let stop ← o.u64 (cd.start + cd.size)
          if stop > f.size then protocolErr "Corrupt zip archive: invalid central directory"
          else if cd.size > maxCentralDirectory then
            protocolErr s!"This archive's index is too big: {cd.size}"
          else do
            let bytes ← f.readExact o cd.start cd.size
            pure (cd, bytes)

variable (crc32 : Bytes → ℕ)

/-- The loop of `ZipReader::open` over the records: the entries so far, and how many were
rejected. -/
def parseEntries (d : Bytes) (delta : ℤ) : List ℕ → List ZipEntry → ℕ →
    Result (List ZipEntry × ℕ)
  | [], entries, rejected => pure (entries, rejected)
  | offset :: rest, entries, rejected => do
      match ← fromCentralDirectory crc32 o d offset delta with
      | some e =>
          if (entries ++ [e]).length > maxEntries then
            protocolErr "Too many entries to browse this archive"
          else parseEntries d delta rest (entries ++ [e]) rejected
      | none =>
          if entries.length > maxEntries then protocolErr "Too many entries to browse this archive"
          else parseEntries d delta rest entries (rejected + 1)

/-- `ZipReader`. -/
structure ZipReader where
  file : ArchiveFile
  fileSize : ℕ
  index : ZipIndex
  cd : Directory

/-- `ZipReader::open`. -/
def openArchive (order : HashOrder) (toLowercase : EntryName → EntryName) (f : ArchiveFile) :
    Result ZipReader := do
  let (cd, bytes) ← readDirectoryBytes o f
  let recs ← records o bytes
  let (entries, rejected) ← parseEntries o crc32 bytes cd.delta (recs.map Prod.fst) [] 0
  let index ← ZipIndex.build order toLowercase entries rejected
  pure ⟨f, f.size, index, cd⟩

/-- `ZipEntry::is_encrypted`. -/
def ZipEntry.isEncrypted (e : ZipEntry) : Bool := e.flags.testBit 0 || e.flags.testBit 6

/-- `ZipEntry::is_supported`. -/
def ZipEntry.isSupported (e : ZipEntry) : Bool :=
  !e.isEncrypted && (e.compressionMethod == methodStored || e.compressionMethod == methodDeflated)

/-- The first part of `ZipReader::read_to`: the method that the local header names, and where the
data of an entry start. -/
def ZipReader.locateData (zip : ZipReader) (e : ZipEntry) : Result (ℕ × ℕ) :=
  if e.isDirectory then
    protocolErr s!"Cannot read a directory in an archive: {String.ofList e.path}"
  else if e.isEncrypted then
    protocolErr s!"Encrypted zip entries are not supported: {String.ofList e.path}"
  else if !e.isSupported then
    protocolErr
      s!"Unsupported zip compression method {e.compressionMethod} in {String.ofList e.path}"
  else do
    let headerAt := asU64 e.localHeaderOffset
    let header ← zip.file.readExact o headerAt localHeaderSize
    let sig ← u32At header 0
    if sig ≠ localHeaderSig then
      protocolErr s!"Invalid local header for zip entry {String.ofList e.path}"
    else do
      let method ← u16At header 8
      let nameLen ← u16At header 26
      let extraLen ← u16At header 28
      let dataStart ← o.u64 (headerAt + localHeaderSize + nameLen + extraLen)
      let stop ← o.u64 (dataStart + e.compressedSize)
      if stop > zip.fileSize then protocolErr s!"Truncated zip entry {String.ofList e.path}"
      else pure (method, dataStart)

end Open

end Peergos
