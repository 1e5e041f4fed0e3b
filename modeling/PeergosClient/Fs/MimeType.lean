import PeergosClient.Fs.ValidUtf8

/-!
# What kind of file it is

`calculate_mime_type` guesses the type of a file from its first bytes and its name.  The checks run
in the order of the source, one group after another, and the first that applies decides.  An object
of this program begins with the byte 0x82, which no check at the beginning of the file looks for
before its own, so only the checks further in can get in the way.
-/

namespace Peergos

namespace MimeType

/-- `HEADER_BYTES_TO_IDENTIFY_MIME_TYPE`. -/
def headerBytesToIdentifyMimeType : ℕ := 40

/-- A byte string literal. -/
def ascii (s : String) : Bytes := s.toList.map fun c => UInt8.ofNat c.toNat

/-! ## The bytes that are looked for -/

def mid : Bytes := ascii "MThd"
def id3 : Bytes := ascii "ID3"
def mp3 : Bytes := [0xff, 0xfb]
def mp3_2 : Bytes := [0xff, 0xfa]
def riff : Bytes := ascii "RIFF"
def wav_2 : Bytes := ascii "WAVE"
def flac : Bytes := ascii "fLaC"
def opus : Bytes := ascii "OpusHead"
def oggFlac : Bytes := 0x7f :: ascii "FLAC"
def vorbis : Bytes := 1 :: ascii "vorbis"
def speex : Bytes := ascii "Speex" ++ [0x20, 0x20, 0x20]

def mp4 : Bytes := ascii "ftyp"
def iso2 : Bytes := ascii "iso2"
def isom : Bytes := ascii "isom"
def dash : Bytes := ascii "dash"
def mp41 : Bytes := ascii "mp41"
def mp42 : Bytes := ascii "mp42"
def m4v : Bytes := ascii "M4V "
def avif : Bytes := ascii "avif"
def heic : Bytes := ascii "heic"
def avc1 : Bytes := ascii "avc1"
def m4a : Bytes := ascii "M4A "
def qt : Bytes := ascii "qt  "
def qt2 : Bytes := ascii "pnot"
def qt3 : Bytes := ascii "moov"
def qt4 : Bytes := ascii "mdat"
def threegp : Bytes := ascii "3gp"

def flv : Bytes := ascii "FLV"
def form : Bytes := ascii "FORM"
def aiff : Bytes := ascii "AIFF"
def avi : Bytes := ascii "AVI "
def ogg : Bytes := ascii "OggS" ++ [0, 2]
def theora : Bytes := 0x80 :: ascii "theora"
def fishead : Bytes := ascii "fishead" ++ [0]
def ogmVideo : Bytes := 1 :: ascii "video" ++ [0, 0, 0]
def webm : Bytes := ascii "webm"
def matroskaStart : Bytes := [0x1a, 0x45, 0xdf, 0xa3]

def ico : Bytes := [0, 0, 1, 0]
def cur : Bytes := [0, 0, 2, 0]
def bmp : Bytes := ascii "BM"
def gif : Bytes := ascii "GIF"
def jpeg : Bytes := [255, 216]
def tiff1 : Bytes := ascii "II" ++ [0x2a, 0]
def tiff2 : Bytes := ascii "MM" ++ [0, 0x2a]
def png : Bytes := 137 :: ascii "PNG" ++ [13, 10, 26, 10]
def webp : Bytes := ascii "WEBP"
def jpegxl : Bytes := [0xff, 0x0a]
def jpegxl2 : Bytes := [0, 0, 0, 0x0c, 0x4a, 0x58, 0x4c, 0x20, 0x0d, 0x0a, 0x87, 0x0a]

def pdf : Bytes := 0x25 :: ascii "PDF"
def ps : Bytes := ascii "%!PS-Adobe-"
def zip : Bytes := ascii "PK" ++ [3, 4]
def gzip : Bytes := [0x1f, 0x8b, 0x08]
def rar : Bytes := ascii "Rar!" ++ [0x1a, 0x07]
def wasm : Bytes := 0 :: ascii "asm"

def ics : Bytes := ascii "BEGIN:VCALENDAR"
def vcf : Bytes := ascii "BEGIN:VCARD"
def xml : Bytes := ascii "<?xml"
def svg : Bytes := ascii "<svg "
def woff : Bytes := ascii "wOFF"
def woff2 : Bytes := ascii "wOF2"
def otf : Bytes := ascii "OTTO"
def ttf : Bytes := [0, 1, 0, 0]

def cborPeergosPost : Bytes := [0x82, 17]
def cborPeergosIdentityProof : Bytes := [0x82, 0x18, 24]
def cborPeergosEmail : Bytes := [0x82, 0x18, 18]

/-- `PEERGOS_POST`. -/
def peergosPost : String := "application/vnd.peergos-post"

/-- `PEERGOS_IDENTITY`. -/
def peergosIdentity : String := "application/vnd.peergos-identity-proof"

/-- `PEERGOS_EMAIL`. -/
def peergosEmail : String := "application/vnd.peergos-email"

/-! ## Comparisons -/

/-- `matches`. -/
def matchesAt (a : Bytes) (offset : ℕ) (target : Bytes) : Bool :=
  if offset + target.length > a.length then false
  else (a.drop offset).take target.length = target

/-- `matches0`. -/
def matches0 (a target : Bytes) : Bool := matchesAt a 0 target

/-- `str::ends_with`. -/
def endsWith (filename suffix : String) : Bool := suffix.toList.isSuffixOf filename.toList

/-- The part of the name after its last dot, if it has one. -/
def extension (filename : String) : Option String :=
  if '.' ∈ filename.toList then
    some (.ofList (filename.toList.reverse.takeWhile (· ≠ '.')).reverse)
  else none

/-- `str::contains`. -/
def contains (s part : String) : Bool := decide (part.toList <:+: s.toList)

/-! ## The groups of checks -/

/-- The pictures that are told by their first bytes. -/
def imageType (start : Bytes) (filename : String) : Option String :=
  if matches0 start bmp then some "image/bmp"
  else if matches0 start gif then some "image/gif"
  else if matches0 start png then
    if endsWith filename ".ico" then some "image/vnd.microsoft.icon" else some "image/png"
  else if matches0 start jpeg then some "image/jpg"
  else if matches0 start ico then some "image/x-icon"
  else if matches0 start cur then some "image/x-icon"
  else if matches0 start riff && matchesAt start 8 webp then some "image/webp"
  else if matches0 start jpegxl || matches0 start jpegxl2 then some "image/jxl"
  else if matches0 start tiff1 || matches0 start tiff2 then some "image/tiff"
  else none

/-- The types of a file in the MP4 container. -/
def mp4Type (start : Bytes) : String :=
  if matchesAt start 8 iso2 || matchesAt start 8 isom || matchesAt start 8 dash ||
      matchesAt start 8 mp42 || matchesAt start 8 mp41 || matchesAt start 16 isom then "video/mp4"
  else if matchesAt start 8 m4v then "video/m4v"
  else if matchesAt start 8 avif then "image/avif"
  else if matchesAt start 8 heic then "image/heic"
  else if matchesAt start 8 m4a then "audio/mp4"
  else if matchesAt start 8 avc1 then "video/h264"
  else if matchesAt start 8 qt then "video/quicktime"
  else if matchesAt start 8 threegp then "video/3gpp"
  else "video/mp4"

def videoType (start : Bytes) : Option String :=
  if start.head? = some 0 && matchesAt start 4 mp4 then some (mp4Type start)
  else if matchesAt start 4 qt2 || matchesAt start 4 qt3 || matchesAt start 4 qt4 then
    some "video/quicktime"
  else if matchesAt start 24 webm then some "video/webm"
  else if matches0 start ogg &&
      (matchesAt start 28 theora || matchesAt start 28 fishead || matchesAt start 28 ogmVideo) then
    some "video/ogg"
  else if matches0 start matroskaStart then some "video/x-matroska"
  else if matches0 start flv then some "video/x-flv"
  else if matchesAt start 8 avi then some "video/avi"
  else none

def audioType (start : Bytes) : Option String :=
  if matches0 start mid then some "audio/midi"
  else if matches0 start id3 || matches0 start mp3 || matches0 start mp3_2 then some "audio/mpeg"
  else if matches0 start flac then some "audio/flac"
  else if matches0 start ogg &&
      (matchesAt start 28 opus || matchesAt start 28 oggFlac || matchesAt start 28 vorbis ||
        matchesAt start 28 speex) then some "audio/ogg"
  else if matches0 start riff && matchesAt start 8 wav_2 then some "audio/wav"
  else if matches0 start form && matchesAt start 8 aiff then some "audio/aiff"
  else none

/-- The types of a zip archive, by its name. -/
def zipType (filename : String) : String :=
  if endsWith filename ".jar" then "application/java-archive"
  else if endsWith filename ".epub" then "application/epub+zip"
  else if endsWith filename ".pptx" then
    "application/vnd.openxmlformats-officedocument.presentationml.presentation"
  else if endsWith filename ".docx" then
    "application/vnd.openxmlformats-officedocument.wordprocessingml.document"
  else if endsWith filename ".xlsx" then
    "application/vnd.openxmlformats-officedocument.spreadsheetml.sheet"
  else if endsWith filename ".odt" then "application/vnd.oasis.opendocument.text"
  else if endsWith filename ".ods" then "application/vnd.oasis.opendocument.spreadsheet"
  else if endsWith filename ".odp" then "application/vnd.oasis.opendocument.presentation"
  else if endsWith filename ".apk" then "application/vnd.android.package-archive"
  else "application/zip"

/-- Documents, programs, archives and fonts. -/
def applicationType (start : Bytes) (filename : String) : Option String :=
  if matches0 start pdf then some "application/pdf"
  else if matches0 start ps then some "application/postscript"
  else if matches0 start wasm then some "application/wasm"
  else if matches0 start zip then some (zipType filename)
  else if matches0 start gzip then some "application/x-gzip"
  else if matches0 start rar then some "application/x-rar-compressed"
  else if matches0 start woff then some "font/woff"
  else if matches0 start woff2 then some "font/woff2"
  else if matches0 start otf then some "font/otf"
  else if matches0 start ttf then some "font/ttf"
  else none

/-- The objects of this program. -/
def peergosType (start : Bytes) : Option String :=
  if matches0 start cborPeergosPost then some peergosPost
  else if matches0 start cborPeergosIdentityProof then some peergosIdentity
  else if matches0 start cborPeergosEmail then some peergosEmail
  else none

/-- `text_mimetype`. -/
def textMimetype (ext : String) : Option String :=
  ([("md", "md"), ("csv", "csv"), ("edn", "x-clojure"),
    ("excalidraw", "application/vnd.excalidraw+json"), ("xml", "xml"), ("asp", "asp"),
    ("rt", "richtext"), ("rtf", "rtf"), ("rtx", "richtext"), ("java", "x-java-source"),
    ("mjs", "javascript"), ("gv", "vnd.graphviz"), ("f", "x-fortran"), ("s", "x-asm"),
    ("p", "x-pascal"), ("yaml", "yaml"), ("c", "x-c")].find? (·.1 = ext)).map Prod.snd

/-- What a text is, by the ending of its name. -/
def extensionType (filename : String) : Option String :=
  (extension filename).bind fun ext =>
    match textMimetype ext with
    | some mapped => some ("text/" ++ mapped)
    | none =>
        if ext = "c9r" ∨ ext = "c9s" ∨ ext = "bkup" ∨ ext = "cryptomator" then
          some "application/vnd.cryptomator.encrypted"
        else none

section

variable (lowered : Bytes → String)

/-- The types of text.  `lowered` is `String::from_utf8_lossy(start).trim().to_lowercase()`. -/
def textType (start : Bytes) (filename : String) : Option String :=
  if ¬ validUtf8 start then none
  else if endsWith filename ".ics" && matches0 start ics then some "text/calendar"
  else if endsWith filename ".vcf" && matches0 start vcf then some "text/vcard"
  else if endsWith filename ".html" then some "text/html"
  else if endsWith filename ".css" then some "text/css"
  else if endsWith filename ".js" then some "text/javascript"
  else if endsWith filename ".svg" && (matches0 start xml || matches0 start svg) then
    some "image/svg+xml"
  else if endsWith filename ".json" then some "application/json"
  else (extensionType filename).orElse fun _ =>
    if contains (lowered start) "html>" || contains (lowered start) "<html" then some "text/html"
    else some "text/plain"

/-- `calculate_mime_type`. -/
def calculateMimeType (start : Bytes) (filename : String) : String :=
  (imageType start filename <|> videoType start <|> audioType start <|>
    applicationType start filename <|> peergosType start <|>
      textType lowered start filename).getD "application/octet-stream"

end

/-! ## Files that begin with the byte of a list of two -/

/-- The beginning of a file does not match what begins otherwise. -/
theorem matches0_of_head_ne {b : UInt8} {rest target : Bytes} (hne : target ≠ [])
    (h : target.head? ≠ some b) : matches0 (b :: rest) target = false := by
  obtain ⟨t, target, rfl⟩ := List.exists_cons_of_ne_nil hne
  have hb : b ≠ t := fun h' => h (by simp [h'])
  simp [matches0, matchesAt, hb]

/-- No check further in applies whose first byte differs from the byte there. -/
theorem matchesAt_of_getElem_ne {start target : Bytes} {offset : ℕ} {b : UInt8} (hne : target ≠ [])
    (hb : start[offset]? = some b) (h : target.head? ≠ some b) :
    matchesAt start offset target = false := by
  obtain ⟨t, target, rfl⟩ := List.exists_cons_of_ne_nil hne
  have hdrop : ∃ rest, start.drop offset = b :: rest := by
    obtain ⟨hlt, hget⟩ := List.getElem?_eq_some_iff.1 hb
    exact ⟨_, hget ▸ List.drop_eq_getElem_cons hlt⟩
  obtain ⟨rest, hdrop⟩ := hdrop
  have hbt : b ≠ t := fun h' => h (by simp [h'])
  simp [matchesAt, hdrop, hbt]

/-- A first byte above 0x7f that begins no character. -/
theorem validUtf8_of_tail {b : UInt8} (h : Utf8Bytes.IsTail b) (rest : Bytes) :
    validUtf8 (b :: rest) = false := by
  have hlen : leadingOnes b = 1 := by
    unfold leadingOnes
    rw [if_neg (by have := h.1; omega), if_pos h.2]
  rw [validUtf8, if_neg (by have := h.1; omega)]
  simp [hlen]

section

variable {rest : Bytes}

theorem imageType_eq_none (filename : String) : imageType (0x82 :: rest) filename = none := by
  simp (disch := decide) [imageType, matches0_of_head_ne]

theorem audioType_eq_none : audioType (0x82 :: rest) = none := by
  simp (disch := decide) [audioType, matches0_of_head_ne]

theorem applicationType_eq_none (filename : String) :
    applicationType (0x82 :: rest) filename = none := by
  simp (disch := decide) [applicationType, matches0_of_head_ne]

/-- Of the videos only two are looked for further in than the fifth byte. -/
theorem videoType_eq (h4 : (0x82 :: rest : Bytes)[4]? = some 0x61) :
    videoType (0x82 :: rest) =
      if matchesAt (0x82 :: rest) 24 webm then some "video/webm"
      else if matchesAt (0x82 :: rest) 8 avi then some "video/avi"
      else none := by
  have hqt : ∀ target ∈ [qt2, qt3, qt4], matchesAt (0x82 :: rest) 4 target = false :=
    fun target htarget =>
      matchesAt_of_getElem_ne (by revert target; decide) h4 (by revert target; decide)
  simp only [List.forall_mem_cons] at hqt
  obtain ⟨h2, h3, h4, -⟩ := hqt
  simp (disch := decide) [videoType, matches0_of_head_ne, h2, h3, h4]

theorem textType_eq_none (lowered : Bytes → String) (filename : String) :
    textType lowered (0x82 :: rest) filename = none := by
  have h : validUtf8 (0x82 :: rest) = false := validUtf8_of_tail (by decide) rest
  simp [textType, h]

/-- The type of a file that begins as an object of this program does. -/
theorem calculateMimeType_eq (lowered : Bytes → String) (filename : String)
    (h4 : (0x82 :: rest : Bytes)[4]? = some 0x61) :
    calculateMimeType lowered (0x82 :: rest) filename =
      if matchesAt (0x82 :: rest) 24 webm then "video/webm"
      else if matchesAt (0x82 :: rest) 8 avi then "video/avi"
      else (peergosType (0x82 :: rest)).getD "application/octet-stream" := by
  rw [calculateMimeType, imageType_eq_none, videoType_eq h4, audioType_eq_none,
    applicationType_eq_none, textType_eq_none]
  split_ifs <;> cases peergosType (0x82 :: rest) <;> rfl

end

end MimeType

end Peergos
