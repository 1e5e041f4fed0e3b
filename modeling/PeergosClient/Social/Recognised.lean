import PeergosClient.Fs.MimeType
import PeergosClient.Social.Post

/-!
# How posts and mail are recognised

A stored post or mail is a list of a tag and a map whose first key is `"a"`.  A post is recognised
unless its first 40 bytes pass for a film, and mail never: the tag that is looked for is not the one
the encoder writes.
-/

namespace Peergos

namespace CborObject

/-! ## The first key of a map -/

/-- The first entry has the key. -/
def Leads (k : String) (entries : List (String × CborObject)) : Prop :=
  ∃ v rest, entries = (k, v) :: rest

theorem leads_mapInsert_self {k : String} {v : CborObject} {entries : List (String × CborObject)}
    (h : ∀ e ∈ entries, cborStringCmp k e.1 ≠ .gt) : Leads k (mapInsert k v entries) := by
  cases entries with
  | nil => exact ⟨v, [], rfl⟩
  | cons e entries =>
      obtain ⟨k', v'⟩ := e
      have hhead := h (k', v') List.mem_cons_self
      unfold mapInsert
      cases hcmp : cborStringCmp k k' with
      | lt => exact ⟨v, (k', v') :: entries, rfl⟩
      | eq =>
          obtain rfl := cborStringCmp_eq_iff.1 hcmp
          exact ⟨v, entries, rfl⟩
      | gt => exact absurd hcmp hhead

theorem Leads.mapInsert {k k' : String} {v : CborObject} {entries : List (String × CborObject)}
    (h : Leads k entries) (hk : cborStringCmp k' k ≠ .lt) : Leads k (mapInsert k' v entries) := by
  obtain ⟨v₀, rest, rfl⟩ := h
  unfold CborObject.mapInsert
  cases hcmp : cborStringCmp k' k with
  | lt => exact absurd hcmp hk
  | eq => exact ⟨v, rest, rfl⟩
  | gt => exact ⟨v₀, _, rfl⟩

theorem length_mapInsert_le (k : String) (v : CborObject) (entries : List (String × CborObject)) :
    (mapInsert k v entries).length ≤ entries.length + 1 := by
  induction entries with
  | nil => simp [mapInsert]
  | cons e entries ih =>
      obtain ⟨k', v'⟩ := e
      unfold mapInsert
      cases cborStringCmp k k' <;> simp [ih]

/-- A key below all the others comes first, whenever it is put. -/
theorem leads_build {k : String} {puts : List (String × CborObject)}
    (hmin : ∀ e ∈ puts, cborStringCmp k e.1 ≠ .gt ∧ cborStringCmp e.1 k ≠ .lt)
    (hmem : k ∈ puts.map Prod.fst) :
    ∃ entries, build puts = .map entries ∧ Leads k entries ∧ entries.length ≤ puts.length := by
  suffices hfold : ∀ (puts acc : List (String × CborObject)),
      (∀ e ∈ puts, cborStringCmp k e.1 ≠ .gt ∧ cborStringCmp e.1 k ≠ .lt) →
      (∀ e ∈ acc, cborStringCmp k e.1 ≠ .gt) → (Leads k acc ∨ k ∈ puts.map Prod.fst) →
      Leads k (puts.foldl (fun m e => mapInsert e.1 e.2 m) acc) ∧
        (puts.foldl (fun m e => mapInsert e.1 e.2 m) acc).length ≤ acc.length + puts.length by
    obtain ⟨hleads, hlen⟩ := hfold puts [] hmin (fun _ he => absurd he List.not_mem_nil)
      (.inr hmem)
    exact ⟨_, rfl, hleads, by simpa using hlen⟩
  intro puts
  induction puts with
  | nil => exact fun acc _ _ h => ⟨h.resolve_right List.not_mem_nil, by simp⟩
  | cons e puts ih =>
      intro acc hputs hacc h
      obtain ⟨hhead, hputs⟩ := List.forall_mem_cons.1 hputs
      have hacc' : ∀ e' ∈ mapInsert e.1 e.2 acc, cborStringCmp k e'.1 ≠ .gt := by
        intro e' he'
        rcases mem_mapInsert he' with ⟨hk, -⟩ | he'
        · rw [hk]
          exact hhead.1
        · exact hacc e' he'
      have hlead : Leads k (mapInsert e.1 e.2 acc) ∨ k ∈ puts.map Prod.fst := by
        rw [List.map_cons, List.mem_cons] at h
        rcases h with h | h | h
        · exact .inl (h.mapInsert hhead.2)
        · subst h
          exact .inl (leads_mapInsert_self hacc)
        · exact .inr h
      obtain ⟨hleads, hlen⟩ := ih (mapInsert e.1 e.2 acc) hputs hacc' hlead
      have hstep := length_mapInsert_le e.1 e.2 acc
      exact ⟨hleads, by simp only [List.foldl_cons, List.length_cons]; omega⟩

/-- The bytes of a list of a small tag and a map whose first key is `"a"`. -/
theorem toBytes_tagged {tag : Int64} {t : UInt8} (htag : writeInt tag = [t])
    {puts : List (String × CborObject)} (hlen : puts.length < 24)
    (hmin : ∀ e ∈ puts, cborStringCmp "a" e.1 ≠ .gt ∧ cborStringCmp e.1 "a" ≠ .lt)
    (hmem : "a" ∈ puts.map Prod.fst) :
    ∃ n rest, toBytes (.list [.long tag, .build puts]) =
      0x82 :: t :: n :: 0x61 :: 0x61 :: rest := by
  obtain ⟨entries, hbuild, ⟨v, rest, hentries⟩, hle⟩ := leads_build hmin hmem
  have hmap : writeType 5 entries.length =
      [((5 : UInt8) <<< 5) ||| UInt8.ofNat entries.length] := by
    rw [writeType, writeUint, if_pos (by omega)]
  have hlist : writeType 4 [CborObject.long tag, .map entries].length = [0x82] := by
    change writeType 4 2 = [0x82]
    decide +kernel
  have hkey : writeString 3 (utf8 "a") = [0x61, 0x61] := by decide +kernel
  rw [hbuild]
  simp only [toBytes, listBytes, htag, hmap, hlist]
  simp only [hentries, entriesBytes, hkey]
  exact ⟨_, _, rfl⟩

end CborObject

open CborObject MimeType

/-! ## Posts -/

/-- How a stored post begins. -/
theorem SocialPost.serialize_eq (p : SocialPost) :
    ∃ n rest, p.serialize = 0x82 :: 0x11 :: n :: 0x61 :: 0x61 :: rest := by
  have hkeys := p.fields_keys (toCborAll p.previousVersions)
  rw [SocialPost.serialize, SocialPost.toCbor_eq]
  refine toBytes_tagged (by decide) ?_ ?_ ?_
  · have := hkeys.length_le
    simp only [List.length_map, List.length_cons, List.length_nil] at this
    omega
  · intro e he
    have hmem := hkeys.subset (List.mem_map_of_mem he)
    revert hmem
    generalize e.1 = k
    revert k
    decide +kernel
  · simp [fields, plainFields]

/-! ## Mail -/

/-- The keys of a message, as they are put. -/
theorem EmailMessage.fields_keys (m : EmailMessage) (replying forwarding : Option CborObject) :
    ((m.fields replying forwarding).map Prod.fst).Sublist
      ["v", "i", "m", "f", "h", "t", "d", "c", "b", "z", "u", "s", "a", "e", "r", "o", "x"] := by
  have hopt : ∀ (k : String) (v : Option CborObject),
      ((optionalField k v).map Prod.fst).Sublist [k] := by
    intro k v
    cases v <;> simp [optionalField]
  simp only [fields, List.map_append]
  exact (((List.Sublist.refl _).append (hopt "r" _)).append (hopt "o" _)).append (hopt "x" _)

/-- How stored mail begins: the tag is below 24, so it is one byte. -/
theorem EmailMessage.serialize_eq (m : EmailMessage) :
    ∃ n rest, m.serialize = 0x82 :: 0x12 :: n :: 0x61 :: 0x61 :: rest := by
  have hkeys := m.fields_keys (m.replyingToEmail.map EmailMessage.toCbor)
    (m.forwardingToEmail.map EmailMessage.toCbor)
  rw [EmailMessage.serialize, EmailMessage.toCbor_eq]
  refine toBytes_tagged (by decide) ?_ ?_ ?_
  · have := hkeys.length_le
    simp only [List.length_map, List.length_cons, List.length_nil] at this
    omega
  · intro e he
    have hmem := hkeys.subset (List.mem_map_of_mem he)
    revert hmem
    generalize e.1 = k
    revert k
    decide +kernel
  · simp [fields, plainFields]

/-! ## What they are taken for -/

/-- The first bytes of a file, from which its type is told. -/
def header (bytes : Bytes) : Bytes := bytes.take MimeType.headerBytesToIdentifyMimeType

/-- The text is at that place of the first bytes. -/
def TextAt (bytes : Bytes) (offset : ℕ) (text : Bytes) : Prop :=
  (bytes.drop offset).take text.length = text

instance (bytes : Bytes) (offset : ℕ) (text : Bytes) : Decidable (TextAt bytes offset text) :=
  inferInstanceAs (Decidable (_ = _))

theorem matchesAt_header_iff (bytes text : Bytes) (offset : ℕ) (hpos : 0 < text.length)
    (h : offset + text.length ≤ 40) :
    matchesAt (header bytes) offset text = true ↔ TextAt bytes offset text := by
  have htake : ((header bytes).drop offset).take text.length =
      (bytes.drop offset).take text.length := by
    rw [header, MimeType.headerBytesToIdentifyMimeType, List.drop_take, List.take_take,
      Nat.min_eq_left (by omega)]
  rw [TextAt, matchesAt, htake]
  split_ifs with hlong
  · have hshort : (bytes.drop offset).length < text.length := by
      rw [header, MimeType.headerBytesToIdentifyMimeType, List.length_take] at hlong
      rw [List.length_drop]
      omega
    have hne : (bytes.drop offset).take text.length ≠ text := fun heq => by
      have hlen := congrArg List.length heq
      rw [List.length_take] at hlen
      omega
    simpa using hne
  · rw [decide_eq_true_iff]

/-- Mail is taken for a film or for unknown data. -/
theorem calculateMimeType_email (lowered : Bytes → String) (filename : String) (m : EmailMessage) :
    calculateMimeType lowered (header m.serialize) filename =
      if TextAt m.serialize 24 webm then "video/webm"
      else if TextAt m.serialize 8 avi then "video/avi"
      else "application/octet-stream" := by
  simp only [← matchesAt_header_iff _ webm 24 (by decide) (by decide),
    ← matchesAt_header_iff _ avi 8 (by decide) (by decide)]
  obtain ⟨n, rest, hbytes⟩ := m.serialize_eq
  have hheader : header m.serialize = 0x82 :: 0x12 :: n :: 0x61 :: 0x61 :: rest.take 35 := by
    rw [hbytes]
    rfl
  have hnone : peergosType (header m.serialize) = none := by
    rw [hheader]
    simp [peergosType, matches0, matchesAt, cborPeergosPost, cborPeergosIdentityProof,
      cborPeergosEmail]
  rw [hheader] at hnone ⊢
  rw [calculateMimeType_eq lowered filename rfl, hnone]
  rfl

/-- A post is taken for a film or for a post. -/
theorem calculateMimeType_post (lowered : Bytes → String) (filename : String) (p : SocialPost) :
    calculateMimeType lowered (header p.serialize) filename =
      if TextAt p.serialize 24 webm then "video/webm"
      else if TextAt p.serialize 8 avi then "video/avi"
      else peergosPost := by
  simp only [← matchesAt_header_iff _ webm 24 (by decide) (by decide),
    ← matchesAt_header_iff _ avi 8 (by decide) (by decide)]
  obtain ⟨n, rest, hbytes⟩ := p.serialize_eq
  have hheader : header p.serialize = 0x82 :: 0x11 :: n :: 0x61 :: 0x61 :: rest.take 35 := by
    rw [hbytes]
    rfl
  have hsome : peergosType (header p.serialize) = some peergosPost := by
    rw [hheader]
    simp [peergosType, matches0, matchesAt, cborPeergosPost]
  rw [hheader] at hsome ⊢
  rw [calculateMimeType_eq lowered filename rfl, hsome]
  rfl

/-- **When a post is recognised, and that mail never is.**  A post is recognised if and only if the
beginning of its bytes does not read as a WebM or an AVI film where those are looked for; mail is
not recognised at all. -/
theorem recognised_iff (lowered : Bytes → String) (filename : String) :
    (∀ p : SocialPost, calculateMimeType lowered (header p.serialize) filename = peergosPost ↔
      ¬ TextAt p.serialize 24 webm ∧ ¬ TextAt p.serialize 8 avi) ∧
    ∀ m : EmailMessage, calculateMimeType lowered (header m.serialize) filename ≠ peergosEmail := by
  constructor
  · intro p
    rw [calculateMimeType_post]
    by_cases hwebm : TextAt p.serialize 24 webm
    · simp [hwebm, peergosPost]
    · by_cases havi : TextAt p.serialize 8 avi
      · simp [hwebm, havi, peergosPost]
      · simp [hwebm, havi]
  · intro m
    rw [calculateMimeType_email]
    split_ifs <;> decide

/-- A post by the user `"the_secret_club_ofwebm"`. -/
def filmPost : SocialPost where
  author := "the_secret_club_ofwebm"
  body := []
  postTime := 0
  shareTo := .author
  parent := none
  previousVersions := []
  comments := []

/-- A message without text or addresses. -/
def emptyEmail : EmailMessage where
  id := ""
  msgId := ""
  fromAddress := ""
  subject := ""
  created := 0
  toAddresses := []
  cc := []
  bcc := []
  content := ""
  unread := true
  star := false
  attachments := []
  icalEvent := ""
  replyingToEmail := none
  forwardingToEmail := none
  sendError := none

/-- The post is taken for a film, and the message for unknown data. -/
theorem not_recognised :
    (∀ lowered : Bytes → String,
      calculateMimeType lowered (header filmPost.serialize) "post.cbor" = "video/webm") ∧
    ∀ lowered : Bytes → String,
      calculateMimeType lowered (header emptyEmail.serialize) "mail.cbor" =
        "application/octet-stream" := by
  constructor
  · intro lowered
    have hwebm : TextAt filmPost.serialize 24 webm := by decide +kernel
    rw [calculateMimeType_post, if_pos hwebm]
  · intro lowered
    have hwebm : ¬ TextAt emptyEmail.serialize 24 webm := by decide +kernel
    have havi : ¬ TextAt emptyEmail.serialize 8 avi := by decide +kernel
    rw [calculateMimeType_email, if_neg hwebm, if_neg havi]

end Peergos
