import PeergosClient.Fs.CapabilityCbor

/-!
# Email messages

`EmailMessage` and `Attachment` with the CBOR they are stored as: a list of the mime tag and a map
of the fields, in which a message replied to or forwarded is written the same way.  Every message
reads back from what it writes, however deep the messages in it are nested.
-/

namespace Peergos

namespace CborObject

theorem sizeOf_lt_of_get {m c : CborObject} {k : String} (h : m.get k = some c) :
    sizeOf c < sizeOf m := by
  cases m with
  | map entries =>
      rw [get, Option.map_eq_some_iff] at h
      obtain ⟨e, he, rfl⟩ := h
      have hmem := List.sizeOf_lt_of_mem (List.mem_of_find?_eq_some he)
      have he2 : sizeOf e.2 < sizeOf e := by
        obtain ⟨a, b⟩ := e
        simp
      simp only [map.sizeOf_spec]
      omega
  | _ => cases h

theorem sizeOf_lt_of_asList {c m : CborObject} {list : List CborObject} {i : ℕ}
    (hlist : c.asList = some list) (hm : list[i]? = some m) : sizeOf m < sizeOf c := by
  cases c with
  | list items =>
      cases hlist
      have hmem := List.sizeOf_lt_of_mem (List.mem_of_getElem? hm)
      simp only [CborObject.list.sizeOf_spec]
      omega
  | _ => cases hlist

/-- A string field, empty if it is absent. -/
def stringOr (m : CborObject) (key : String) : String :=
  ((m.get key).bind asString).getD ""

/-- `string_list`. -/
def stringList (m : CborObject) (key : String) : List String :=
  (((m.get key).bind asList).getD []).filterMap asString

theorem stringOr_of_get {m : CborObject} {key s : String} (h : m.get key = some (.str s)) :
    m.stringOr key = s := by
  simp [stringOr, h, asString]

theorem stringList_of_get {m : CborObject} {key : String} {l : List String}
    (h : m.get key = some (.list (l.map .str))) : m.stringList key = l := by
  have hl : (l.map CborObject.str).filterMap asString = l := by
    rw [List.filterMap_map]
    exact List.filterMap_some
  simp only [stringList, h, Option.bind_some, asList, Option.getD_some, hl]

end CborObject

/-! ## Attachments -/

/-- `Attachment`. -/
structure Attachment where
  filename : String
  size : Int64
  mimeType : String
  uuid : String
  deriving DecidableEq

namespace Attachment

/-- `Attachment::to_cbor`. -/
def toCbor (a : Attachment) : CborObject :=
  .build [("f", .str a.filename), ("s", .long a.size), ("t", .str a.mimeType), ("u", .str a.uuid)]

/-- `Attachment::from_cbor`. -/
def fromCbor : CborObject → Result Attachment
  | .map entries =>
      let cbor := CborObject.map entries
      match (cbor.get "f").bind CborObject.asString with
      | none => cborErr "Attachment missing 'f'"
      | some filename => .ok {
          filename
          size := ((cbor.get "s").bind CborObject.asLong).getD 0
          mimeType := cbor.stringOr "t"
          uuid := cbor.stringOr "u" }
  | _ => cborErr "Attachment not a map"

theorem fromCbor_toCbor (a : Attachment) : fromCbor a.toCbor = .ok a := by
  have hget : ∀ e ∈ [("f", CborObject.str a.filename), ("s", .long a.size), ("t", .str a.mimeType),
      ("u", .str a.uuid)], a.toCbor.get e.1 = some e.2 := fun e he =>
    CborObject.get_build_of_mem (by simp) he
  simp only [List.forall_mem_cons] at hget
  obtain ⟨hf, hs, ht, hu, -⟩ := hget
  have hmap : ∃ entries, a.toCbor = .map entries := ⟨_, rfl⟩
  obtain ⟨entries, hmap⟩ := hmap
  rw [hmap] at hf hs ht hu ⊢
  simp [fromCbor, CborObject.stringOr, hf, hs, ht, hu, CborObject.asString, CborObject.asLong]

theorem built_toCbor (a : Attachment) : CborObject.Built a.toCbor := by
  refine .map _ fun e he => ?_
  simp only [List.mem_cons, List.not_mem_nil, or_false] at he
  rcases he with rfl | rfl | rfl | rfl
  · exact .str _
  · exact .long _
  · exact .str _
  · exact .str _

end Attachment

/-! ## Messages -/

/-- `EmailMessage`. -/
structure EmailMessage where
  id : String
  msgId : String
  fromAddress : String
  subject : String
  created : Int64
  toAddresses : List String
  cc : List String
  bcc : List String
  content : String
  unread : Bool
  star : Bool
  attachments : List Attachment
  icalEvent : String
  replyingToEmail : Option EmailMessage
  forwardingToEmail : Option EmailMessage
  sendError : Option String

namespace EmailMessage

/-- `CBOR_PEERGOS_EMAIL_INT`. -/
def cborPeergosEmailInt : Int64 := 18

/-- `VERSION_1`. -/
def version1 : String := "1"

/-- The fields of a message that hold no message, in the order they are put. -/
def plainFields (m : EmailMessage) : List (String × CborObject) :=
  [("v", .str version1), ("i", .str m.id), ("m", .str m.msgId), ("f", .str m.fromAddress),
    ("h", .str m.subject), ("t", .long m.created), ("d", .list (m.toAddresses.map .str)),
    ("c", .list (m.cc.map .str)), ("b", .list (m.bcc.map .str)), ("z", .str m.content),
    ("u", .boolean m.unread), ("s", .boolean m.star),
    ("a", .list (m.attachments.map Attachment.toCbor)), ("e", .str m.icalEvent)]

/-- A field put only if there is a value. -/
def optionalField (key : String) (v : Option CborObject) : List (String × CborObject) :=
  (v.map fun v => (key, v)).toList

mutual

/-- `EmailMessage::to_cbor`. -/
def toCbor : EmailMessage → CborObject
  | ⟨id, msgId, fromAddress, subject, created, toAddresses, cc, bcc, content, unread, star,
      attachments, icalEvent, replyingToEmail, forwardingToEmail, sendError⟩ =>
      .list [.long cborPeergosEmailInt,
        .build (plainFields ⟨id, msgId, fromAddress, subject, created, toAddresses, cc, bcc, content,
            unread, star, attachments, icalEvent, replyingToEmail, forwardingToEmail, sendError⟩ ++
          optionalField "r" (toCborNested replyingToEmail) ++
          optionalField "o" (toCborNested forwardingToEmail) ++
          optionalField "x" (sendError.map .str))]

/-- A message that may be absent. -/
def toCborNested : Option EmailMessage → Option CborObject
  | some m => some (toCbor m)
  | none => none

end

/-- `EmailMessage::serialize`. -/
def serialize (m : EmailMessage) : Bytes := m.toCbor.toBytes

/-- The message in a body map, given what the messages nested in it read as. -/
def ofBody (m : CborObject) (replying forwarding : Result (Option EmailMessage)) :
    Result EmailMessage := do
  let attachments ← (((m.get "a").bind CborObject.asList).getD []).mapM Attachment.fromCbor
  let replyingToEmail ← replying
  let forwardingToEmail ← forwarding
  pure {
    id := m.stringOr "i"
    msgId := m.stringOr "m"
    fromAddress := m.stringOr "f"
    subject := m.stringOr "h"
    created := ((m.get "t").bind CborObject.asLong).getD 0
    toAddresses := m.stringList "d"
    cc := m.stringList "c"
    bcc := m.stringList "b"
    content := m.stringOr "z"
    unread := ((m.get "u").bind CborObject.asBool).getD true
    star := ((m.get "s").bind CborObject.asBool).getD false
    attachments
    icalEvent := m.stringOr "e"
    replyingToEmail
    forwardingToEmail
    sendError := (m.get "x").bind CborObject.asString }

/-- `EmailMessage::from_cbor`. -/
def fromCbor (cbor : CborObject) : Result EmailMessage :=
  match hlist : cbor.asList with
  | none => cborErr "EmailMessage not a list"
  | some list =>
      match list.head?.bind CborObject.asLong with
      | none => cborErr "EmailMessage missing mime tag"
      | some mimeTag =>
          if mimeTag ≠ cborPeergosEmailInt then cborErr s!"bad EmailMessage mime tag: {mimeTag}"
          else
            match hm : list[1]? with
            | none => cborErr "EmailMessage missing body map"
            | some m =>
                if m.stringOr "v" ≠ version1 then
                  cborErr ("unsupported EmailMessage version: " ++ m.stringOr "v")
                else
                  ofBody m
                    (match hr : m.get "r" with
                      | some c => (fromCbor c).map some
                      | none => .ok none)
                    (match ho : m.get "o" with
                      | some c => (fromCbor c).map some
                      | none => .ok none)
  termination_by sizeOf cbor
  decreasing_by
    · exact (CborObject.sizeOf_lt_of_get hr).trans (CborObject.sizeOf_lt_of_asList hlist hm)
    · exact (CborObject.sizeOf_lt_of_get ho).trans (CborObject.sizeOf_lt_of_asList hlist hm)

/-! ## Round trip -/

/-- All the fields of a message, given what the messages nested in it are written as. -/
def fields (m : EmailMessage) (replying forwarding : Option CborObject) :
    List (String × CborObject) :=
  m.plainFields ++ optionalField "r" replying ++ optionalField "o" forwarding ++
    optionalField "x" (m.sendError.map .str)

theorem toCbor_eq (m : EmailMessage) : m.toCbor = .list [.long cborPeergosEmailInt,
    .build (m.fields (m.replyingToEmail.map toCbor) (m.forwardingToEmail.map toCbor))] := by
  have hnested : ∀ n : Option EmailMessage, toCborNested n = n.map toCbor := by
    intro n
    cases n <;> simp [toCborNested]
  cases m
  simp [toCbor, fields, hnested]

theorem fields_nodup (m : EmailMessage) (replying forwarding : Option CborObject) :
    ((m.fields replying forwarding).map Prod.fst).Nodup := by
  have hsub : ((m.fields replying forwarding).map Prod.fst).Sublist
      ["v", "i", "m", "f", "h", "t", "d", "c", "b", "z", "u", "s", "a", "e", "r", "o", "x"] := by
    have hopt : ∀ (k : String) (v : Option CborObject),
        ((optionalField k v).map Prod.fst).Sublist [k] := by
      intro k v
      cases v <;> simp [optionalField]
    simp only [fields, List.map_append]
    exact (((List.Sublist.refl _).append (hopt "r" _)).append (hopt "o" _)).append (hopt "x" _)
  exact List.Nodup.sublist hsub (by decide)

/-- A plain field reads as what was put. -/
theorem get_plainField (m : EmailMessage) (replying forwarding : Option CborObject)
    {e : String × CborObject} (he : e ∈ m.plainFields) :
    (CborObject.build (m.fields replying forwarding)).get e.1 = some e.2 := by
  apply CborObject.get_build_of_mem (m.fields_nodup _ _)
  simp only [fields, List.mem_append]
  exact Or.inl (Or.inl (Or.inl he))

/-- An optional field reads as what was put, if anything was. -/
theorem get_optionalFields (m : EmailMessage) (replying forwarding : Option CborObject) :
    (CborObject.build (m.fields replying forwarding)).get "r" = replying ∧
    (CborObject.build (m.fields replying forwarding)).get "o" = forwarding ∧
    (CborObject.build (m.fields replying forwarding)).get "x" = m.sendError.map .str := by
  have hnodup := m.fields_nodup replying forwarding
  refine ⟨?_, ?_, ?_⟩
  · cases replying with
    | none =>
        apply CborObject.get_build_of_not_mem
        simp [fields, plainFields, optionalField]
    | some c =>
        apply CborObject.get_build_of_mem hnodup
        simp [fields, optionalField]
  · cases forwarding with
    | none =>
        apply CborObject.get_build_of_not_mem
        simp [fields, plainFields, optionalField]
    | some c =>
        apply CborObject.get_build_of_mem hnodup
        simp [fields, optionalField]
  · cases hx : m.sendError with
    | none =>
        apply CborObject.get_build_of_not_mem
        simp [fields, plainFields, optionalField, hx]
    | some c =>
        apply CborObject.get_build_of_mem hnodup
        simp [fields, optionalField, hx]

theorem mapM_fromCbor_attachments (l : List Attachment) :
    (l.map Attachment.toCbor).mapM Attachment.fromCbor = .ok l :=
  mapM_map_eq_ok fun a _ => a.fromCbor_toCbor

/-- The body of a message reads as the message, if the messages nested in it do. -/
theorem ofBody_fields (m : EmailMessage) (replying forwarding : Option CborObject) :
    ofBody (.build (m.fields replying forwarding)) (.ok m.replyingToEmail)
      (.ok m.forwardingToEmail) = .ok m := by
  have hplain := fun e he => m.get_plainField replying forwarding (e := e) he
  simp only [plainFields, List.forall_mem_cons] at hplain
  obtain ⟨-, hi, hm, hf, hh, ht, hd, hc, hb, hz, hu, hs, ha, he, -⟩ := hplain
  have hx := (m.get_optionalFields replying forwarding).2.2
  have hsend : ((m.sendError.map CborObject.str).bind CborObject.asString) = m.sendError := by
    cases m.sendError <;> rfl
  simp only [ofBody, CborObject.stringOr_of_get hi, CborObject.stringOr_of_get hm,
    CborObject.stringOr_of_get hf, CborObject.stringOr_of_get hh, ht,
    CborObject.stringList_of_get hd, CborObject.stringList_of_get hc,
    CborObject.stringList_of_get hb, CborObject.stringOr_of_get hz, hu, hs, ha,
    CborObject.stringOr_of_get he, hx, hsend, Option.bind_some, Option.getD_some, CborObject.asLong,
    CborObject.asBool, CborObject.asList, mapM_fromCbor_attachments, ok_bind]
  cases m
  rfl

/-- The message nested under a name, if there is one. -/
def nested (m : CborObject) (key : String) : Result (Option EmailMessage) :=
  match m.get key with
  | some c => (fromCbor c).map some
  | none => .ok none

theorem fromCbor_body {m : CborObject} (hv : m.stringOr "v" = version1) :
    fromCbor (.list [.long cborPeergosEmailInt, m]) = ofBody m (nested m "r") (nested m "o") := by
  rw [fromCbor]
  simp only [CborObject.asList, List.head?_cons, Option.bind_some, CborObject.asLong, ne_eq,
    not_true_eq_false, if_false, List.getElem?_cons_succ, List.getElem?_cons_zero, hv]
  congr 1
  · unfold nested
    split <;> simp_all
  · unfold nested
    split <;> simp_all

/-- A message that may be absent reads back, if the message does. -/
theorem nested_eq_ok {m : CborObject} {key : String} {n : Option EmailMessage}
    (hget : m.get key = n.map toCbor) (h : ∀ e ∈ n, fromCbor e.toCbor = .ok e) :
    nested m key = .ok n := by
  cases n with
  | none => simp [nested, hget]
  | some e => simp [nested, hget, h e rfl, Except.map]

/-- A message reads back from what it writes, whatever is nested in it. -/
theorem fromCbor_toCbor : ∀ m : EmailMessage, fromCbor m.toCbor = .ok m := by
  refine @EmailMessage.rec (fun m => fromCbor m.toCbor = .ok m)
    (fun n => ∀ m ∈ n, fromCbor m.toCbor = .ok m) ?mk ?none ?some
  case none =>
    intro m hm
    cases hm
  case some =>
    intro m ih m' hm
    cases hm
    exact ih
  case mk =>
    intro id msgId fromAddress subject created toAddresses cc bcc content unread star attachments
      icalEvent replyingToEmail forwardingToEmail sendError ihr iho
    generalize hm : EmailMessage.mk id msgId fromAddress subject created toAddresses cc bcc content
      unread star attachments icalEvent replyingToEmail forwardingToEmail sendError = m
    have hr : m.replyingToEmail = replyingToEmail := by rw [← hm]
    have ho : m.forwardingToEmail = forwardingToEmail := by rw [← hm]
    rw [← hr] at ihr
    rw [← ho] at iho
    have hbody := m.ofBody_fields (m.replyingToEmail.map toCbor) (m.forwardingToEmail.map toCbor)
    obtain ⟨hgr, hgo, -⟩ :=
      m.get_optionalFields (m.replyingToEmail.map toCbor) (m.forwardingToEmail.map toCbor)
    have hv := m.get_plainField (m.replyingToEmail.map toCbor) (m.forwardingToEmail.map toCbor)
      (e := ("v", .str version1)) (by simp [plainFields])
    rw [toCbor_eq, fromCbor_body (CborObject.stringOr_of_get hv), nested_eq_ok hgr ihr,
      nested_eq_ok hgo iho, hbody]

/-- A list of strings is put together from values. -/
theorem built_strings (l : List String) : CborObject.Built (.list (l.map .str)) := by
  refine .list _ fun v hv => ?_
  obtain ⟨s, -, rfl⟩ := List.mem_map.1 hv
  exact .str s

theorem built_plainFields (m : EmailMessage) : ∀ e ∈ m.plainFields, CborObject.Built e.2 := by
  have hattachments : CborObject.Built (.list (m.attachments.map Attachment.toCbor)) := by
    refine .list _ fun v hv => ?_
    obtain ⟨a, -, rfl⟩ := List.mem_map.1 hv
    exact a.built_toCbor
  simp only [plainFields, List.forall_mem_cons]
  exact ⟨.str _, .str _, .str _, .str _, .str _, .long _, built_strings _, built_strings _,
    built_strings _, .str _, .boolean _, .boolean _, hattachments, .str _, by simp⟩

theorem built_toCbor : ∀ m : EmailMessage, CborObject.Built m.toCbor := by
  refine @EmailMessage.rec (fun m => CborObject.Built m.toCbor)
    (fun n => ∀ c ∈ n.map toCbor, CborObject.Built c) ?mk ?none ?some
  case none =>
    intro c hc
    cases hc
  case some =>
    intro m ih c hc
    cases hc
    exact ih
  case mk =>
    intro id msgId fromAddress subject created toAddresses cc bcc content unread star attachments
      icalEvent replyingToEmail forwardingToEmail sendError ihr iho
    rw [toCbor_eq]
    refine .list _ ?_
    simp only [List.forall_mem_cons]
    refine ⟨.long _, .map _ fun e he => ?_, by simp⟩
    simp only [fields, List.mem_append, optionalField, Option.mem_toList,
      Option.map_eq_some_iff] at he
    rcases he with ((he | ⟨c, hc, rfl⟩) | ⟨c, hc, rfl⟩) | ⟨c, ⟨x, -, rfl⟩, rfl⟩
    · exact built_plainFields _ e he
    · exact ihr c (Option.map_eq_some_iff.2 hc)
    · exact iho c (Option.map_eq_some_iff.2 hc)
    · exact .str x

/-- A message reads back from its bytes. -/
theorem fromBytes_serialize {m : EmailMessage} (h : m.serialize.length < 2 ^ 63) :
    (liftCbor (CborObject.fromBytes m.serialize) >>= fromCbor) = .ok m := by
  rw [serialize, CborObject.fromBytes_toBytes m.built_toCbor h]
  exact fromCbor_toCbor m

end EmailMessage

end Peergos
