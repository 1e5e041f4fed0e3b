import PeergosClient.Messaging.ReadBack

/-!
# Chats as they are stored

The CBOR of a chat: its members are a flat list of ids and members, and the shared properties a map
by their names.  A chat reads back exactly when the keys named in it do.
-/

namespace Peergos

namespace CborObject

/-- A field of a kind that has to be there, with an error for each of the two. -/
def kindOf {α : Type} (what kind : String) (read : CborObject → Option α) (cbor : CborObject)
    (k : String) : Result α := do
  let v ← fieldOf what cbor k
  match read v with
  | some a => .ok a
  | none => cborErr s!"{what} '{k}' not a {kind}"

/-- `CborObject::as_map`. -/
def asMap : CborObject → Option (List (String × CborObject))
  | map entries => some entries
  | _ => none

theorem fieldOf_eq {what k : String} {cbor v : CborObject} (h : cbor.get k = some v) :
    fieldOf what cbor k = .ok v := by
  rw [fieldOf, h]

theorem kindOf_eq {α : Type} {what kind k : String} {read : CborObject → Option α}
    {cbor v : CborObject} {a : α} (h : cbor.get k = some v) (hread : read v = some a) :
    kindOf what kind read cbor k = .ok a := by
  simp only [kindOf, fieldOf_eq h, ok_bind, hread]

end CborObject

/-! ## Properties -/

namespace GroupProperty

/-- The fields of a property, in the order they are put. -/
def fields (p : GroupProperty) : List (String × CborObject) :=
  [("a", p.author.toCbor), ("t", p.updateTimestamp.toCbor), ("v", .str p.value)]

/-- `GroupProperty::to_cbor`. -/
def toCbor (p : GroupProperty) : CborObject := .build p.fields

/-- `GroupProperty::from_cbor`. -/
def fromCbor (cbor : CborObject) : Result GroupProperty := do
  let get := CborObject.fieldOf "GroupProperty" cbor
  let author ← get "a" >>= MemberId.fromCbor
  let timestamp ← get "t" >>= TreeClock.fromCbor
  let value ← CborObject.kindOf "GroupProperty" "string" CborObject.asString cbor "v"
  pure ⟨author, timestamp, value⟩

/-- The ids of a property are made of `i32`s. -/
structure InRange (p : GroupProperty) : Prop where
  author : p.author.Encodable
  timestamp : p.updateTimestamp.Encodable

theorem fromCbor_toCbor {p : GroupProperty} (h : p.InRange) : fromCbor p.toCbor = .ok p := by
  have hfields : ∀ f ∈ p.fields, p.toCbor.get f.1 = some f.2 := fun _ hf =>
    CborObject.get_build_of_mem (by simp [fields]) hf
  simp only [fields, List.forall_mem_cons] at hfields
  obtain ⟨ha, ht, hv, -⟩ := hfields
  simp only [fromCbor, CborObject.fieldOf_eq ha, CborObject.fieldOf_eq ht,
    CborObject.kindOf_eq hv (show CborObject.asString (.str p.value) = some p.value from rfl),
    ok_bind, MemberId.fromCbor_toCbor h.author, TreeClock.fromCbor_toCbor h.timestamp]
  rfl

end GroupProperty

namespace Wire

/-! ## Members -/

/-- `Member`. -/
structure Member where
  username : String
  id : MemberId
  identity : PublicKeyHash
  chatIdentity : Option OwnerProof
  messagesMergedUpto : Int64
  membersInvited : Int32
  removed : Bool
  deriving DecidableEq

namespace Member

/-- The fields that are always put. -/
def plainFields (m : Member) : List (String × CborObject) :=
  [("u", .str m.username), ("i", m.id.toCbor), ("p", m.identity.toCbor),
    ("m", .long m.messagesMergedUpto), ("c", .long m.membersInvited.toInt64),
    ("r", .boolean m.removed)]

/-- `Member::to_cbor`. -/
def toCbor (m : Member) : CborObject :=
  .build (m.plainFields ++ (m.chatIdentity.map fun c => ("s", OwnerProof.toCbor c)).toList)

/-- `Member::from_cbor`. -/
def fromCbor (cbor : CborObject) : Result Member := do
  let get := CborObject.fieldOf "Member" cbor
  let username ← CborObject.kindOf "Member" "string" CborObject.asString cbor "u"
  let id ← get "i" >>= MemberId.fromCbor
  let identity ← get "p" >>= PublicKeyHash.fromCbor
  let chatIdentity ← AbsoluteCapability.optional cbor "s" OwnerProof.fromCbor
  let merged ← CborObject.kindOf "Member" "long" CborObject.asLong cbor "m"
  let invited ← CborObject.kindOf "Member" "long" CborObject.asLong cbor "c"
  let removed ← CborObject.kindOf "Member" "bool" CborObject.asBool cbor "r"
  pure ⟨username, id, identity, chatIdentity, merged, invited.toInt32, removed⟩

/-- The keys named in a member. -/
def keyHashes (m : Member) : List PublicKeyHash :=
  m.identity :: m.chatIdentity.toList.map OwnerProof.ownedKey

theorem fields_nodup (m : Member) : ((m.plainFields ++
    (m.chatIdentity.map fun c => ("s", OwnerProof.toCbor c)).toList).map Prod.fst).Nodup := by
  cases m.chatIdentity <;> simp [plainFields]

theorem get_chatIdentity (m : Member) :
    m.toCbor.get "s" = m.chatIdentity.map OwnerProof.toCbor := by
  cases h : m.chatIdentity with
  | none =>
      apply CborObject.get_build_of_not_mem
      simp [plainFields, h]
  | some c =>
      apply CborObject.get_build_of_mem m.fields_nodup
      simp [h]

/-- A member reads back exactly when the keys named in it do. -/
theorem readsBack_iff {m : Member} (h : m.id.Encodable) :
    fromCbor m.toCbor = .ok m ↔ ∀ k ∈ m.keyHashes, k.target.Written := by
  have hfields : ∀ f ∈ m.plainFields, m.toCbor.get f.1 = some f.2 := fun f hf =>
    CborObject.get_build_of_mem m.fields_nodup (List.mem_append_left _ hf)
  simp only [plainFields, List.forall_mem_cons] at hfields
  obtain ⟨hu, hi, hp, hm, hc, hr, -⟩ := hfields
  have hstr : CborObject.asString (.str m.username) = some m.username := rfl
  have hlong : ∀ v : Int64, CborObject.asLong (.long v) = some v := fun _ => rfl
  have hbool : CborObject.asBool (.boolean m.removed) = some m.removed := rfl
  have hproof : AbsoluteCapability.optional m.toCbor "s" OwnerProof.fromCbor = .ok m.chatIdentity ↔
      ∀ c ∈ m.chatIdentity, c.ownedKey.Encodable := by
    rw [AbsoluteCapability.optional_iff m.get_chatIdentity]
    exact forall₂_congr fun c _ => OwnerProof.fromCbor_toCbor_iff
  have hkeys : (∀ k ∈ m.keyHashes, k.target.Written) ↔
      PublicKeyHash.fromCbor m.identity.toCbor = .ok m.identity ∧
        AbsoluteCapability.optional m.toCbor "s" OwnerProof.fromCbor = .ok m.chatIdentity := by
    rw [hproof, PublicKeyHash.fromCbor_toCbor_iff, keyHashes, List.forall_mem_cons,
      PublicKeyHash.encodable_iff]
    simp [PublicKeyHash.encodable_iff]
  rw [hkeys]
  simp only [fromCbor, CborObject.fieldOf_eq hi, CborObject.fieldOf_eq hp,
    CborObject.kindOf_eq hu hstr, CborObject.kindOf_eq hm (hlong _),
    CborObject.kindOf_eq hc (hlong _), CborObject.kindOf_eq hr hbool, ok_bind,
    MemberId.fromCbor_toCbor h]
  constructor
  · intro hread
    obtain ⟨identity, hidentity, hread⟩ := bind_eq_ok.1 hread
    obtain ⟨proof, hproof, hread⟩ := bind_eq_ok.1 hread
    have heq := Except.ok.inj hread
    obtain rfl : identity = m.identity := congrArg Member.identity heq
    obtain rfl : proof = m.chatIdentity := congrArg Member.chatIdentity heq
    exact ⟨hidentity, hproof⟩
  · rintro ⟨hidentity, hproof⟩
    simp only [hidentity, hproof, ok_bind, Int32.toInt32_toInt64]
    rfl

end Member

end Wire

/-! ## Reading a map -/

section ReadMap

variable {α K V : Type} [Ord K] [DecidableEq K] [Std.TransOrd K] [Std.LawfulEqOrd K]

/-- The loop that reads the entries of a map and inserts one after another. -/
def readMap (read : α → Result (K × V)) (l : List α) : Result (SortedMap K V) :=
  l.foldlM (fun (m : SortedMap K V) a => do
    let e ← read a
    pure (m.insert e.1 e.2)) ∅

theorem readMap_eq_ok {read : α → Result (K × V)} {l : List α} {m : SortedMap K V} :
    readMap read l = .ok m ↔
      ∃ es, l.mapM read = .ok es ∧ es.foldl (fun m e => m.insert e.1 e.2) ∅ = m := by
  suffices hacc : ∀ acc : SortedMap K V, l.foldlM (fun (m : SortedMap K V) a => do
        let e ← read a
        pure (m.insert e.1 e.2)) acc = .ok m ↔
      ∃ es, l.mapM read = .ok es ∧ es.foldl (fun m e => m.insert e.1 e.2) acc = m from hacc ∅
  induction l with
  | nil =>
      intro acc
      simp only [List.foldlM_nil, List.mapM_nil]
      constructor
      · exact fun h => ⟨[], rfl, Except.ok.inj h⟩
      · rintro ⟨es, hes, h⟩
        cases hes
        exact congrArg Except.ok h
  | cons a l ih =>
      intro acc
      rw [List.foldlM_cons, List.mapM_cons]
      constructor
      · intro h
        obtain ⟨m₁, hm₁, h⟩ := bind_eq_ok.1 h
        obtain ⟨e, he, hm₁⟩ := bind_eq_ok.1 hm₁
        cases hm₁
        obtain ⟨es, hes, h⟩ := (ih _).1 h
        exact ⟨e :: es, by simp only [he, hes, ok_bind]; rfl, h⟩
      · rintro ⟨es, hes, h⟩
        obtain ⟨e, he, hes⟩ := bind_eq_ok.1 hes
        obtain ⟨es', hes', hes⟩ := bind_eq_ok.1 hes
        cases hes
        simp only [he, ok_bind]
        exact (ih _).2 ⟨es', hes', h⟩

omit [Ord K] [DecidableEq K] [Std.TransOrd K] [Std.LawfulEqOrd K] in
/-- What is read has the keys that were written. -/
theorem keys_of_mapM {write : K × V → α} {read : α → Result (K × V)} {l es : List (K × V)}
    (hkey : ∀ e ∈ l, ∀ e', read (write e) = .ok e' → e'.1 = e.1)
    (hes : (l.map write).mapM read = .ok es) : es.map Prod.fst = l.map Prod.fst := by
  induction l generalizing es with
  | nil =>
      cases hes
      rfl
  | cons e l ih =>
      rw [List.map_cons, List.mapM_cons] at hes
      obtain ⟨e', he', hes⟩ := bind_eq_ok.1 hes
      obtain ⟨es', hes', hes⟩ := bind_eq_ok.1 hes
      cases hes
      obtain ⟨he, hl⟩ := List.forall_mem_cons.1 hkey
      rw [List.map_cons, List.map_cons, he e' he', ih hl hes']

/-- A map whose entries are written in order and read back with their keys: it is read back exactly
when each entry is. -/
theorem readMap_entries_iff {write : K × V → α} {read : α → Result (K × V)} {m : SortedMap K V}
    (hkey : ∀ e ∈ m.entries, ∀ e', read (write e) = .ok e' → e'.1 = e.1) :
    readMap read (m.entries.map write) = .ok m ↔ ∀ e ∈ m.entries, read (write e) = .ok e := by
  rw [← mapM_map_iff, readMap_eq_ok]
  constructor
  · rintro ⟨es, hes, hfold⟩
    -- what was read has the same keys, so it is the entries of a map
    have hsorted : Keyed.Sorted compare Prod.fst es := by
      have hm : (m.entries.map Prod.fst).Pairwise fun a b => compare a b = .lt :=
        List.pairwise_map.2 m.sorted
      rw [← keys_of_mapM hkey hes] at hm
      exact List.pairwise_map.1 hm
    have hmap : m = ⟨es, hsorted⟩ := by
      rw [← hfold]
      exact SortedMap.foldl_insert_entries ⟨es, hsorted⟩
    have hentries : m.entries = es := congrArg SortedMap.entries hmap
    rw [hes, hentries]
  · intro h
    exact ⟨m.entries, h, SortedMap.foldl_insert_entries m⟩

end ReadMap

theorem CborObject.keysAscend_build (puts : List (String × CborObject)) :
    ∃ entries, build puts = .map entries ∧ KeysAscend entries := by
  refine ⟨_, rfl, ?_⟩
  induction puts using List.reverseRecOn with
  | nil => exact List.Pairwise.nil
  | append_singleton puts e ih =>
      simp only [List.foldl_append, List.foldl_cons, List.foldl_nil]
      exact keysAscend_mapInsert ih

/-- A map by names is read back if its values are, in whatever order it is written. -/
theorem readMap_build {V : Type} {write : V → CborObject} {read : CborObject → Result V}
    {m : SortedMap String V} (h : ∀ k v, m.get k = some v → read (write v) = .ok v) :
    ∃ entries, CborObject.build (m.entries.map fun e => (e.1, write e.2)) = .map entries ∧
      readMap (fun e => do
        let v ← read e.2
        pure (e.1, v)) entries = .ok m := by
  obtain ⟨entries, hbuild, hasc⟩ :=
    CborObject.keysAscend_build (m.entries.map fun e => (e.1, write e.2))
  have hkeys : (m.entries.map fun e => (e.1, write e.2)).map Prod.fst = m.entries.map Prod.fst := by
    rw [List.map_map]
    rfl
  have hnodup := hkeys ▸ m.sorted.nodup_keys
  have hget : ∀ k c, (k, c) ∈ entries ↔ ∃ v, m.get k = some v ∧ c = write v := by
    intro k c
    rw [← CborObject.get_eq_some_iff hasc, ← hbuild]
    cases hv : m.get k with
    | none =>
        rw [CborObject.get_build_of_not_mem]
        · simp
        · rw [hkeys]
          intro hmem
          obtain ⟨e, he, rfl⟩ := List.mem_map.1 hmem
          rw [SortedMap.mem_entries.1 he] at hv
          cases hv
    | some v =>
        rw [CborObject.get_build_of_mem hnodup
          (List.mem_map.2 ⟨(k, v), SortedMap.mem_entries.2 hv, rfl⟩)]
        simp [eq_comm]
  refine ⟨entries, hbuild, readMap_eq_ok.2 ?_⟩
  have hread : ∀ l : List (String × CborObject), (∀ e ∈ l, e ∈ entries) →
      ∃ es, l.mapM (fun e => do
        let v ← read e.2
        pure (e.1, v)) = Except.ok es ∧ es.map Prod.fst = l.map Prod.fst ∧
        ∀ e ∈ es, m.get e.1 = some e.2 := by
    intro l
    induction l with
    | nil => exact fun _ => ⟨[], rfl, rfl, by simp⟩
    | cons e l ih =>
        intro hl
        obtain ⟨he, hl⟩ := List.forall_mem_cons.1 hl
        obtain ⟨v, hv, hc⟩ := (hget e.1 e.2).1 he
        obtain ⟨es, hes, hfst, hall⟩ := ih hl
        refine ⟨(e.1, v) :: es, ?_, by simp [hfst], List.forall_mem_cons.2 ⟨hv, hall⟩⟩
        rw [List.mapM_cons, hc, h e.1 v hv]
        simp only [ok_bind, hes]
        rfl
  obtain ⟨es, hes, hfst, hall⟩ := hread entries fun _ he => he
  have hdistinct : (es.map Prod.fst).Nodup := by
    rw [hfst, List.Nodup, List.pairwise_map]
    refine List.Pairwise.imp ?_ hasc
    intro a b hab heq
    rw [heq, CborObject.cborStringCmp_eq_iff.2 rfl] at hab
    cases hab
  refine ⟨es, hes, SortedMap.ext_get fun k => ?_⟩
  rw [SortedMap.get_foldl_insert hdistinct, SortedMap.get_empty, Option.or_none]
  cases hlookup : Keyed.lookup Prod.fst k es with
  | none =>
      cases hv : m.get k with
      | none => rfl
      | some v =>
          have hmem : k ∈ es.map Prod.fst :=
            hfst ▸ List.mem_map.2 ⟨_, (hget k (write v)).2 ⟨v, hv, rfl⟩, rfl⟩
          obtain ⟨e, he, rfl⟩ := List.mem_map.1 hmem
          exact absurd rfl (Keyed.lookup_eq_none.1 hlookup e he)
  | some e =>
      obtain ⟨he, rfl⟩ := Keyed.mem_of_lookup hlookup
      exact (hall e he).symm

namespace Wire

/-! ## Chats -/

/-- `Chat`. -/
structure Chat where
  chatUid : String
  host : MemberId
  current : TreeClock
  members : SortedMap MemberId Member
  groupState : SortedMap String GroupProperty
  recentMessages : List MessageEnvelope
  deriving DecidableEq

namespace Chat

/-- An id and the member under it, one after the other. -/
def memberItems (e : MemberId × Member) : List CborObject := [e.1.toCbor, e.2.toCbor]

/-- The fields of a chat, in the order they are put. -/
def fields (c : Chat) : List (String × CborObject) :=
  [("v", .long 0), ("i", .str c.chatUid), ("h", c.host.toCbor), ("c", c.current.toCbor),
    ("m", .list (c.members.entries.flatMap memberItems)),
    ("g", .build (c.groupState.entries.map fun e => (e.1, e.2.toCbor))),
    ("r", .list (c.recentMessages.map MessageEnvelope.toCbor))]

/-- `Chat::to_cbor`. -/
def toCbor (c : Chat) : CborObject := .build c.fields

/-- `chunks(2)` of a list of even length. -/
def pairs : List CborObject → List (CborObject × CborObject)
  | a :: b :: rest => (a, b) :: pairs rest
  | _ => []

/-- An id and a member, as they are read. -/
def readMember (p : CborObject × CborObject) : Result (MemberId × Member) := do
  let id ← MemberId.fromCbor p.1
  let member ← Member.fromCbor p.2
  pure (id, member)

/-- A name and a property, as they are read. -/
def readProperty (e : String × CborObject) : Result (String × GroupProperty) := do
  let p ← GroupProperty.fromCbor e.2
  pure (e.1, p)

/-- `Chat::from_cbor`. -/
def fromCbor (cbor : CborObject) : Result Chat :=
  match cbor.asMap with
  | none => cborErr "Incorrect cbor for Chat"
  | some _ => do
      let get := CborObject.fieldOf "Chat" cbor
      let chatUid ← CborObject.kindOf "Chat" "string" CborObject.asString cbor "i"
      let host ← get "h" >>= MemberId.fromCbor
      let current ← get "c" >>= TreeClock.fromCbor
      let memberList ← CborObject.kindOf "Chat" "list" CborObject.asList cbor "m"
      if memberList.length % 2 ≠ 0 then cborErr "Chat members list has odd length"
      else
        let members ← readMap readMember (pairs memberList)
        let g ← get "g"
        let groupState ← readMap readProperty (g.asMap.getD [])
        let recent ← CborObject.kindOf "Chat" "list" CborObject.asList cbor "r"
        let recentMessages ← recent.mapM MessageEnvelope.fromCbor
        pure ⟨chatUid, host, current, members, groupState, recentMessages⟩

/-- The ids of a chat are made of `i32`s, and its keys fit. -/
structure InRange (c : Chat) : Prop where
  host : c.host.Encodable
  current : c.current.Encodable
  members : ∀ e ∈ c.members.entries, e.1.Encodable ∧ e.2.id.Encodable
  groupState : ∀ e ∈ c.groupState.entries, e.2.InRange
  recentMessages : ∀ e ∈ c.recentMessages, e.InRange

/-- The keys named in a chat. -/
def keyHashes (c : Chat) : List PublicKeyHash :=
  c.members.entries.flatMap (fun e => e.2.keyHashes) ++
    c.recentMessages.flatMap MessageEnvelope.keyHashes

theorem pairs_flatMap (l : List (MemberId × Member)) :
    pairs (l.flatMap memberItems) = l.map fun e => (e.1.toCbor, e.2.toCbor) := by
  induction l with
  | nil => rfl
  | cons e l ih =>
      rw [List.flatMap_cons, List.map_cons, ← ih]
      rfl

theorem length_flatMap (l : List (MemberId × Member)) :
    (l.flatMap memberItems).length = 2 * l.length := by
  induction l with
  | nil => rfl
  | cons e l ih =>
      rw [List.flatMap_cons, List.length_append, ih, List.length_cons, memberItems]
      simp
      omega

/-- The members are read back exactly when the keys named in them are. -/
theorem readMembers_iff {c : Chat} (h : c.InRange) :
    readMap readMember (pairs (c.members.entries.flatMap memberItems)) = .ok c.members ↔
      ∀ e ∈ c.members.entries, ∀ k ∈ e.2.keyHashes, k.target.Written := by
  rw [pairs_flatMap, readMap_entries_iff]
  · refine forall₂_congr fun e he => ?_
    obtain ⟨hid, hmember⟩ := h.members e he
    rw [← Member.readsBack_iff hmember]
    simp only [readMember, MemberId.fromCbor_toCbor hid, ok_bind]
    constructor
    · intro hread
      obtain ⟨m, hm, hread⟩ := bind_eq_ok.1 hread
      obtain rfl : m = e.2 := congrArg Prod.snd (Except.ok.inj hread)
      exact hm
    · intro hm
      simp only [hm, ok_bind]
      rfl
  · intro e he e' hread
    simp only [readMember, MemberId.fromCbor_toCbor (h.members e he).1, ok_bind] at hread
    obtain ⟨m, -, hread⟩ := bind_eq_ok.1 hread
    cases hread
    rfl

/-- A chat reads back exactly when the keys named in it do. -/
theorem readsBack_iff {c : Chat} (h : c.InRange) :
    fromCbor c.toCbor = .ok c ↔ ∀ k ∈ c.keyHashes, k.target.Written := by
  have hfields : ∀ f ∈ c.fields, c.toCbor.get f.1 = some f.2 := fun _ hf =>
    CborObject.get_build_of_mem (by simp [fields]) hf
  simp only [fields, List.forall_mem_cons] at hfields
  obtain ⟨-, hi, hh, hc, hm, hg, hr, -⟩ := hfields
  have hstr : CborObject.asString (.str c.chatUid) = some c.chatUid := rfl
  have hlist : ∀ items, CborObject.asList (.list items) = some items := fun _ => rfl
  have hproperty : ∀ k v, c.groupState.get k = some v → GroupProperty.fromCbor v.toCbor = .ok v :=
    fun k v hv => GroupProperty.fromCbor_toCbor (h.groupState (k, v) (SortedMap.mem_entries.2 hv))
  obtain ⟨entries, hbuild, hgroup⟩ := readMap_build hproperty
  have hgroup : readMap readProperty entries = .ok c.groupState := hgroup
  rw [hbuild] at hg
  have hrecent : (c.recentMessages.map MessageEnvelope.toCbor).mapM MessageEnvelope.fromCbor =
      .ok c.recentMessages ↔ ∀ e ∈ c.recentMessages, ∀ k ∈ e.keyHashes, k.target.Written := by
    rw [mapM_map_iff]
    exact forall₂_congr fun e he => MessageEnvelope.readsBack_iff (h.recentMessages e he)
  have heven : ¬ (c.members.entries.flatMap memberItems).length % 2 ≠ 0 := by
    rw [length_flatMap]
    omega
  rw [keyHashes, List.forall_mem_append, List.forall_mem_flatMap, List.forall_mem_flatMap,
    ← readMembers_iff h, ← hrecent]
  simp only [fromCbor, CborObject.fieldOf_eq hh, CborObject.fieldOf_eq hc,
    CborObject.fieldOf_eq hg, CborObject.kindOf_eq hi hstr, CborObject.kindOf_eq hm (hlist _),
    CborObject.kindOf_eq hr (hlist _), ok_bind, MemberId.fromCbor_toCbor h.host,
    TreeClock.fromCbor_toCbor h.current, if_neg heven, CborObject.asMap, Option.getD_some, hgroup]
  constructor
  · intro hread
    obtain ⟨members, hmembers, hread⟩ := bind_eq_ok.1 hread
    obtain ⟨recent, hrecent, hread⟩ := bind_eq_ok.1 hread
    have heq := Except.ok.inj hread
    obtain rfl : members = c.members := congrArg Chat.members heq
    obtain rfl : recent = c.recentMessages := congrArg Chat.recentMessages heq
    exact ⟨hmembers, hrecent⟩
  · rintro ⟨hmembers, hrecent⟩
    simp only [hmembers, hrecent, ok_bind]
    rfl

end Chat

end Wire

end Peergos
