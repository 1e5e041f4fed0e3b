import PeergosClient.Email.Message
import PeergosClient.Messaging.Wire

/-!
# Social posts as they are stored

A `SocialPost` with its previous versions, and the CBOR it is stored as: a list of the tag that
marks a post and a map of its fields.  The parent, the previous versions and the comments are put
only if there are any.
-/

namespace Peergos

open Wire

/-! ## Posts -/

/-- `Resharing`. -/
inductive Resharing where
  | author
  | friends
  | followers
  | public_
  deriving DecidableEq, Repr

namespace Resharing

/-- `Resharing::name`. -/
def name : Resharing → String
  | author => "Author"
  | friends => "Friends"
  | followers => "Followers"
  | public_ => "Public"

/-- `Resharing::from_name`. -/
def fromName (s : String) : Result Resharing :=
  if s = "Author" then .ok author
  else if s = "Friends" then .ok friends
  else if s = "Followers" then .ok followers
  else if s = "Public" then .ok public_
  else cborErr s!"unknown Resharing: {s}"

theorem fromName_name (r : Resharing) : fromName r.name = .ok r := by
  cases r <;> rfl

end Resharing

/-- `SocialPost`. -/
structure SocialPost where
  author : String
  body : List Content
  postTime : Int64
  shareTo : Resharing
  parent : Option FileRef
  previousVersions : List SocialPost
  comments : List FileRef

namespace SocialPost

/-- `CBOR_PEERGOS_POST_INT`. -/
def cborPeergosPostInt : Int64 := 17

/-- The fields that are always put. -/
def plainFields (p : SocialPost) : List (String × CborObject) :=
  [("a", .str p.author), ("b", .list (p.body.map Content.toCbor)), ("t", .long p.postTime),
    ("s", .str p.shareTo.name)]

/-- A list that is put only if it is not empty. -/
def listField (key : String) (items : List CborObject) : List (String × CborObject) :=
  if items.isEmpty then [] else [(key, .list items)]

/-- All the fields of a post, in the order they are put, given what its previous versions are
written as. -/
def fields (p : SocialPost) (versions : List CborObject) : List (String × CborObject) :=
  p.plainFields ++ (p.parent.map fun r => ("p", FileRef.toCbor r)).toList ++
    listField "v" versions ++ listField "d" (p.comments.map FileRef.toCbor)

mutual

/-- `SocialPost::to_cbor`. -/
def toCbor : SocialPost → CborObject
  | ⟨author, body, postTime, shareTo, parent, previousVersions, comments⟩ =>
      .list [.long cborPeergosPostInt,
        .build (fields ⟨author, body, postTime, shareTo, parent, previousVersions, comments⟩
          (toCborAll previousVersions))]

def toCborAll : List SocialPost → List CborObject
  | [] => []
  | p :: ps => toCbor p :: toCborAll ps

end

theorem toCbor_eq (p : SocialPost) :
    p.toCbor =
      .list [.long cborPeergosPostInt, .build (p.fields (toCborAll p.previousVersions))] := by
  cases p
  rw [toCbor]

/-- The keys of a post, as they are put. -/
theorem fields_keys (p : SocialPost) (versions : List CborObject) :
    ((p.fields versions).map Prod.fst).Sublist ["a", "b", "t", "s", "p", "v", "d"] := by
  have hlist : ∀ (k : String) (items : List CborObject),
      ((listField k items).map Prod.fst).Sublist [k] := by
    intro k items
    unfold listField
    split_ifs <;> simp
  have hparent : ((p.parent.map fun r => ("p", FileRef.toCbor r)).toList.map Prod.fst).Sublist
      ["p"] := by
    cases p.parent <;> simp
  simp only [fields, List.map_append]
  exact (((List.Sublist.refl _).append hparent).append (hlist "v" _)).append (hlist "d" _)

/-- `SocialPost::serialize`. -/
def serialize (p : SocialPost) : Bytes := p.toCbor.toBytes

/-- The post in a body map, given what its previous versions read as. -/
def ofBody (m : CborObject) (versions : Result (List SocialPost)) : Result SocialPost := do
  let author ←
    match (m.get "a").bind CborObject.asString with
    | some a => .ok a
    | none => cborErr "post missing 'a'"
  let body ← (((m.get "b").bind CborObject.asList).getD []).mapM Content.fromCbor
  let shareTo ← Resharing.fromName (((m.get "s").bind CborObject.asString).getD "Author")
  let parent ← AbsoluteCapability.optional m "p" FileRef.fromCbor
  let previousVersions ← versions
  let comments ← (((m.get "d").bind CborObject.asList).getD []).mapM FileRef.fromCbor
  pure {
    author
    body
    postTime := ((m.get "t").bind CborObject.asLong).getD 0
    shareTo
    parent
    previousVersions
    comments }

theorem sizeOf_versions_le (m : CborObject) :
    sizeOf (((m.get "v").bind CborObject.asList).getD []) ≤ sizeOf m := by
  have hpos : ∀ c : CborObject, sizeOf ([] : List CborObject) ≤ sizeOf c := fun c => by
    cases c <;> simp
  cases hget : m.get "v" with
  | none => exact hpos m
  | some c =>
      have hlt := CborObject.sizeOf_lt_of_get hget
      cases c with
      | list items =>
          simp only [CborObject.list.sizeOf_spec] at hlt
          simp only [Option.bind_some, CborObject.asList, Option.getD_some]
          omega
      | _ => exact hpos m

mutual

/-- `SocialPost::from_cbor`. -/
def fromCbor (cbor : CborObject) : Result SocialPost :=
  match hlist : cbor.asList with
  | none => cborErr "SocialPost not a list"
  | some list =>
      if list.head?.bind CborObject.asLong ≠ some cborPeergosPostInt then
        cborErr "bad SocialPost mime tag"
      else
        match hm : list[1]? with
        | none => cborErr "SocialPost missing body map"
        | some m => ofBody m (fromCborAll (((m.get "v").bind CborObject.asList).getD []))
  termination_by sizeOf cbor
  decreasing_by
    exact (sizeOf_versions_le m).trans_lt (CborObject.sizeOf_lt_of_asList hlist hm)

def fromCborAll (items : List CborObject) : Result (List SocialPost) :=
  match items with
  | [] => pure []
  | c :: items => do
      let p ← fromCbor c
      let ps ← fromCborAll items
      pure (p :: ps)
  termination_by sizeOf items

end

end SocialPost

end Peergos
