import PeergosClient.Core.Multiformats

/-!
# CBOR objects and their canonical encoding

`CborObject` with the accessors the rest of the client uses, and `toBytes`, the deterministic
encoder of `peergos-cbor`.  A map is the list of its entries in the order of a `BTreeMap` keyed by
`CborString`: by the number of UTF-16 code units first, then by the units themselves.  `mapInsert`
keeps that order, so two maps with the same entries are the same list whatever order they were
inserted in.
-/

namespace Peergos

/-- `CborObject`. -/
inductive CborObject where
  | long (v : Int64)
  | boolean (v : Bool)
  | byteString (b : Bytes)
  | str (s : String)
  | list (items : List CborObject)
  | map (entries : List (String × CborObject))
  | merkleLink (cid : Bytes)
  | null
  deriving Repr, Inhabited

namespace CborObject

/-! ## Equality -/

mutual

/-- Structural equality as a Boolean. -/
def beq : CborObject → CborObject → Bool
  | long a, long b => a = b
  | boolean a, boolean b => a = b
  | byteString a, byteString b => a = b
  | str a, str b => a = b
  | list a, list b => beqList a b
  | map a, map b => beqEntries a b
  | merkleLink a, merkleLink b => a = b
  | null, null => true
  | _, _ => false

def beqList : List CborObject → List CborObject → Bool
  | [], [] => true
  | a :: as, b :: bs => beq a b && beqList as bs
  | _, _ => false

def beqEntries : List (String × CborObject) → List (String × CborObject) → Bool
  | [], [] => true
  | (k, a) :: as, (k', b) :: bs => decide (k = k') && (beq a b && beqEntries as bs)
  | _, _ => false

end

theorem beq_iff : ∀ a b : CborObject, beq a b = true ↔ a = b := by
  refine @CborObject.rec
    (fun a => ∀ b, beq a b = true ↔ a = b)
    (fun as => ∀ bs, beqList as bs = true ↔ as = bs)
    (fun as => ∀ bs, beqEntries as bs = true ↔ as = bs)
    (fun p => ∀ b, beq p.2 b = true ↔ p.2 = b)
    ?long ?boolean ?byteString ?str ?list ?map ?merkleLink ?null ?nil ?cons ?enil ?econs ?mk
  case long => intro v b; cases b <;> simp [beq]
  case boolean => intro v b; cases b <;> simp [beq]
  case byteString => intro v b; cases b <;> simp [beq]
  case str => intro v b; cases b <;> simp [beq]
  case list => intro v ih b; cases b <;> simp [beq, ih]
  case map => intro v ih b; cases b <;> simp [beq, ih]
  case merkleLink => intro v b; cases b <;> simp [beq]
  case null => intro b; cases b <;> simp [beq]
  case nil => intro bs; cases bs <;> simp [beqList]
  case cons => intro a as iha ihas bs; cases bs <;> simp [beqList, iha, ihas]
  case enil => intro bs; cases bs <;> simp [beqEntries]
  case econs =>
    rintro ⟨k, a⟩ as iha ihas bs
    cases bs with
    | nil => simp [beqEntries]
    | cons p bs =>
        obtain ⟨k', b⟩ := p
        simp only [beqEntries, Bool.and_eq_true, decide_eq_true_eq, iha, ihas, List.cons.injEq,
          Prod.mk.injEq]
        tauto
  case mk => intro k v ih; exact ih

instance : DecidableEq CborObject := fun a b => decidable_of_iff _ (beq_iff a b)

/-! ## Text keys -/

/-- The UTF-16 code units of a character. -/
def charUnits (c : Char) : List ℕ :=
  let n := c.toNat
  if n < 0x10000 then [n] else [0xd800 + (n - 0x10000) / 0x400, 0xdc00 + (n - 0x10000) % 0x400]

/-- The UTF-16 code units of a text, as `encode_utf16` gives them. -/
def utf16 (s : String) : List ℕ := s.toList.flatMap charUnits

/-- `CborString::cmp`. -/
def cborStringCmp (a b : String) : Ordering :=
  (compare (utf16 a).length (utf16 b).length).then (compare (utf16 a) (utf16 b))

/-- The code units of one character determine it, whatever follows. -/
theorem charUnits_append_inj {c c' : Char} {rest rest' : List ℕ}
    (h : charUnits c ++ rest = charUnits c' ++ rest') : c = c' ∧ rest = rest' := by
  have hc : c.toNat < 0xd800 ∨ (0xdfff < c.toNat ∧ c.toNat < 0x110000) := c.valid
  have hc' : c'.toNat < 0xd800 ∨ (0xdfff < c'.toNat ∧ c'.toNat < 0x110000) := c'.valid
  have hinj : c.toNat = c'.toNat → c = c' := fun h => Char.toNat_inj.1 h
  unfold charUnits at h
  simp only at h
  split at h <;> split at h
  · obtain ⟨h1, h2⟩ := List.cons.inj h
    exact ⟨hinj h1, h2⟩
  · obtain ⟨h1, -⟩ := List.cons.inj h
    omega
  · obtain ⟨h1, -⟩ := List.cons.inj h
    omega
  · obtain ⟨h1, h2⟩ := List.cons.inj h
    obtain ⟨h2, h3⟩ := List.cons.inj h2
    exact ⟨hinj (by omega), h3⟩

theorem utf16_injective : Function.Injective utf16 := by
  have hlist : ∀ l l' : List Char, l.flatMap charUnits = l'.flatMap charUnits → l = l' := by
    intro l
    induction l with
    | nil =>
        intro l' h
        cases l' with
        | nil => rfl
        | cons c l' =>
            rw [List.flatMap_nil, List.flatMap_cons] at h
            have := (List.append_eq_nil_iff.1 h.symm).1
            unfold charUnits at this
            simp only at this
            split at this <;> cases this
    | cons c l ih =>
        intro l' h
        cases l' with
        | nil =>
            rw [List.flatMap_nil, List.flatMap_cons] at h
            have := (List.append_eq_nil_iff.1 h).1
            unfold charUnits at this
            simp only at this
            split at this <;> cases this
        | cons c' l' =>
            rw [List.flatMap_cons, List.flatMap_cons] at h
            obtain ⟨hc, hl⟩ := charUnits_append_inj h
            rw [hc, ih l' hl]
  intro a b h
  exact String.toList_injective (hlist _ _ h)

theorem cborStringCmp_eq_iff {a b : String} : cborStringCmp a b = .eq ↔ a = b := by
  unfold cborStringCmp
  rw [Ordering.then_eq_eq]
  constructor
  · rintro ⟨-, h⟩
    exact utf16_injective (Std.LawfulEqCmp.eq_of_compare h)
  · rintro rfl
    simp

/-- `BTreeMap::insert` on the entries in order. -/
def mapInsert (k : String) (v : CborObject) :
    List (String × CborObject) → List (String × CborObject)
  | [] => [(k, v)]
  | (k', v') :: rest =>
      match cborStringCmp k k' with
      | .lt => (k, v) :: (k', v') :: rest
      | .eq => (k', v) :: rest
      | .gt => (k', v') :: mapInsert k v rest

/-- `CborMapBuilder`: the entries are put one after another into an empty map. -/
def build (entries : List (String × CborObject)) : CborObject :=
  .map (entries.foldl (fun m e => mapInsert e.1 e.2 m) [])

/-! ## Accessors -/

/-- `CborObject::get`: a field of a map by name. -/
def get (c : CborObject) (key : String) : Option CborObject :=
  match c with
  | map entries => (entries.find? fun e => e.1 = key).map Prod.snd
  | _ => none

/-- Reading a map after an insertion. -/
theorem get_map_mapInsert (k : String) (v : CborObject) (entries : List (String × CborObject))
    (field : String) : get (.map (mapInsert k v entries)) field =
      if field = k then some v else get (.map entries) field := by
  simp only [get]
  induction entries with
  | nil =>
      by_cases h : field = k
      · simp [mapInsert, h]
      · simp [mapInsert, h, Ne.symm h]
  | cons e entries ih =>
      obtain ⟨k', v'⟩ := e
      unfold mapInsert
      cases hcmp : cborStringCmp k k' with
      | lt =>
          by_cases h : field = k
          · simp [h]
          · simp [h, Ne.symm h]
      | eq =>
          cases cborStringCmp_eq_iff.1 hcmp
          by_cases h : field = k
          · simp [h]
          · simp [h, Ne.symm h]
      | gt =>
          have hne : k' ≠ k := by
            rintro rfl
            rw [cborStringCmp_eq_iff.2 rfl] at hcmp
            cases hcmp
          by_cases h : field = k'
          · subst h
            simp [hne]
          · simp only [List.find?_cons, decide_eq_false (Ne.symm h)]
            exact ih

/-- `CborObject::as_list`. -/
def asList : CborObject → Option (List CborObject)
  | list l => some l
  | _ => none

/-- `CborObject::as_bytes`. -/
def asBytes : CborObject → Option Bytes
  | byteString b => some b
  | _ => none

/-- `CborObject::as_link`. -/
def asLink : CborObject → Option Bytes
  | merkleLink c => some c
  | _ => none

/-! ## Encoding -/

/-- `write_uint`: the shortest form of a length or value after the major type bits. -/
def writeUint (mt : UInt8) (value : ℕ) : Bytes :=
  if value < 0x18 then [mt ||| UInt8.ofNat value]
  else if value < 0x100 then [mt ||| 0x18, UInt8.ofNat value]
  else if value < 0x10000 then [mt ||| 0x19, UInt8.ofNat (value >>> 8), UInt8.ofNat value]
  else if value < 0x100000000 then
    [mt ||| 0x1a, UInt8.ofNat (value >>> 24), UInt8.ofNat (value >>> 16),
      UInt8.ofNat (value >>> 8), UInt8.ofNat value]
  else
    [mt ||| 0x1b, UInt8.ofNat (value >>> 56), UInt8.ofNat (value >>> 48),
      UInt8.ofNat (value >>> 40), UInt8.ofNat (value >>> 32), UInt8.ofNat (value >>> 24),
      UInt8.ofNat (value >>> 16), UInt8.ofNat (value >>> 8), UInt8.ofNat value]

/-- `write_type`. -/
def writeType (majorType : UInt8) (value : ℕ) : Bytes := writeUint (majorType <<< 5) value

/-- `write_string`. -/
def writeString (majorType : UInt8) (bytes : Bytes) : Bytes :=
  writeType majorType bytes.length ++ bytes

/-- `write_int`: the sign picks the major type and the magnitude is the ones' complement. -/
def writeInt (value : Int64) : Bytes :=
  let sign := value >>> 63
  writeUint (sign &&& ((1 : Int64) <<< 5)).toUInt64.toUInt8 (sign ^^^ value).toUInt64.toNat

/-- `write_simple_type` under major type 7. -/
def writeSimple (value : UInt8) : Bytes := [((7 : UInt8) <<< 5) ||| (value &&& 0x1f)]

/-- The bytes of a text. -/
def utf8 (s : String) : Bytes := s.toUTF8.data.toList

mutual

/-- `write_object`. -/
def toBytes : CborObject → Bytes
  | long v => writeInt v
  | boolean v => writeSimple (if v then 0x15 else 0x14)
  | byteString b => writeString 2 b
  | str s => writeString 3 (utf8 s)
  | list items => writeType 4 items.length ++ listBytes items
  | map entries => writeType 5 entries.length ++ entriesBytes entries
  | merkleLink cid => writeType 6 42 ++ writeString 2 (0 :: cid)
  | null => writeSimple 0x16

def listBytes : List CborObject → Bytes
  | [] => []
  | item :: items => toBytes item ++ listBytes items

def entriesBytes : List (String × CborObject) → Bytes
  | [] => []
  | (k, v) :: entries => writeString 3 (utf8 k) ++ (toBytes v ++ entriesBytes entries)

end

example : (CborObject.list [.long (-1), .null, .byteString [7]]).toBytes =
    [0x83, 0x20, 0xf6, 0x41, 7] := by decide

end CborObject

end Peergos
