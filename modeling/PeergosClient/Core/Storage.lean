import PeergosClient.Cbor.Object
import PeergosClient.Lib.Outcome

/-!
# Results and the content-addressed store

What a call of the client can come back with, and the block store it runs against.

A call returns a value, an `Error`, or does not return at all because it panicked.  `Fault` holds
the two ways of not returning a value, so that an out-of-range index of the source is a visible
outcome of the model; `Fault.fuel` marks a recursion cut short by the model's own bound and is
never the answer of the source.

`ContentAddressedStorage` is the block store of the trait with that name, over a state `σ` of its
own.  What the client relies on is `Lawful`: a block is filed under the hash of its bytes, is
returned by a later `get`, and is not displaced by later writes.
-/

namespace Peergos

/-! ## Results -/

/-- `Error`.  A text that ends in a CID keeps the CID beside it instead of its base58 form. -/
inductive Error where
  | http (msg : String)
  | rateLimited
  | quotaExceeded (msg : String)
  | protocol (msg : String)
  | protocolCid (msg : String) (cid : Cid)
  | cbor (msg : String)
  | multiformat (msg : String)
  | crypto (msg : String)
  deriving DecidableEq, Repr

/-- Why a call gives no value: an error it returns, a panic, or the model's recursion bound. -/
inductive Fault where
  | err (e : Error)
  | panic
  | fuel
  deriving DecidableEq, Repr

/-- The call ended in an `Err`. -/
def Fault.IsErr (f : Fault) : Prop := ∃ e, f = .err e

/-- `Result<T>`, with panics made visible. -/
abbrev Result (α : Type) := Except Fault α

/-- `Err(Error::Protocol(..))`. -/
def protocolErr {α : Type} (msg : String) : Result α := .error (.err (.protocol msg))

theorem ensures_protocolErr {α : Type} (msg : String) (post : α → Prop) :
    Outcome.Ensures (protocolErr msg : Result α) post Fault.IsErr := ⟨_, rfl⟩

/-- `Err(Error::Cbor(..))`. -/
def cborErr {α : Type} (msg : String) : Result α := .error (.err (.cbor msg))

/-- `?` on a `MfError`. -/
def liftMf {α : Type} : Except MfError α → Result α
  | .ok a => .ok a
  | .error e => .error (.err (.multiformat e.msg))

theorem liftMf_eq_ok {α : Type} {x : Except MfError α} {a : α} (h : liftMf x = .ok a) :
    x = .ok a := by
  cases x with
  | ok b =>
      cases h
      rfl
  | error e => cases h

/-- A call that returned a value returned one from each of its steps. -/
theorem bind_eq_ok {α β : Type} {x : Result α} {f : α → Result β} {b : β} :
    (x >>= f) = .ok b ↔ ∃ a, x = .ok a ∧ f a = .ok b := by
  cases x with
  | error e => simp [bind, Except.bind]
  | ok a => simp [bind, Except.bind]

@[simp] theorem ok_bind {α β : Type} (a : α) (f : α → Result β) : (Except.ok a >>= f) = f a := rfl

@[simp] theorem error_bind {α β : Type} (e : Fault) (f : α → Result β) :
    ((Except.error e : Result α) >>= f) = .error e := rfl

/-- `collect::<Result<Vec<_>>>()` over what was written. -/
theorem mapM_map_eq_ok {α β : Type} {read : β → Result α} {write : α → β} {l : List α}
    (h : ∀ a ∈ l, read (write a) = .ok a) : (l.map write).mapM read = .ok l := by
  induction l with
  | nil => rfl
  | cons a l ih =>
      rw [List.forall_mem_cons] at h
      simp [List.mapM_cons, h.1, ih h.2, pure, Except.pure]

/-- A call seen to return. -/
theorem exists_eq_ok {α : Type} {x : Result α} (h : x.toOption.isSome = true) :
    ∃ a, x = .ok a := by
  cases x with
  | error e => cases h
  | ok a => exact ⟨a, rfl⟩

theorem eq_ok_of_toOption {ε α : Type} {x : Except ε α} {a : α} (h : x.toOption = some a) :
    x = .ok a := by
  cases x with
  | error e => cases h
  | ok a' => cases h; rfl

/-! ## Vectors -/

section Vec

variable {α : Type}

/-- `v[i]`. -/
def vecGet (v : List α) (i : ℕ) : Result α :=
  match v[i]? with
  | some x => .ok x
  | none => .error .panic

/-- `v[i] = x`. -/
def vecSet (v : List α) (i : ℕ) (x : α) : Result (List α) :=
  if i < v.length then .ok (v.set i x) else .error .panic

/-- `v.insert(i, x)`. -/
def vecInsert (v : List α) (i : ℕ) (x : α) : Result (List α) :=
  if i ≤ v.length then .ok (v.insertIdx i x) else .error .panic

/-- `v.remove(i)`. -/
def vecRemove (v : List α) (i : ℕ) : Result (List α) :=
  if i < v.length then .ok (v.eraseIdx i) else .error .panic

/-- `a - b` on `usize`: an underflow panics, or wraps to an index that then panics. -/
def usizeSub (a b : ℕ) : Result ℕ := if b ≤ a then .ok (a - b) else .error .panic

theorem vecGet_of_getElem? {v : List α} {i : ℕ} {x : α} (h : v[i]? = some x) :
    vecGet v i = .ok x := by
  rw [vecGet, h]

theorem vecSet_of_lt {v : List α} {i : ℕ} (h : i < v.length) (x : α) :
    vecSet v i x = .ok (v.set i x) := if_pos h

theorem vecInsert_of_le {v : List α} {i : ℕ} (h : i ≤ v.length) (x : α) :
    vecInsert v i x = .ok (v.insertIdx i x) := if_pos h

theorem vecRemove_of_lt {v : List α} {i : ℕ} (h : i < v.length) :
    vecRemove v i = .ok (v.eraseIdx i) := if_pos h

theorem usizeSub_of_le {a b : ℕ} (h : b ≤ a) : usizeSub a b = .ok (a - b) := if_pos h

end Vec

/-! ## Blocks and their store -/

/-- `build_cid`. -/
def buildCid (sha256Hash : Bytes) (isRaw : Bool) : Except MfError Cid :=
  Cid.new .v1 (if isRaw then .raw else .dagCbor) .sha2_256 sha256Hash

theorem buildCid_version {h : Bytes} {isRaw : Bool} {c : Cid} (hc : buildCid h isRaw = .ok c) :
    c.version = .v1 := by
  unfold buildCid Cid.new at hc
  cases hm : Multihash.new .sha2_256 h with
  | error e => rw [hm] at hc; cases hc
  | ok m => rw [hm] at hc; cases hc; rfl

/-- `ContentAddressedStorage`, as far as dag-cbor blocks go.  A block is given by the object it
encodes; owner, writer, transaction and BAT only authorise the call. -/
structure ContentAddressedStorage (σ : Type) where
  /-- `get`: the block under a CID, decoded, or `none` if it is absent. -/
  get : σ → Cid → Result (Option CborObject)
  /-- `put_block_signed`: write one block and return its CID. -/
  put : σ → CborObject → Result (Cid × σ)

namespace ContentAddressedStorage

variable {σ : Type}

/-- The store is content addressed by `sha256` and returns exactly what was put. -/
structure Lawful (S : ContentAddressedStorage σ) (sha256 : Bytes → Bytes) : Prop where
  /-- The CID is the hash of the block's bytes. -/
  put_cid : ∀ {s s' b c}, S.put s b = .ok (c, s') → buildCid (sha256 b.toBytes) false = .ok c
  /-- A block just put is there. -/
  put_get : ∀ {s s' b c}, S.put s b = .ok (c, s') → S.get s' c = .ok (some b)
  /-- A block that was there stays. -/
  put_keeps : ∀ {s s' b c c' b'}, S.put s b = .ok (c, s') → S.get s c' = .ok (some b') →
    S.get s' c' = .ok (some b')

/-- Every write succeeds. -/
def Writable (S : ContentAddressedStorage σ) : Prop := ∀ s b, ∃ c s', S.put s b = .ok (c, s')

/-- The block `b` is in the store under `c`, its own hash. -/
def Stored (S : ContentAddressedStorage σ) (sha256 : Bytes → Bytes) (s : σ) (c : Cid)
    (b : CborObject) : Prop :=
  S.get s c = .ok (some b) ∧ buildCid (sha256 b.toBytes) false = .ok c

/-- `s'` still has every block `s` had. -/
def Extends (S : ContentAddressedStorage σ) (s s' : σ) : Prop :=
  ∀ c b, S.get s c = .ok (some b) → S.get s' c = .ok (some b)

variable {S : ContentAddressedStorage σ} {sha256 : Bytes → Bytes}

theorem Extends.refl (s : σ) : S.Extends s s := fun _ _ h => h

theorem Extends.trans {s s' s'' : σ} (h : S.Extends s s') (h' : S.Extends s' s'') :
    S.Extends s s'' := fun c b hb => h' c b (h c b hb)

theorem Lawful.put_extends (h : S.Lawful sha256) {s s' : σ} {b : CborObject} {c : Cid}
    (hp : S.put s b = .ok (c, s')) : S.Extends s s' := fun _ _ hb => h.put_keeps hp hb

theorem Lawful.put_stored (h : S.Lawful sha256) {s s' : σ} {b : CborObject} {c : Cid}
    (hp : S.put s b = .ok (c, s')) : S.Stored sha256 s' c b := ⟨h.put_get hp, h.put_cid hp⟩

theorem Stored.mono {s s' : σ} {c : Cid} {b : CborObject} (h : S.Stored sha256 s c b)
    (he : S.Extends s s') : S.Stored sha256 s' c b := ⟨he c b h.1, h.2⟩

theorem Stored.unique {s : σ} {c : Cid} {b b' : CborObject} (h : S.Stored sha256 s c b)
    (h' : S.Stored sha256 s c b') : b = b' :=
  Option.some.inj (Except.ok.inj (h.1.symm.trans h'.1))

theorem Stored.cast {s : σ} {c : Cid} {b : CborObject} (h : S.Stored sha256 s c b) :
    Cid.cast c.toBytes = .ok c := Cid.cast_toBytes (buildCid_version h.2)

/-! ## A store in memory -/

/-- The block a list of blocks has under a CID. -/
def find (blocks : List (Cid × CborObject)) (c : Cid) : Option CborObject :=
  (blocks.find? fun b => b.1 = c).map Prod.snd

/-- A store that keeps its blocks in a list, and refuses a block whose CID another block has. -/
def memory (sha256 : Bytes → Bytes) : ContentAddressedStorage (List (Cid × CborObject)) where
  get s c := .ok (find s c)
  put s b := do
    let c ← liftMf (buildCid (sha256 b.toBytes) false)
    match find s c with
    | none => .ok (c, (c, b) :: s)
    | some b' => if b' = b then .ok (c, s) else protocolErr "hash collision"

theorem memory_put {sha256 : Bytes → Bytes} {s s' : List (Cid × CborObject)} {b : CborObject}
    {c : Cid} (h : (memory sha256).put s b = .ok (c, s')) :
    buildCid (sha256 b.toBytes) false = .ok c ∧
      ((find s c = none ∧ s' = (c, b) :: s) ∨ (find s c = some b ∧ s' = s)) := by
  obtain ⟨c', hc, h⟩ := bind_eq_ok.1 h
  have hc' : buildCid (sha256 b.toBytes) false = .ok c' := by
    cases hb : buildCid (sha256 b.toBytes) false with
    | error e => rw [hb] at hc; cases hc
    | ok c₁ => rw [hb] at hc; cases hc; rfl
  cases hf : find s c' with
  | none =>
      rw [hf] at h
      cases h
      exact ⟨hc', Or.inl ⟨hf, rfl⟩⟩
  | some b' =>
      rw [hf] at h
      simp only at h
      split at h
      · rename_i heq
        cases h
        exact ⟨hc', Or.inr ⟨heq ▸ hf, rfl⟩⟩
      · cases h

theorem find_cons (c c' : Cid) (b : CborObject) (s : List (Cid × CborObject)) :
    find ((c, b) :: s) c' = if c = c' then some b else find s c' := by
  unfold find
  by_cases h : c = c'
  · simp [h]
  · simp [h]

theorem memory_lawful (sha256 : Bytes → Bytes) : (memory sha256).Lawful sha256 where
  put_cid h := (memory_put h).1
  put_get h := by
    rcases (memory_put h).2 with ⟨-, rfl⟩ | ⟨hf, rfl⟩
    · exact congrArg Except.ok ((find_cons ..).trans (if_pos rfl))
    · exact congrArg Except.ok hf
  put_keeps h hget := by
    rcases (memory_put h).2 with ⟨hf, rfl⟩ | ⟨-, rfl⟩
    · refine congrArg Except.ok ((find_cons ..).trans ((if_neg ?_).trans (Except.ok.inj hget)))
      rintro rfl
      rw [Except.ok.inj hget] at hf
      cases hf
    · exact hget

end ContentAddressedStorage

end Peergos
