import PeergosClient.Fs.SectionRead
import PeergosClient.Lib.Utf8

/-!
# Names of conflicting files

A local file that conflicts with a remote one is renamed aside.  The new name is the old one with a
marker, `[conflict-0]` before the extension; a name that has a marker gets the version after it.

A path is its components.  A search for a free name may go on forever, so it has fuel.
-/

namespace Peergos

open Utf8 (len)

/-! ## The model -/

/-- A path below the root of a synced directory. -/
abbrev SyncPath := List String

/-- The operations of `SyncFilesystem` that a rename uses. -/
structure SyncFilesystem (σ : Type) where
  fileExists : SyncPath → Exec σ Fault Bool
  moveTo : SyncPath → SyncPath → Exec σ Fault Unit
  getLastModified : SyncPath → Exec σ Fault ℤ

/-- `FileState`. -/
structure FileState where
  relPath : SyncPath
  modificationTime : ℤ
  size : ℕ
  hash : Bytes
  chunkSize : ℕ
  deriving DecidableEq, Repr

/-- `Result::unwrap_or`. -/
def unwrapOr {σ α : Type} (x : Exec σ Fault α) (default : α) : Exec σ Fault α := do
  match ← Exec.attempt x with
  | .ok a => pure a
  | .error (.err _) => pure default
  | .error fault => Exec.fail fault

/-- The result of an operation on `u32`. -/
def Overflow.u32 (o : Overflow) (n : ℕ) : Result ℕ :=
  if n < 2 ^ 32 then .ok n
  else
    match o with
    | checked => .error .panic
    | wrapping => .ok (n % 2 ^ 32)

/-- `&text[start..stop]`. -/
def sliceText (text : List Char) (start stop : ℕ) : Result (List Char) :=
  match Utf8.slice text start stop with
  | some part => .ok part
  | none => .error .panic

/-- `str::parse::<u32>`: digits, after an optional plus sign. -/
def parseU32 (text : List Char) : Option ℕ :=
  let digits := if text.head? = some '+' then text.tail else text
  if digits ≠ [] ∧ digits.all Char.isDigit ∧ Nat.ofDigitChars 10 digits 0 < 2 ^ 32 then
    some (Nat.ofDigitChars 10 digits 0)
  else none

/-- The start of a marker. -/
def conflictMarker : List Char := ['[', 'c', 'o', 'n', 'f', 'l', 'i', 'c', 't', '-']

/-- A name with a marker. -/
def conflictName (before : List Char) (version : ℕ) (rest : List Char) : String :=
  .ofList (before ++ (conflictMarker ++ (Nat.toDigits 10 version ++ ']' :: rest)))

/-- A name taken apart at its marker. -/
structure Marked where
  before : List Char
  version : ℕ
  rest : List Char
  deriving DecidableEq, Repr

/-- The name taken apart at the marker at `cs`. -/
def readMarker (name : List Char) (cs : ℕ) : Result Marked := do
  let before ← sliceText name 0 cs
  let marked ← sliceText name cs (len name)
  let close := Utf8.find [']'] marked
  -- without a closing bracket this is past the end, unless the marker is at the start
  let after := cs + (close.map (· + 1)).getD (len name)
  let rest ← sliceText name after (len name)
  let version ← sliceText name (cs + len conflictMarker) ((close.map (cs + ·)).getD (len name))
  pure ⟨before, (parseU32 version).getD 0, rest⟩

/-- The name without its extension, and the extension with its dot. -/
def splitExtension (name : List Char) : Result (List Char × List Char) :=
  match Utf8.rfind '.' name with
  | some dot => do
      let front ← sliceText name 0 dot
      let back ← sliceText name dot (len name)
      pure (front, back)
  | none => pure (name, [])

section Rename

variable {σ : Type} (fs : SyncFilesystem σ) (o : Overflow)

/-- The loop over a name with a marker: it asks for one candidate again and again. -/
def nextVersion (parent : SyncPath) (m : Marked) : ℕ → Exec σ Fault String
  | 0 => Exec.fail .fuel
  | fuel + 1 => do
      let version ← Exec.lift (o.u32 (m.version + 1))
      let candidate := conflictName m.before version m.rest
      if ← unwrapOr (fs.fileExists (parent ++ [candidate])) false then nextVersion parent m fuel
      else pure candidate

/-- The loop over a name without one. -/
def firstVersion (parent : SyncPath) (name : List Char) : ℕ → ℕ → Exec σ Fault String
  | 0, _ => Exec.fail .fuel
  | fuel + 1, version => do
      let (front, back) ← Exec.lift (splitExtension name)
      let candidate := conflictName front version back
      if ← unwrapOr (fs.fileExists (parent ++ [candidate])) false then do
        let version ← Exec.lift (o.u32 (version + 1))
        firstVersion parent name fuel version
      else pure candidate

/-- `new_name`. -/
def newName (fuel : ℕ) (parent : SyncPath) (name : String) : Exec σ Fault String :=
  match Utf8.find conflictMarker name.toList with
  | some cs => do
      let m ← Exec.lift (readMarker name.toList cs)
      nextVersion fs o parent m fuel
  | none => firstVersion fs o parent name.toList fuel 0

/-- `rename_on_conflict`. -/
def renameOnConflict (fuel : ℕ) (path : SyncPath) (state : FileState) : Exec σ Fault FileState :=
  match path.getLast? with
  | none => Exec.fail .panic
  | some name => do
      let parent := path.dropLast
      let newName ← newName fs o fuel parent name
      let newPath := parent ++ [newName]
      fs.moveTo path newPath
      let newMtime ← unwrapOr (fs.getLastModified newPath) state.modificationTime
      let newRelPath :=
        if state.relPath.getLast? = some name then state.relPath.dropLast ++ [newName]
        else [newName]
      pure ⟨newRelPath, newMtime, state.size, state.hash, state.chunkSize⟩

end Rename

/-! ## Taking names apart -/

theorem Overflow.u32_lt {o : Overflow} {n v : ℕ} (h : o.u32 n = .ok v) : v < 2 ^ 32 := by
  unfold Overflow.u32 at h
  split at h
  · cases h
    assumption
  · cases o
    · cases h
    · cases h
      exact Nat.mod_lt _ (by norm_num)

theorem Overflow.u32_succ_ne {o : Overflow} {n v : ℕ} (h : o.u32 (n + 1) = .ok v) : v ≠ n := by
  unfold Overflow.u32 at h
  split at h
  · cases h
    omega
  · cases o
    · cases h
    · cases h
      omega

theorem Overflow.u32_of_lt (o : Overflow) {n : ℕ} (h : n < 2 ^ 32) : o.u32 n = .ok n := if_pos h

/-- A version is read back. -/
theorem parseU32_toDigits {v : ℕ} (h : v < 2 ^ 32) : parseU32 (Nat.toDigits 10 v) = some v := by
  have hdigit : ∀ c ∈ Nat.toDigits 10 v, c.isDigit = true := fun c hc =>
    Nat.isDigit_of_mem_toDigits (by norm_num) (by norm_num) hc
  have hplus : (Nat.toDigits 10 v).head? ≠ some '+' := fun hhead =>
    absurd (hdigit '+' (List.mem_of_head? hhead)) (by decide)
  have hvalue := Nat.ofDigitChars_toDigits (n := v) (b := 10) (by norm_num) (by norm_num)
  have hall : (Nat.toDigits 10 v).all Char.isDigit = true := List.all_eq_true.2 hdigit
  simp only [parseU32, if_neg hplus, hvalue]
  exact if_pos ⟨Nat.toDigits_ne_nil, hall, h⟩

theorem sliceText_front (x y : List Char) : sliceText (x ++ y) 0 (len x) = .ok x := by
  rw [sliceText, Utf8.slice_front]

theorem sliceText_back (x y : List Char) :
    sliceText (x ++ y) (len x) (len (x ++ y)) = .ok y := by
  rw [sliceText, Utf8.slice_back]

/-- A name whose first marker is closed. -/
structure ClosedMarker (name before text rest : List Char) : Prop where
  eq : name = before ++ (conflictMarker ++ (text ++ ']' :: rest))
  first : Utf8.find conflictMarker name = some (len before)
  closes : ']' ∉ text

theorem find_close_of_not_mem {x : List Char} (hx : ']' ∉ x) (y : List Char) :
    Utf8.find [']'] (x ++ y) = (Utf8.find [']'] y).map (len x + ·) := by
  induction x with
  | nil => simp
  | cons c x ih =>
      rw [List.mem_cons, not_or] at hx
      rw [List.cons_append, Utf8.find, if_neg, ih hx.2, Option.map_map]
      · congr 1
        funext i
        simp [Nat.add_assoc]
      · rw [List.cons_prefix_cons]
        exact fun h => hx.1 h.1

theorem find_close (x y : List Char) (hx : ']' ∉ x) :
    Utf8.find [']'] (x ++ ']' :: y) = some (len x) := by
  rw [find_close_of_not_mem hx, Utf8.find, if_pos ⟨y, rfl⟩]
  rfl

theorem find_close_eq_none {x : List Char} (hx : ']' ∉ x) : Utf8.find [']'] x = none := by
  have := find_close_of_not_mem hx []
  rw [List.append_nil] at this
  rw [this]
  rfl

theorem close_not_mem_conflictMarker : ']' ∉ conflictMarker := by decide

/-- A closed marker is taken apart. -/
theorem ClosedMarker.readMarker_eq {name before text rest : List Char}
    (h : ClosedMarker name before text rest) :
    readMarker name (len before) = .ok ⟨before, (parseU32 text).getD 0, rest⟩ := by
  obtain ⟨rfl, -, htext⟩ := h
  have hclose : Utf8.find [']'] (conflictMarker ++ (text ++ ']' :: rest)) =
      some (len conflictMarker + len text) := by
    rw [← List.append_assoc, find_close, Utf8.len_append]
    simp [close_not_mem_conflictMarker, htext]
  have hrest : sliceText (before ++ (conflictMarker ++ (text ++ ']' :: rest)))
      (len before + (len conflictMarker + len text + 1))
      (len (before ++ (conflictMarker ++ (text ++ ']' :: rest)))) = .ok rest := by
    have := sliceText_back (before ++ (conflictMarker ++ (text ++ [']']))) rest
    simpa [Nat.add_assoc, Char.utf8Size] using this
  have hversion : sliceText (before ++ (conflictMarker ++ (text ++ ']' :: rest)))
      (len before + len conflictMarker) (len before + (len conflictMarker + len text)) =
      .ok text := by
    have := Utf8.slice_append (before ++ conflictMarker) text (']' :: rest)
    rw [List.append_assoc, Utf8.len_append, Nat.add_assoc] at this
    rw [sliceText, this]
  simp only [readMarker, sliceText_front, sliceText_back, hclose, Option.map_some, Option.getD_some,
    hrest, hversion, bind, Except.bind, pure, Except.pure]

/-- A marker that is not closed is past the end, unless it is at the start of the name. -/
theorem readMarker_open {before text : List Char} (htext : ']' ∉ text) :
    readMarker (before ++ (conflictMarker ++ text)) (len before) =
      if before = [] then .ok ⟨[], (parseU32 text).getD 0, []⟩ else .error .panic := by
  have hclose : Utf8.find [']'] (conflictMarker ++ text) = none :=
    find_close_eq_none (by simp [close_not_mem_conflictMarker, htext])
  simp only [readMarker, sliceText_front, sliceText_back, hclose, bind, Except.bind,
    Option.map_none, Option.getD_none]
  by_cases hbefore : before = []
  · subst hbefore
    have hend : sliceText (conflictMarker ++ text) (len (conflictMarker ++ text))
        (len (conflictMarker ++ text)) = .ok [] := by
      have := sliceText_back (conflictMarker ++ text) []
      rwa [List.append_nil] at this
    simp [hend, sliceText_back, pure, Except.pure, -Utf8.len_append]
  · have hpast : Utf8.slice (before ++ (conflictMarker ++ text))
        (len before + len (before ++ (conflictMarker ++ text)))
        (len (before ++ (conflictMarker ++ text))) = none :=
      Utf8.slice_of_lt (by have := Utf8.len_pos hbefore; omega)
    rw [if_neg hbefore, sliceText, hpast]

/-- The extension of a name starts at its last dot. -/
theorem exists_splitExtension (name : List Char) :
    ∃ front back, splitExtension name = .ok (front, back) ∧ name = front ++ back := by
  unfold splitExtension
  split
  · next dot hdot =>
      obtain ⟨front, back, rfl, rfl⟩ := Utf8.rfind_eq_some hdot
      exact ⟨front, '.' :: back, by
        simp [sliceText_front, sliceText_back, bind, Except.bind, pure, Except.pure,
          -Utf8.len_append], rfl⟩
  · exact ⟨name, [], rfl, by rw [List.append_nil]⟩

/-! ## Free names -/

/-- The version after the one of a marker is there to be used. -/
def NextFree (o : Overflow) (names : Finset String) (before text rest : List Char) : Prop :=
  ∃ version, o.u32 ((parseU32 text).getD 0 + 1) = .ok version ∧
    conflictName before version rest ∉ names

/-- A name the rename may find a free one for: it has a marker that is closed or that it starts
with, and the next version is free, or it has none, and some version is. -/
inductive HasFreshName (o : Overflow) (names : Finset String) (name : List Char) : Prop
  | closed {before text rest : List Char} (marker : ClosedMarker name before text rest)
      (free : NextFree o names before text rest)
  | atStart {text : List Char} (eq : name = conflictMarker ++ text) (unclosed : ']' ∉ text)
      (free : NextFree o names [] text [])
  | unmarked {front back : List Char} (none : ¬conflictMarker <:+: name)
      (split : splitExtension name = .ok (front, back)) {version : ℕ} (lt : version < 2 ^ 32)
      (free : conflictName front version back ∉ names)

/-- What a rename relies on: the names in the directory are these, the file can be moved to any
other, and the time of a file that has been moved can be asked for. -/
structure SyncFilesystem.Holds {σ : Type} (fs : SyncFilesystem σ) (parent : SyncPath)
    (names : Finset String) (name : String) (s : σ) : Prop where
  fileExists : ∀ n, fs.fileExists (parent ++ [n]) s = (.ok (decide (n ∈ names)), s)
  moveTo : ∀ n ∉ names, ∃ s', fs.moveTo (parent ++ [name]) (parent ++ [n]) s = (.ok (), s') ∧
    ((∃ t s'', fs.getLastModified (parent ++ [n]) s' = (.ok t, s'')) ∨
      ∃ e s'', fs.getLastModified (parent ++ [n]) s' = (.error (.err e), s''))

section Free

variable {σ : Type} {fs : SyncFilesystem σ} {o : Overflow} {parent : SyncPath}
  {names : Finset String} {name : String} {s s' : σ} {fuel : ℕ} {c : String}

theorem unwrapOr_of_ok {α : Type} {x : Exec σ Fault α} {default a : α} (h : x s = (.ok a, s')) :
    unwrapOr x default s = (.ok a, s') := by
  unfold unwrapOr
  rw [Exec.bind_of_ok (Exec.attempt_of_run h)]
  rfl

theorem unwrapOr_of_err {α : Type} {x : Exec σ Fault α} {default : α} {e : Error}
    (h : x s = (.error (.err e), s')) : unwrapOr x default s = (.ok default, s') := by
  unfold unwrapOr
  rw [Exec.bind_of_ok (Exec.attempt_of_run h)]
  rfl

theorem SyncFilesystem.Holds.isTaken (h : fs.Holds parent names name s) (n : String) :
    unwrapOr (fs.fileExists (parent ++ [n])) false s = (.ok (decide (n ∈ names)), s) :=
  unwrapOr_of_ok (h.fileExists n)

/-- One round of the loop over a name with a marker. -/
theorem nextVersion_succ (h : fs.Holds parent names name s) (m : Marked) {version : ℕ}
    (hv : o.u32 (m.version + 1) = .ok version) :
    nextVersion fs o parent m (fuel + 1) s =
      if conflictName m.before version m.rest ∈ names then nextVersion fs o parent m fuel s
      else (.ok (conflictName m.before version m.rest), s) := by
  rw [nextVersion, hv, Exec.lift_ok_bind, Exec.bind_of_ok (h.isTaken _)]
  by_cases hin : conflictName m.before version m.rest ∈ names
  · simp [hin]
  · simp [hin]

theorem nextVersion_ok (h : fs.Holds parent names name s) {m : Marked}
    (hrun : nextVersion fs o parent m fuel s = (.ok c, s')) :
    s' = s ∧ ∃ version, o.u32 (m.version + 1) = .ok version ∧
      c = conflictName m.before version m.rest ∧ c ∉ names := by
  induction fuel with
  | zero => cases hrun
  | succ fuel ih =>
      cases hv : o.u32 (m.version + 1) with
      | error e =>
          rw [nextVersion, hv] at hrun
          cases hrun
      | ok version =>
          rw [nextVersion_succ h m hv] at hrun
          split at hrun
          · obtain ⟨hs, version', hv', hc⟩ := ih hrun
            exact ⟨hs, version', hv'.symm.trans hv ▸ ⟨rfl, hc⟩⟩
          · next hfree =>
              cases hrun
              exact ⟨rfl, version, rfl, rfl, hfree⟩

/-- One round of the loop over a name without a marker. -/
theorem firstVersion_succ (h : fs.Holds parent names name s) {text front back : List Char}
    (hsplit : splitExtension text = .ok (front, back)) (version : ℕ) :
    firstVersion fs o parent text (fuel + 1) version s =
      if conflictName front version back ∈ names then
        (do
          let version ← Exec.lift (o.u32 (version + 1))
          firstVersion fs o parent text fuel version) s
      else (.ok (conflictName front version back), s) := by
  rw [firstVersion, hsplit, Exec.lift_ok_bind]
  refine (Exec.bind_of_ok (h.isTaken _)).trans ?_
  by_cases hin : conflictName front version back ∈ names
  · simp [hin]
  · simp [hin]

theorem firstVersion_ok (h : fs.Holds parent names name s) {text front back : List Char}
    (hsplit : splitExtension text = .ok (front, back)) {version : ℕ} (hlt : version < 2 ^ 32)
    (hrun : firstVersion fs o parent text fuel version s = (.ok c, s')) :
    s' = s ∧ ∃ v < 2 ^ 32, c = conflictName front v back ∧ c ∉ names := by
  induction fuel generalizing version with
  | zero => cases hrun
  | succ fuel ih =>
      rw [firstVersion_succ h hsplit] at hrun
      split at hrun
      · obtain ⟨next, hnext, hrun⟩ := Exec.lift_bind_eq_ok hrun
        exact ih (Overflow.u32_lt hnext) hrun
      · next hfree =>
          cases hrun
          exact ⟨rfl, version, hlt, rfl, hfree⟩

/-- The loop stops at a free version, or before it. -/
theorem firstVersion_of_free (h : fs.Holds parent names name s) {text front back : List Char}
    (hsplit : splitExtension text = .ok (front, back)) {d version : ℕ}
    (hlt : version + d < 2 ^ 32) (hfree : conflictName front (version + d) back ∉ names) :
    ∃ c, firstVersion fs o parent text (d + 1) version s = (.ok c, s) := by
  induction d generalizing version with
  | zero => exact ⟨_, (firstVersion_succ h hsplit version).trans (if_neg hfree)⟩
  | succ d ih =>
      rw [firstVersion_succ h hsplit]
      split
      · rw [o.u32_of_lt (show version + 1 < 2 ^ 32 by omega), Exec.lift_ok_bind]
        exact ih (by omega) (by rwa [show version + 1 + d = version + (d + 1) by omega])
      · exact ⟨_, rfl⟩

/-! ## The new name -/

/-- A version that is not the marker's makes another name. -/
theorem ClosedMarker.conflictName_ne {before text rest : List Char}
    (h : ClosedMarker name.toList before text rest) {version : ℕ}
    (hv : o.u32 ((parseU32 text).getD 0 + 1) = .ok version) :
    conflictName before version rest ≠ name := by
  intro heq
  have hlist := congrArg String.toList heq
  rw [h.eq, conflictName, String.toList_ofList] at hlist
  have htext : Nat.toDigits 10 version = text :=
    List.append_cancel_right (List.append_cancel_left (List.append_cancel_left hlist))
  have hparse : parseU32 text = some version := htext ▸ parseU32_toDigits (Overflow.u32_lt hv)
  rw [hparse] at hv
  exact Overflow.u32_succ_ne hv rfl

/-- A name with a closing bracket is not one without. -/
theorem conflictName_ne_of_unclosed {before rest : List Char} {version : ℕ}
    (h : ']' ∉ name.toList) : conflictName before version rest ≠ name := by
  rintro rfl
  simp [conflictName] at h

/-- A name with a marker is not one without. -/
theorem conflictName_ne_of_unmarked {before rest : List Char} {version : ℕ}
    (h : ¬conflictMarker <:+: name.toList) : conflictName before version rest ≠ name := by
  rintro rfl
  rw [conflictName, String.toList_ofList] at h
  exact h ⟨before, _, by rw [List.append_assoc]⟩

/-- A first marker is closed, starts the name, or is neither. -/
theorem marker_cases {text : List Char} {cs : ℕ} (h : Utf8.find conflictMarker text = some cs) :
    (∃ before version rest, ClosedMarker text before version rest ∧ cs = len before) ∨
      ∃ before version, text = before ++ (conflictMarker ++ version) ∧ ']' ∉ version ∧
        cs = len before := by
  obtain ⟨before, tail, htext, hcs⟩ := Utf8.find_eq_some h
  by_cases hclose : ']' ∈ tail
  · obtain ⟨version, rest, rfl, hversion⟩ := List.eq_append_cons_of_mem hclose
    exact Or.inl ⟨before, version, rest, ⟨htext, hcs ▸ h, hversion⟩, hcs⟩
  · exact Or.inr ⟨before, tail, htext, hclose, hcs⟩

theorem newName_of_find {cs : ℕ} {m : Marked} (h : Utf8.find conflictMarker name.toList = some cs)
    (hm : readMarker name.toList cs = .ok m) :
    newName fs o fuel parent name = nextVersion fs o parent m fuel := by
  simp only [newName, h, hm]
  rfl

theorem newName_of_unmarked (h : Utf8.find conflictMarker name.toList = none) :
    newName fs o fuel parent name = firstVersion fs o parent name.toList fuel 0 := by
  simp only [newName, h]

/-- A name that is found is a fresh one. -/
theorem newName_ok (h : fs.Holds parent names name s)
    (hrun : newName fs o fuel parent name s = (.ok c, s')) :
    s' = s ∧ c ∉ names ∧ c ≠ name ∧ HasFreshName o names name.toList := by
  cases hfind : Utf8.find conflictMarker name.toList with
  | some cs =>
      rcases marker_cases hfind with ⟨before, text, rest, hclosed, rfl⟩ |
        ⟨before, text, htext, hopen, rfl⟩
      · rw [newName_of_find hfind hclosed.readMarker_eq] at hrun
        obtain ⟨hs, version, hv, rfl, hfree⟩ := nextVersion_ok h hrun
        exact ⟨hs, hfree, hclosed.conflictName_ne hv, .closed hclosed ⟨version, hv, hfree⟩⟩
      · have hread : readMarker (before ++ (conflictMarker ++ text)) (len before) =
            if before = [] then .ok ⟨[], (parseU32 text).getD 0, []⟩ else .error .panic :=
          readMarker_open hopen
        rw [← htext] at hread
        by_cases hbefore : before = []
        · subst hbefore
          rw [if_pos rfl] at hread
          rw [newName_of_find hfind hread] at hrun
          obtain ⟨hs, version, hv, rfl, hfree⟩ := nextVersion_ok h hrun
          refine ⟨hs, hfree, conflictName_ne_of_unclosed ?_, .atStart htext hopen ⟨version, hv, hfree⟩⟩
          simp [htext, close_not_mem_conflictMarker, hopen]
        · -- the slice behind a marker that is not closed panics
          rw [if_neg hbefore] at hread
          simp only [newName, hfind, hread] at hrun
          cases hrun
  | none =>
      obtain ⟨front, back, hsplit, -⟩ := exists_splitExtension name.toList
      have hnone := Utf8.find_eq_none hfind
      rw [newName_of_unmarked hfind] at hrun
      obtain ⟨hs, version, hlt, rfl, hfree⟩ := firstVersion_ok h hsplit (by norm_num) hrun
      exact ⟨hs, hfree, conflictName_ne_of_unmarked hnone, .unmarked hnone hsplit hlt hfree⟩

/-- A fresh name is found. -/
theorem newName_of_fresh (h : fs.Holds parent names name s)
    (hfresh : HasFreshName o names name.toList) :
    ∃ fuel c, newName fs o fuel parent name s = (.ok c, s) := by
  cases hfresh with
  | @closed before text rest hclosed hfree =>
      obtain ⟨version, hv, hfree⟩ := hfree
      refine ⟨1, conflictName before version rest, ?_⟩
      rw [newName_of_find hclosed.first hclosed.readMarker_eq, nextVersion_succ h _ hv,
        if_neg hfree]
  | atStart htext hopen hfree =>
      obtain ⟨version, hv, hfree⟩ := hfree
      have hread := @readMarker_open [] _ hopen
      rw [List.nil_append, ← htext, if_pos rfl] at hread
      have hfind : Utf8.find conflictMarker name.toList = some (len []) := by
        rw [htext, conflictMarker, List.cons_append, Utf8.find, if_pos ⟨_, rfl⟩]
        rfl
      refine ⟨1, conflictName [] version [], ?_⟩
      rw [newName_of_find hfind hread, nextVersion_succ h _ hv, if_neg hfree]
  | @unmarked front back hnone hsplit version hlt hfree =>
      have hfind : Utf8.find conflictMarker name.toList = none := by
        cases hfind : Utf8.find conflictMarker name.toList with
        | none => rfl
        | some cs =>
            obtain ⟨before, tail, heq, -⟩ := Utf8.find_eq_some hfind
            exact absurd ⟨before, tail, by rw [List.append_assoc]; exact heq.symm⟩ hnone
      rw [← Nat.zero_add version] at hlt hfree
      obtain ⟨c, hc⟩ := firstVersion_of_free (o := o) h hsplit hlt hfree
      exact ⟨version + 1, c, by rw [newName_of_unmarked hfind, hc]⟩

/-! ## The rename -/

/-- A rename that gets a name moves the file there. -/
theorem renameOnConflict_run (h : fs.Holds parent names name s) {state : FileState}
    (hpath : state.relPath = parent ++ [name]) (hc : newName fs o fuel parent name s = (.ok c, s))
    (hfree : c ∉ names) :
    ∃ state' s', renameOnConflict fs o fuel (parent ++ [name]) state s = (.ok state', s') ∧
      state'.relPath = parent ++ [c] := by
  obtain ⟨s₁, hmove, htime⟩ := h.moveTo c hfree
  have htime' : ∃ t s₂,
      unwrapOr (fs.getLastModified (parent ++ [c])) state.modificationTime s₁ = (.ok t, s₂) := by
    rcases htime with ⟨t, s₂, ht⟩ | ⟨e, s₂, he⟩
    · exact ⟨t, s₂, unwrapOr_of_ok ht⟩
    · exact ⟨_, s₂, unwrapOr_of_err he⟩
  obtain ⟨t, s₂, ht⟩ := htime'
  refine ⟨⟨parent ++ [c], t, state.size, state.hash, state.chunkSize⟩, s₂, ?_, rfl⟩
  unfold renameOnConflict
  simp only [List.getLast?_concat, List.dropLast_concat]
  rw [Exec.bind_of_ok hc, Exec.bind_of_ok hmove, Exec.bind_of_ok ht, hpath]
  simp

theorem renameOnConflict_of_error {state : FileState} {e : Fault}
    (h : newName fs o fuel parent name s = (.error e, s')) :
    renameOnConflict fs o fuel (parent ++ [name]) state s = (.error e, s') := by
  unfold renameOnConflict
  simp only [List.getLast?_concat, List.dropLast_concat]
  rw [Exec.bind_of_error h]

/-- `rename_on_conflict` moves a file to a free sibling exactly if its name has one it asks for. -/
theorem renameOnConflict_fresh_iff (h : fs.Holds parent names name s) {state : FileState}
    (hpath : state.relPath = parent ++ [name]) :
    (∃ fuel state' s' c, renameOnConflict fs o fuel (parent ++ [name]) state s = (.ok state', s') ∧
      state'.relPath = parent ++ [c] ∧ c ∉ names ∧ c ≠ name) ↔
      HasFreshName o names name.toList := by
  constructor
  · rintro ⟨fuel, state', s', -, hrun, -⟩
    unfold renameOnConflict at hrun
    simp only [List.getLast?_concat, List.dropLast_concat] at hrun
    obtain ⟨c, s₁, hname, -⟩ := Exec.bind_eq_ok hrun
    exact (newName_ok h hname).2.2.2
  · intro hfresh
    obtain ⟨fuel, c, hc⟩ := newName_of_fresh h hfresh
    obtain ⟨-, hfree, hne, -⟩ := newName_ok h hc
    obtain ⟨state', s', hrun, hrel⟩ := renameOnConflict_run h hpath hc hfree
    exact ⟨fuel, state', s', c, hrun, hrel, hfree, hne⟩

end Free

/-! ## A directory in memory -/

/-- A directory with these names, where every move succeeds. -/
def memoryDirectory : SyncFilesystem (Finset String) where
  fileExists p := Exec.reads fun names => p.getLast?.any (· ∈ names)
  moveTo src target := Exec.update fun names =>
    (src.getLast?.elim names names.erase) ∪ target.getLast?.toFinset
  getLastModified _ := pure 0

theorem memoryDirectory_holds (parent : SyncPath) (names : Finset String) (name : String) :
    memoryDirectory.Holds parent names name names where
  fileExists n := by
    change (Except.ok ((parent ++ [n]).getLast?.any fun m => decide (m ∈ names)), names) = _
    simp
  moveTo n _ := ⟨_, rfl, Or.inl ⟨0, _, rfl⟩⟩

/-- A file of a synced directory. -/
def stateOf (name : String) : FileState := ⟨[name], 0, 0, [], legacyChunkSize⟩

/-- A conflicting copy of `notes.txt`, beside it. -/
def twoNotes : Finset String := {"notes.txt", "notes[conflict-0].txt"}

theorem closed_notes :
    ClosedMarker "notes[conflict-0].txt".toList "notes".toList "0".toList ".txt".toList :=
  ⟨by decide, by decide, by decide⟩

/-- The copy conflicts in turn. -/
theorem renameOnConflict_fresh_iff_notes :
    ∃ fuel state' s' c, renameOnConflict memoryDirectory .checked fuel
        ([] ++ ["notes[conflict-0].txt"]) (stateOf "notes[conflict-0].txt") twoNotes =
          (.ok state', s') ∧
      state'.relPath = [] ++ [c] ∧ c ∉ twoNotes ∧ c ≠ "notes[conflict-0].txt" :=
  (renameOnConflict_fresh_iff (memoryDirectory_holds [] twoNotes "notes[conflict-0].txt") rfl).2
    (.closed closed_notes ⟨1, by decide, by decide⟩)

example : (renameOnConflict memoryDirectory .checked 1 ([] ++ ["notes[conflict-0].txt"])
    (stateOf "notes[conflict-0].txt") twoNotes).1.toOption.map FileState.relPath =
      some ["notes[conflict-1].txt"] := by
  decide +kernel

/-- With the next version taken, a name that has a marker is asked for without end; and behind a
marker that is not closed there is nothing to slice. -/
theorem renameOnConflict_stuck :
    (∀ fuel, (renameOnConflict memoryDirectory .checked fuel ([] ++ ["a[conflict-0]"])
        (stateOf "a[conflict-0]") {"a[conflict-0]", "a[conflict-1]"}).1 = .error .fuel) ∧
      ∀ fuel, (renameOnConflict memoryDirectory .checked fuel ([] ++ ["a[conflict-0"])
        (stateOf "a[conflict-0") {"a[conflict-0"}).1 = .error .panic := by
  constructor
  · intro fuel
    have hname : newName memoryDirectory .checked fuel [] "a[conflict-0]" =
        nextVersion memoryDirectory .checked [] ⟨['a'], 0, []⟩ fuel :=
      newName_of_find (show Utf8.find conflictMarker _ = some 1 by decide) (by decide)
    have hloop : nextVersion memoryDirectory .checked [] ⟨['a'], 0, []⟩ fuel
        {"a[conflict-0]", "a[conflict-1]"} =
          (.error .fuel, {"a[conflict-0]", "a[conflict-1]"}) := by
      induction fuel with
      | zero => rfl
      | succ fuel ih =>
          rw [nextVersion_succ (memoryDirectory_holds [] _ "a[conflict-0]") _
            (show Overflow.checked.u32 (0 + 1) = .ok 1 from rfl), if_pos (by decide)]
          exact ih rfl
    rw [renameOnConflict_of_error ((congrFun hname _).trans hloop)]
  · intro fuel
    have hname : newName memoryDirectory .checked fuel [] "a[conflict-0" {"a[conflict-0"} =
        (.error .panic, {"a[conflict-0"}) := by
      have hfind : Utf8.find conflictMarker "a[conflict-0".toList = some 1 := by decide
      have hread : readMarker "a[conflict-0".toList 1 = .error .panic := by decide
      simp only [newName, hfind, hread]
      rfl
    rw [renameOnConflict_of_error hname]

end Peergos
