import PeergosClient.Lib.LeftComplete

/-!
# BLAKE3

The hash of an input is the left-complete tree over the values of its chunks of 1024 bytes, in which
only the topmost node is made a root.  So an input that is cut into aligned subtrees, each of a
power of two of chunks, has the hash that the values of these pieces have (`mergeRoot_pieces`).
This holds whatever the values of chunks and nodes are.

The compression function is computable, for evaluating the hash on concrete inputs.
-/

namespace Blake3

open LeftComplete Chunks

/-! ## The tree -/

section Tree

variable {α : Type*} (leaf : List UInt8 → ℕ → α) (node root : α → α → α)

/-- The values of the chunks of an input that starts at chunk `start`. -/
def leaves (start : ℕ) (input : List UInt8) : List α :=
  (input.toChunks 1024).mapIdx fun i chunk => leaf chunk (start + i)

/-- The value of an input that starts at chunk `start`, inside a larger one. -/
def subtree (start : ℕ) (input : List UInt8) : Option α := merge node (leaves leaf start input)

/-- The hash of an input of more than one chunk. -/
def treeRoot (input : List UInt8) : Option α := mergeRoot node root (leaves leaf 0 input)

/-- The values of the pieces of an input, `2 ^ j` chunks each but the last. -/
def pieces (j start : ℕ) (input : List UInt8) : List (Option α) :=
  (input.toChunks (2 ^ j * 1024)).mapIdx fun i piece => subtree leaf node (start + i * 2 ^ j) piece

variable {leaf node root} {j start : ℕ} {input : List UInt8}

@[simp] theorem leaves_nil : leaves leaf start [] = [] := by
  simp [leaves]

@[simp] theorem length_leaves :
    (leaves leaf start input).length = (input.length + 1024 - 1) / 1024 := by
  rw [leaves, List.length_mapIdx, length_toChunks (by norm_num)]

/-- The chunks of a piece and of what follows it. -/
theorem leaves_append {front rest : List UInt8} {m : ℕ} (h : front.length = m * 1024) :
    leaves leaf start (front ++ rest) =
      leaves leaf start front ++ leaves leaf (start + m) rest := by
  have htake := take_toChunks (show 0 < 1024 by norm_num) m (front ++ rest)
  have hdrop := drop_toChunks (show 0 < 1024 by norm_num) m (front ++ rest)
  rw [← h, List.take_left] at htake
  rw [← h, List.drop_left] at hdrop
  have hlen : (front.toChunks 1024).length = m := by
    rw [length_toChunks (by norm_num), h]
    omega
  rw [leaves, ← List.take_append_drop m ((front ++ rest).toChunks 1024), htake, hdrop,
    List.mapIdx_append, hlen]
  simp only [leaves, Nat.add_assoc, Nat.add_comm m]

/-- The groups of `2 ^ j` leaves are the leaves of the pieces. -/
theorem leaves_toChunks :
    (leaves leaf start input).toChunks (2 ^ j) = (input.toChunks (2 ^ j * 1024)).mapIdx
      fun i piece => leaves leaf (start + i * 2 ^ j) piece := by
  have hj : 0 < 2 ^ j := Nat.two_pow_pos j
  have hsize : 0 < 2 ^ j * 1024 := by positivity
  induction hlen : input.length using Nat.strong_induction_on generalizing start input with
  | _ n ih =>
      by_cases hnil : input = []
      · subst hnil
        simp
      have hpos := List.length_pos_of_ne_nil hnil
      have hne : leaves leaf start input ≠ [] := by
        rw [← List.length_pos_iff, length_leaves]
        omega
      by_cases hshort : input.length ≤ 2 ^ j * 1024
      · have hle : (leaves leaf start input).length ≤ 2 ^ j := by
          rw [length_leaves]
          omega
        rw [toChunks_of_length_le hnil hshort, toChunks_of_length_le hne hle]
        simp
      · -- the first group is the first piece
        have hfront : (input.take (2 ^ j * 1024)).length = 2 ^ j * 1024 := by
          rw [List.length_take]
          omega
        have hsplit : leaves leaf start (input.take (2 ^ j * 1024) ++ input.drop (2 ^ j * 1024)) = _ :=
          leaves_append hfront
        rw [List.take_append_drop] at hsplit
        have hgroup : (leaves leaf start (input.take (2 ^ j * 1024))).length = 2 ^ j := by
          rw [length_leaves, hfront]
          omega
        rw [toChunks_eq_cons hj hne, toChunks_eq_cons hsize hnil, List.mapIdx_cons, hsplit,
          List.take_left' hgroup, List.drop_left' hgroup,
          ih _ (by rw [List.length_drop]; omega) rfl, Nat.zero_mul, Nat.add_zero]
        congr 2
        funext i piece
        rw [Nat.succ_mul, Nat.add_comm (i * 2 ^ j), Nat.add_assoc]

/-- The values of the pieces are those of the groups of leaves. -/
theorem pieces_eq : pieces leaf node j start input =
    ((leaves leaf start input).toChunks (2 ^ j)).map (merge node) := by
  rw [leaves_toChunks, pieces]
  refine List.ext_getElem (by simp) fun i hi hi' => ?_
  simp [subtree]

/-- The values of more than one piece have the hash of the input. -/
theorem mergeRoot_pieces {values : List α} (hlong : 2 ^ j * 1024 < input.length)
    (h : pieces leaf node j 0 input = values.map some) :
    mergeRoot node root values = treeRoot leaf node root input := by
  refine mergeRoot_groups ?_ (pieces_eq.symm.trans h)
  rw [length_leaves, Nat.lt_div_iff_mul_lt (by norm_num)]
  omega

/-- Every piece has a value. -/
theorem exists_pieces (leaf : List UInt8 → ℕ → α) (node : α → α → α) (j start : ℕ)
    (input : List UInt8) :
    ∃ values : List α, pieces leaf node j start input = values.map some := by
  obtain ⟨values, h⟩ := exists_groupsOf node j (leaves leaf start input)
  exact ⟨values, pieces_eq.trans h⟩

end Tree

/-! ## The values -/

/-- The initial chaining value. -/
def initial : List UInt32 :=
  [0x6a09e667, 0xbb67ae85, 0x3c6ef372, 0xa54ff53a, 0x510e527f, 0x9b05688c, 0x1f83d9ab, 0x5be0cd19]

/-- Rotate right. -/
def rotr (n x : UInt32) : UInt32 := (x >>> n) ||| (x <<< (32 - n))

/-- The state of a compression, row by row. -/
structure Rows where
  (a b c d : List UInt32)

/-- Mix the columns with two message words each. -/
def Rows.mix (s : Rows) (x y : List UInt32) : Rows :=
  let a := List.zipWith (· + ·) (List.zipWith (· + ·) s.a s.b) x
  let d := (List.zipWith (· ^^^ ·) s.d a).map (rotr 16)
  let c := List.zipWith (· + ·) s.c d
  let b := (List.zipWith (· ^^^ ·) s.b c).map (rotr 12)
  let a := List.zipWith (· + ·) (List.zipWith (· + ·) a b) y
  let d := (List.zipWith (· ^^^ ·) d a).map (rotr 8)
  let c := List.zipWith (· + ·) c d
  ⟨a, (List.zipWith (· ^^^ ·) b c).map (rotr 7), c, d⟩

/-- The first of every two words, and the second. -/
def unzip2 : List UInt32 → List UInt32 × List UInt32
  | x :: y :: rest => (x :: (unzip2 rest).1, y :: (unzip2 rest).2)
  | _ => ([], [])

/-- One round: the columns, then the diagonals. -/
def Rows.round (s : Rows) (message : List UInt32) : Rows :=
  let columns := unzip2 (message.take 8)
  let diagonals := unzip2 (message.drop 8)
  let s := s.mix columns.1 columns.2
  let s := (Rows.mk s.a (s.b.rotateLeft 1) (s.c.rotateLeft 2) (s.d.rotateLeft 3)).mix
    diagonals.1 diagonals.2
  ⟨s.a, s.b.rotateLeft 3, s.c.rotateLeft 2, s.d.rotateLeft 1⟩

/-- The order of the message words in the next round. -/
def permute (message : List UInt32) : List UInt32 :=
  [2, 6, 3, 10, 7, 0, 4, 13, 1, 11, 12, 5, 9, 14, 15, 8].map fun i => message.getD i 0

/-- A number of rounds. -/
def rounds : ℕ → Rows → List UInt32 → Rows
  | 0, s, _ => s
  | n + 1, s, message => rounds n (s.round message) (permute message)

/-- The compression of one block of 64 bytes. -/
def compress (cv message : List UInt32) (counter : ℕ) (length flags : UInt32) : List UInt32 :=
  let s := rounds 7 ⟨cv.take 4, cv.drop 4, initial.take 4,
    [UInt32.ofNat counter, UInt32.ofNat (counter / 2 ^ 32), length, flags]⟩ message
  List.zipWith (· ^^^ ·) (s.a ++ s.b) (s.c ++ s.d)

/-- A little-endian word. -/
def word (b : List UInt8) : UInt32 := b.foldr (fun x acc => acc <<< 8 ||| x.toUInt32) 0

/-- The first `n` words of a block. -/
def words : ℕ → List UInt8 → List UInt32
  | 0, _ => []
  | n + 1, bs => word (bs.take 4) :: words n (bs.drop 4)

/-- The bytes of a word, little-endian. -/
def wordBytes (w : UInt32) : List UInt8 :=
  [w.toUInt8, (w >>> 8).toUInt8, (w >>> 16).toUInt8, (w >>> 24).toUInt8]

/-- The bytes of a value. -/
abbrev Digest := {b : List UInt8 // b.length = 32}

theorem length_wordsBytes (cv : List UInt32) :
    ((List.range 8).flatMap fun i => wordBytes (cv.getD i 0)).length = 32 := by
  simp [List.range_succ, wordBytes]

/-- The bytes of eight words. -/
def digest (cv : List UInt32) : Digest :=
  ⟨(List.range 8).flatMap fun i => wordBytes (cv.getD i 0), length_wordsBytes cv⟩

/-- The compression of the `n` blocks of a chunk, with flags for the first and for the last. -/
def blocks : ℕ → List UInt32 → ℕ → UInt32 → UInt32 → List UInt8 → List UInt32
  | 0, cv, _, _, _, _ => cv
  | n + 1, cv, counter, first, last, bs =>
      let block := bs.take 64
      let flags := if n = 0 then first ||| last else first
      blocks n (compress cv (words 16 block) counter (UInt32.ofNat block.length) flags) counter 0
        last (bs.drop 64)

/-- The flag of a root. -/
def rootFlag (isRoot : Bool) : UInt32 := if isRoot then 8 else 0

/-- The value of a chunk. -/
def chunkValue (isRoot : Bool) (chunk : List UInt8) (counter : ℕ) : Digest :=
  digest (blocks (max 1 ((chunk.length + 63) / 64)) initial counter 1 (2 ||| rootFlag isRoot) chunk)

/-- The value of a node over the values of its two parts. -/
def parentValue (isRoot : Bool) (left right : Digest) : Digest :=
  digest (compress initial (words 16 (left.1 ++ right.1)) 0 64 (4 ||| rootFlag isRoot))

/-- The hash of an input. -/
def hash (input : List UInt8) : Digest :=
  (treeRoot (chunkValue false) (parentValue false) (parentValue true) input).getD
    (chunkValue true input 0)

example : (hash []).1.take 4 = [0xaf, 0x13, 0x49, 0xb9] := by decide +kernel

end Blake3
