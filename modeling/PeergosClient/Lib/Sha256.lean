import Mathlib

/-!
# SHA-256

The hash of FIPS 180-4, computable, for evaluating content addresses on concrete blocks.  Nothing
is assumed or proved about it beyond the length of a digest.
-/

namespace Sha256

/-- The round constants. -/
def roundConstants : List UInt32 := [
  0x428a2f98, 0x71374491, 0xb5c0fbcf, 0xe9b5dba5, 0x3956c25b, 0x59f111f1, 0x923f82a4, 0xab1c5ed5,
  0xd807aa98, 0x12835b01, 0x243185be, 0x550c7dc3, 0x72be5d74, 0x80deb1fe, 0x9bdc06a7, 0xc19bf174,
  0xe49b69c1, 0xefbe4786, 0x0fc19dc6, 0x240ca1cc, 0x2de92c6f, 0x4a7484aa, 0x5cb0a9dc, 0x76f988da,
  0x983e5152, 0xa831c66d, 0xb00327c8, 0xbf597fc7, 0xc6e00bf3, 0xd5a79147, 0x06ca6351, 0x14292967,
  0x27b70a85, 0x2e1b2138, 0x4d2c6dfc, 0x53380d13, 0x650a7354, 0x766a0abb, 0x81c2c92e, 0x92722c85,
  0xa2bfe8a1, 0xa81a664b, 0xc24b8b70, 0xc76c51a3, 0xd192e819, 0xd6990624, 0xf40e3585, 0x106aa070,
  0x19a4c116, 0x1e376c08, 0x2748774c, 0x34b0bcb5, 0x391c0cb3, 0x4ed8aa4a, 0x5b9cca4f, 0x682e6ff3,
  0x748f82ee, 0x78a5636f, 0x84c87814, 0x8cc70208, 0x90befffa, 0xa4506ceb, 0xbef9a3f7, 0xc67178f2]

/-- Rotate right. -/
def rotr (x n : UInt32) : UInt32 := (x >>> n) ||| (x <<< (32 - n))

/-- The message schedule: `ws`, newest first, extended by `n` words. -/
def schedule : ℕ → List UInt32 → List UInt32
  | 0, ws => ws.reverse
  | n + 1, ws =>
      let w15 := ws.getD 14 0
      let w2 := ws.getD 1 0
      let s0 := rotr w15 7 ^^^ rotr w15 18 ^^^ (w15 >>> 3)
      let s1 := rotr w2 17 ^^^ rotr w2 19 ^^^ (w2 >>> 10)
      schedule n ((ws.getD 15 0 + s0 + ws.getD 6 0 + s1) :: ws)

/-- The eight working variables. -/
structure State where
  (a b c d e f g h : UInt32)

/-- One round, on a constant and a schedule word. -/
def State.round (st : State) (kw : UInt32 × UInt32) : State :=
  let s1 := rotr st.e 6 ^^^ rotr st.e 11 ^^^ rotr st.e 25
  let ch := (st.e &&& st.f) ^^^ (~~~st.e &&& st.g)
  let t1 := st.h + s1 + ch + kw.1 + kw.2
  let s0 := rotr st.a 2 ^^^ rotr st.a 13 ^^^ rotr st.a 22
  let maj := (st.a &&& st.b) ^^^ (st.a &&& st.c) ^^^ (st.b &&& st.c)
  ⟨t1 + s0 + maj, st.a, st.b, st.c, st.d + t1, st.e, st.f, st.g⟩

/-- Addition, variable by variable. -/
def State.add (x y : State) : State :=
  ⟨x.a + y.a, x.b + y.b, x.c + y.c, x.d + y.d, x.e + y.e, x.f + y.f, x.g + y.g, x.h + y.h⟩

/-- A big-endian word. -/
def word (b : List UInt8) : UInt32 := b.foldl (fun acc x => acc <<< 8 ||| x.toUInt32) 0

/-- The first `n` words of a block. -/
def words : ℕ → List UInt8 → List UInt32
  | 0, _ => []
  | n + 1, bs => word (bs.take 4) :: words n (bs.drop 4)

/-- The compression of one block. -/
def block (st : State) (bs : List UInt8) : State :=
  st.add ((roundConstants.zip (schedule 48 (words 16 bs).reverse)).foldl State.round st)

/-- Pad to a multiple of 64 bytes, with the length in bits at the end. -/
def pad (msg : List UInt8) : List UInt8 :=
  let n := msg.length
  let zeros := (119 - n % 64) % 64
  msg ++ (0x80 :: List.replicate zeros 0) ++
    (List.range 8).map fun i => UInt8.ofNat (n * 8 / 2 ^ (8 * (7 - i)))

/-- The compression of `n` blocks. -/
def blocks : ℕ → State → List UInt8 → State
  | 0, st, _ => st
  | n + 1, st, bs => blocks n (block st (bs.take 64)) (bs.drop 64)

/-- The bytes of a word, big-endian. -/
def wordBytes (w : UInt32) : List UInt8 :=
  [(w >>> 24).toUInt8, (w >>> 16).toUInt8, (w >>> 8).toUInt8, w.toUInt8]

/-- The initial hash value. -/
def initial : State :=
  ⟨0x6a09e667, 0xbb67ae85, 0x3c6ef372, 0xa54ff53a, 0x510e527f, 0x9b05688c, 0x1f83d9ab, 0x5be0cd19⟩

/-- The digest of a message. -/
def sha256 (msg : List UInt8) : List UInt8 :=
  let p := pad msg
  let st := blocks (p.length / 64) initial p
  wordBytes st.a ++ wordBytes st.b ++ wordBytes st.c ++ wordBytes st.d ++
    wordBytes st.e ++ wordBytes st.f ++ wordBytes st.g ++ wordBytes st.h

theorem length_sha256 (msg : List UInt8) : (sha256 msg).length = 32 := by
  simp [sha256, wordBytes]

example : (sha256 [97, 98, 99]).take 4 = [0xba, 0x78, 0x16, 0xbf] := by decide +kernel

end Sha256
