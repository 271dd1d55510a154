import IeumChain.Lib.Bytes

/-!
# SHA-256

The hash function of FIPS 180-4 over byte strings, in an executable form: words are natural numbers
below `2 ^ 32`, so that a digest of a concrete message is computed by evaluation.

* `pad` and `words`, the message as 32-bit words, a multiple of 16 of them;
* `schedule`, the 64 words of a block, and `round`, one step of the compression;
* `hash`, the digest, 32 bytes (`length_hash`).
-/

namespace Lib

namespace Sha256

/-! ## Words -/

/-- Addition of words. -/
def add (x y : ℕ) : ℕ := (x + y) % 4294967296

/-- Rotation to the right by `n`. -/
def rotr (n x : ℕ) : ℕ := (x >>> n) ||| ((x <<< (32 - n)) % 4294967296)

/-- The functions `Σ` of the compression: the sum of three rotations. -/
def bigSigma (i j k x : ℕ) : ℕ := rotr i x ^^^ rotr j x ^^^ rotr k x

/-- The functions `σ` of the schedule: two rotations and a shift. -/
def smallSigma (i j k x : ℕ) : ℕ := rotr i x ^^^ rotr j x ^^^ (x >>> k)

/-- The bits of `y` where `x` has a one and of `z` elsewhere. -/
def choose (x y z : ℕ) : ℕ := (x &&& y) ^^^ ((4294967295 - x) &&& z)

/-- The bits two of the three words have. -/
def majority (x y z : ℕ) : ℕ := (x &&& y) ^^^ (x &&& z) ^^^ (y &&& z)

/-- The round constants. -/
def constants : List ℕ :=
  [0x428a2f98, 0x71374491, 0xb5c0fbcf, 0xe9b5dba5, 0x3956c25b, 0x59f111f1, 0x923f82a4, 0xab1c5ed5,
   0xd807aa98, 0x12835b01, 0x243185be, 0x550c7dc3, 0x72be5d74, 0x80deb1fe, 0x9bdc06a7, 0xc19bf174,
   0xe49b69c1, 0xefbe4786, 0x0fc19dc6, 0x240ca1cc, 0x2de92c6f, 0x4a7484aa, 0x5cb0a9dc, 0x76f988da,
   0x983e5152, 0xa831c66d, 0xb00327c8, 0xbf597fc7, 0xc6e00bf3, 0xd5a79147, 0x06ca6351, 0x14292967,
   0x27b70a85, 0x2e1b2138, 0x4d2c6dfc, 0x53380d13, 0x650a7354, 0x766a0abb, 0x81c2c92e, 0x92722c85,
   0xa2bfe8a1, 0xa81a664b, 0xc24b8b70, 0xc76c51a3, 0xd192e819, 0xd6990624, 0xf40e3585, 0x106aa070,
   0x19a4c116, 0x1e376c08, 0x2748774c, 0x34b0bcb5, 0x391c0cb3, 0x4ed8aa4a, 0x5b9cca4f, 0x682e6ff3,
   0x748f82ee, 0x78a5636f, 0x84c87814, 0x8cc70208, 0x90befffa, 0xa4506ceb, 0xbef9a3f7, 0xc67178f2]

/-! ## The message -/

/-- The message, a one bit, zeros, and the length in bits. -/
def pad (message : Bytes) : Bytes :=
  message ++ 0x80 :: List.replicate ((119 - message.length % 64) % 64) 0 ++
    beBytes 8 (8 * message.length)

/-- Four bytes a word. -/
def words : Bytes → List ℕ
  | a :: b :: c :: d :: rest =>
    (((a.toNat * 256 + b.toNat) * 256 + c.toNat) * 256 + d.toNat) :: words rest
  | _ => []

/-- The words of a block and those the schedule adds, with the last sixteen at hand. -/
def schedule : ℕ → List ℕ → List ℕ
  | 0, ws => ws
  | n + 1, ws =>
    match ws with
    | [w₀, w₁, w₂, w₃, w₄, w₅, w₆, w₇, w₈, w₉, w₁₀, w₁₁, w₁₂, w₁₃, w₁₄, w₁₅] =>
      let next := (w₀ + smallSigma 7 18 3 w₁ + w₉ + smallSigma 17 19 10 w₁₄) % 4294967296
      w₀ :: schedule n [w₁, w₂, w₃, w₄, w₅, w₆, w₇, w₈, w₉, w₁₀, w₁₁, w₁₂, w₁₃, w₁₄, w₁₅, next]
    | ws => ws

/-! ## The compression -/

/-- The eight working words. -/
structure State where
  a : ℕ
  b : ℕ
  c : ℕ
  d : ℕ
  e : ℕ
  f : ℕ
  g : ℕ
  h : ℕ

/-- The state before the first block. -/
def initial : State :=
  ⟨0x6a09e667, 0xbb67ae85, 0x3c6ef372, 0xa54ff53a, 0x510e527f, 0x9b05688c, 0x1f83d9ab, 0x5be0cd19⟩

/-- One round, with the sum of its constant and its word. -/
def round (s : State) (kw : ℕ) : State :=
  let t := s.h + bigSigma 6 11 25 s.e + choose s.e s.f s.g + kw
  ⟨(t + bigSigma 2 13 22 s.a + majority s.a s.b s.c) % 4294967296, s.a, s.b, s.c,
    add s.d t, s.e, s.f, s.g⟩

/-- The rounds of one block. -/
def rounds : List ℕ → List ℕ → State → State
  | k :: ks, w :: ws, s => rounds ks ws (round s (k + w))
  | _, _, s => s

/-- The state after a block. -/
def compress (s : State) (block : List ℕ) : State :=
  let t := rounds constants (schedule 48 block) s
  ⟨add s.a t.a, add s.b t.b, add s.c t.c, add s.d t.d, add s.e t.e, add s.f t.f, add s.g t.g,
    add s.h t.h⟩

/-- The state after `n` blocks. -/
def absorb : ℕ → State → List ℕ → State
  | 0, s, _ => s
  | n + 1, s, ws => absorb n (compress s (ws.take 16)) (ws.drop 16)

/-- The digest of a message. -/
def hash (message : Bytes) : Bytes :=
  let ws := words (pad message)
  let s := absorb (ws.length / 16) initial ws
  [s.a, s.b, s.c, s.d, s.e, s.f, s.g, s.h].flatMap (beBytes 4)

lemma length_hash (message : Bytes) : (hash message).length = 32 := by
  simp [hash]

example : hexEncode (hash (textBytes "abc"))
    = "ba7816bf8f01cfea414140de5dae2223b00361a396177a9cb410ff61f20015ad" := by
  decide +kernel

end Sha256

end Lib
