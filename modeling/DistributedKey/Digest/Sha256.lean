/-
SHA-256 over byte strings.

- `padded` closes a message with a one bit, zeros and its bit length, up to whole blocks of 64 bytes.
- `schedule` extends the 16 words of a block to 64 by the recurrence of the standard.
- `compress` runs the 64 rounds on the chaining state and adds the state it started from.
-/
import DistributedKey.Bytes

namespace DistributedKey.Sha256

/-- the eight chaining words -/
structure State where
  a : UInt32
  b : UInt32
  c : UInt32
  d : UInt32
  e : UInt32
  f : UInt32
  g : UInt32
  h : UInt32

/-- first 32 bits of the fractional parts of the square roots of the first eight primes -/
def initial : State :=
  ⟨0x6a09e667, 0xbb67ae85, 0x3c6ef372, 0xa54ff53a, 0x510e527f, 0x9b05688c, 0x1f83d9ab, 0x5be0cd19⟩

/-- first 32 bits of the fractional parts of the cube roots of the first 64 primes -/
def constants : List UInt32 :=
  [0x428a2f98, 0x71374491, 0xb5c0fbcf, 0xe9b5dba5, 0x3956c25b, 0x59f111f1, 0x923f82a4, 0xab1c5ed5,
   0xd807aa98, 0x12835b01, 0x243185be, 0x550c7dc3, 0x72be5d74, 0x80deb1fe, 0x9bdc06a7, 0xc19bf174,
   0xe49b69c1, 0xefbe4786, 0x0fc19dc6, 0x240ca1cc, 0x2de92c6f, 0x4a7484aa, 0x5cb0a9dc, 0x76f988da,
   0x983e5152, 0xa831c66d, 0xb00327c8, 0xbf597fc7, 0xc6e00bf3, 0xd5a79147, 0x06ca6351, 0x14292967,
   0x27b70a85, 0x2e1b2138, 0x4d2c6dfc, 0x53380d13, 0x650a7354, 0x766a0abb, 0x81c2c92e, 0x92722c85,
   0xa2bfe8a1, 0xa81a664b, 0xc24b8b70, 0xc76c51a3, 0xd192e819, 0xd6990624, 0xf40e3585, 0x106aa070,
   0x19a4c116, 0x1e376c08, 0x2748774c, 0x34b0bcb5, 0x391c0cb3, 0x4ed8aa4a, 0x5b9cca4f, 0x682e6ff3,
   0x748f82ee, 0x78a5636f, 0x84c87814, 0x8cc70208, 0x90befffa, 0xa4506ceb, 0xbef9a3f7, 0xc67178f2]

def rotr (x : UInt32) (n : UInt32) : UInt32 := (x >>> n) ||| (x <<< (32 - n))

/-- a word from four bytes, most significant first -/
def word (bs : Bytes) : UInt32 := UInt32.ofNat (Bytes.toNatBE bs)

/-- the message, a one bit, zeros, and the length in bits as eight bytes -/
def padded (msg : Bytes) : Bytes :=
  msg ++ (0x80 : UInt8) :: Bytes.padding 64 (msg.length + 9) ++ Bytes.ofNatBE 8 (8 * msg.length)

/-- the next schedule word from the sixteen latest ones, newest first -/
def nextWord : List UInt32 → UInt32
  | w => match w[1]?, w[6]?, w[14]?, w[15]? with
    | some w2, some w7, some w15, some w16 =>
      (rotr w2 17 ^^^ rotr w2 19 ^^^ (w2 >>> 10)) + w7 + (rotr w15 7 ^^^ rotr w15 18 ^^^ (w15 >>> 3)) + w16
    | _, _, _, _ => 0

/-- `count` more words in front of the ones there are, newest first -/
def extend : (count : Nat) → List UInt32 → List UInt32
  | 0, ws => ws
  | count + 1, ws => extend count (nextWord ws :: ws)

def schedule (block : Bytes) : List UInt32 :=
  (extend 48 ((Bytes.blocks 4 block).map word).reverse).reverse

def round (s : State) (k w : UInt32) : State :=
  let t1 := s.h + (rotr s.e 6 ^^^ rotr s.e 11 ^^^ rotr s.e 25)
    + ((s.e &&& s.f) ^^^ (~~~s.e &&& s.g)) + k + w
  let t2 := (rotr s.a 2 ^^^ rotr s.a 13 ^^^ rotr s.a 22)
    + ((s.a &&& s.b) ^^^ (s.a &&& s.c) ^^^ (s.b &&& s.c))
  ⟨t1 + t2, s.a, s.b, s.c, s.d + t1, s.e, s.f, s.g⟩

def compress (s : State) (block : Bytes) : State :=
  let t := (constants.zip (schedule block)).foldl (fun s kw => round s kw.1 kw.2) s
  ⟨s.a + t.a, s.b + t.b, s.c + t.c, s.d + t.d, s.e + t.e, s.f + t.f, s.g + t.g, s.h + t.h⟩

def State.toBytes (s : State) : Bytes :=
  [s.a, s.b, s.c, s.d, s.e, s.f, s.g, s.h].flatMap fun w => Bytes.ofNatBE 4 w.toNat

/-- the 32-byte digest of a message -/
def digest (msg : Bytes) : Bytes :=
  ((Bytes.blocks 64 (padded msg)).foldl compress initial).toBytes

@[simp] theorem length_digest (msg : Bytes) : (digest msg).length = 32 := by
  simp [digest, State.toBytes, Bytes.ofNatBE]

end DistributedKey.Sha256
