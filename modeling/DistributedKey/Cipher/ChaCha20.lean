/-
The ChaCha20 block function and stream cipher.

The last four words of a block's start are its position. A stream cipher reads them as a 32-bit counter and a
96-bit nonce (`keystream`), a generator as a 64-bit counter and a stream number.
-/
import DistributedKey.Bytes

namespace DistributedKey.ChaCha20

abbrev Block := Vector UInt32 16
abbrev Key := Vector UInt32 8

def rotl (x n : UInt32) : UInt32 := (x <<< n) ||| (x >>> (32 - n))

def quarterRound (s : Block) (i j k l : Fin 16) : Block :=
  let a := s[i] + s[j]
  let d := rotl (s[l] ^^^ a) 16
  let c := s[k] + d
  let b := rotl (s[j] ^^^ c) 12
  let a := a + b
  let d := rotl (d ^^^ a) 8
  let c := c + d
  let b := rotl (b ^^^ c) 7
  (((s.set i a).set j b).set k c).set l d

/-- a column round, then a diagonal round -/
def doubleRound (s : Block) : Block :=
  let s := quarterRound s 0 4 8 12
  let s := quarterRound s 1 5 9 13
  let s := quarterRound s 2 6 10 14
  let s := quarterRound s 3 7 11 15
  let s := quarterRound s 0 5 10 15
  let s := quarterRound s 1 6 11 12
  let s := quarterRound s 2 7 8 13
  quarterRound s 3 4 9 14

/-- the start of a block: four constants, the key, the position -/
def start (k : Key) (p0 p1 p2 p3 : UInt32) : Block :=
  #v[0x61707865, 0x3320646e, 0x79622d32, 0x6b206574, k[0], k[1], k[2], k[3], k[4], k[5], k[6], k[7], p0, p1, p2, p3]

/-- twenty rounds on the start, added to the start -/
def block (k : Key) (p0 p1 p2 p3 : UInt32) : Block :=
  let s := start k p0 p1 p2 p3
  let t := (List.range 10).foldl (fun s _ => doubleRound s) s
  t.zipWith (· + ·) s

/-- a word from four bytes, least significant first -/
def word (bs : Bytes) (i : Nat) : UInt32 := UInt32.ofNat (Bytes.toNat ((bs.drop (4 * i)).take 4))

/-- the key in 32 bytes; bytes that are missing count as zero -/
def Key.ofBytes (bs : Bytes) : Key := Vector.ofFn fun i => word bs i

def Block.toBytes (b : Block) : Bytes := b.toList.flatMap fun w => Bytes.ofNat 4 w.toNat

/-- `len` bytes of keystream, from block number `first` on -/
def keystream (k : Key) (nonce : Bytes) (first len : Nat) : Bytes :=
  ((List.range ((len + 63) / 64)).flatMap fun i =>
    Block.toBytes (block k (UInt32.ofNat (first + i)) (word nonce 0) (word nonce 1) (word nonce 2))).take len

/-- encryption and decryption alike -/
def apply (k : Key) (nonce : Bytes) (first : Nat) (msg : Bytes) : Bytes :=
  Bytes.xor msg (keystream k nonce first msg.length)

end DistributedKey.ChaCha20
