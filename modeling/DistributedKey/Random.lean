/-
Seeded randomness: a pure stream of 32-bit words.

The stream of a 32-byte key is the ChaCha20 keystream of that key with a 64-bit block counter and stream number 0,
read word by word. A state is the key and the number of words already taken, so a draw that takes no word leaves
the state as it is, and two states of one key differ only in how far they have read.
-/
import DistributedKey.Cipher.ChaCha20

namespace DistributedKey

structure Random where
  key : ChaCha20.Key
  /-- words taken so far -/
  taken : Nat
deriving DecidableEq

namespace Random

def ofSeed (seed : Bytes) : Random := ⟨ChaCha20.Key.ofBytes seed, 0⟩

/-- block number `i` of the stream -/
def block (key : ChaCha20.Key) (i : Nat) : ChaCha20.Block :=
  ChaCha20.block key (UInt32.ofNat i) (UInt32.ofNat (i / UInt32.size)) 0 0

/-- the next `count` words -/
def words (count : Nat) (s : Random) : List UInt32 × Random :=
  let first := s.taken / 16
  let upto := (s.taken + count + 15) / 16
  let blocks := (List.range (upto - first)).flatMap fun i => (block s.key (first + i)).toList
  ((blocks.drop (s.taken % 16)).take count, { s with taken := s.taken + count })

def nextWord (s : Random) : UInt32 × Random :=
  let (ws, s) := s.words 1
  (ws.headD 0, s)

/-- `count` words as one number, the first word lowest -/
def number (count : Nat) (s : Random) : Nat × Random :=
  let (ws, s) := s.words count
  (ws.foldr (fun w n => w.toNat + UInt32.size * n) 0, s)

/-- `count` bytes; whole words are taken, the rest of the last one is dropped -/
def bytes (count : Nat) (s : Random) : Bytes × Random :=
  let (ws, s) := s.words ((count + 3) / 4)
  ((ws.flatMap fun w => Bytes.ofNat 4 w.toNat).take count, s)

/-- draws `count` words and keeps their low `bits` bits, until the number is below `bound`; after `attempts` draws
it gives up and answers zero. With `bound` above a quarter of `2 ^ bits`, 512 attempts fail once in `2 ^ 212` -/
def numberBelow (count bits bound : Nat) : (attempts : Nat) → Random → Nat × Random
  | 0, s => (0, s)
  | attempts + 1, s =>
    let (n, s) := s.number count
    if n % Nat.pow 2 bits < bound then (n % Nat.pow 2 bits, s) else numberBelow count bits bound attempts s

/-! ## what a draw leaves -/

@[simp] theorem words_taken (count : Nat) (s : Random) : (s.words count).2.taken = s.taken + count := rfl

@[simp] theorem words_key (count : Nat) (s : Random) : (s.words count).2.key = s.key := rfl

end Random

end DistributedKey
