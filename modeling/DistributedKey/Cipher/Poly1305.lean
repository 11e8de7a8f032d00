/-
The one-time authenticator Poly1305: a polynomial in the clamped first half of the key over the field of
2^130 - 5 elements, plus the second half.
-/
import DistributedKey.Bytes

namespace DistributedKey.Poly1305

def modulus : Nat := Nat.pow 2 130 - 5

/-- the multiplier: 22 of its 128 bits are cleared -/
def clamp (r : Nat) : Nat := r &&& 0x0ffffffc0ffffffc0ffffffc0fffffff

/-- a piece of the message with a one byte after it, as a number -/
def coefficient (piece : Bytes) : Nat := Bytes.toNat (piece ++ [1])

/-- the 16-byte tag of a message under a 32-byte key -/
def tag (key msg : Bytes) : Bytes :=
  let r := clamp (Bytes.toNat (key.take 16))
  let s := Bytes.toNat ((key.drop 16).take 16)
  let acc := (Bytes.blocks 16 msg).foldl (fun acc piece => (acc + coefficient piece) * r % modulus) 0
  Bytes.ofNat 16 (acc + s)

@[simp] theorem length_tag (key msg : Bytes) : (tag key msg).length = 16 := by simp [tag]

end DistributedKey.Poly1305
