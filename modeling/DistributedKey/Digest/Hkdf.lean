/-
HMAC-SHA256 and the extract-and-expand key derivation over it, for one output of at most 32 bytes.
-/
import DistributedKey.Digest.Sha256

namespace DistributedKey

/-- keyed digest; a key longer than a block is hashed first -/
def hmac (key msg : Bytes) : Bytes :=
  let key := if key.length > 64 then Sha256.digest key else key
  let block := key ++ List.replicate (64 - key.length) 0
  let inner := block.map (· ^^^ 0x36)
  let outer := block.map (· ^^^ 0x5c)
  Sha256.digest (outer ++ Sha256.digest (inner ++ msg))

/-- a 32-byte key from key material and a purpose, with no salt: the first block of the expansion -/
def deriveKey (material purpose : Bytes) : Bytes :=
  hmac (hmac (List.replicate 32 0) material) (purpose ++ [1])

@[simp] theorem length_hmac (key msg : Bytes) : (hmac key msg).length = 32 := by
  simp [hmac]

end DistributedKey
