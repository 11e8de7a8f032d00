/-
Confidential messages to the holder of a private key `k`, whose public key is `k • g`.

The sender draws an exponent `e`, publishes `e • g`, and both sides reach `e • k • g`. The key of the authenticated
cipher is derived from the bytes of `e • g` and of that shared point. `keyMaterial` is exactly those bytes, so that
what two different private keys derive from can be compared.
-/
import DistributedKey.Wire
import DistributedKey.Digest.Hkdf
import DistributedKey.Cipher.Aead

namespace DistributedKey

structure SealedBox (G : Type) where
  /-- the encrypted message and its tag -/
  body : Bytes
  /-- `e • g` -/
  ephemeral : G
  nonce : Vector UInt8 12
deriving DecidableEq

variable {F G : Type}

namespace SealedBox

/-- what the key is derived from -/
def keyMaterial [Wire G] (ephemeral shared : G) : Bytes := Wire.encode ephemeral ++ Wire.encode shared

def cipherKey [Wire G] (ephemeral shared : G) : ChaCha20.Key :=
  .ofBytes (deriveKey (keyMaterial ephemeral shared) (Bytes.ofText "avss-share-encryption"))

/-- the box for public key `recipient` with exponent `e` -/
def encryptWith [Suite F G] [SMul F G] [Wire G] (recipient : G) (msg : Bytes) (e : F) (nonce : Vector UInt8 12) :
    SealedBox G :=
  let ephemeral := e • (generator : G)
  ⟨Aead.encrypt (cipherKey ephemeral (e • recipient)) nonce.toList msg, ephemeral, nonce⟩

/-- draws the exponent, then the nonce -/
def encrypt [Suite F G] [SMul F G] [Wire G] [Sampled F] (recipient : G) (msg : Bytes) (rng : Random) :
    SealedBox G × Random :=
  let (e, rng) := (Sampled.draw rng : F × Random)
  let (nonce, rng) := rng.bytes 12
  (encryptWith recipient msg e (Vector.ofFn fun i => nonce.getD i 0), rng)

/-- the message, if it was encrypted to the public key of `key` -/
def decrypt? [SMul F G] [Wire G] (key : F) (box : SealedBox G) : Option Bytes :=
  Aead.decrypt? (cipherKey box.ephemeral (key • box.ephemeral)) box.nonce.toList box.body

end SealedBox

instance [Wire G] : Wire (SealedBox G) :=
  .via (fun b => (b.body, b.ephemeral, b.nonce)) fun (b, e, n) => ⟨b, e, n⟩

end DistributedKey
