/-
Authenticated encryption: ChaCha20 with a Poly1305 tag, no associated data.

Block 0 of the keystream keys the tag, the message is encrypted from block 1 on, and the tag covers the
encrypted bytes, zeros up to 16, and the two lengths. `decrypt? (encrypt m) = some m` under one key and nonce.
-/
import DistributedKey.Cipher.ChaCha20
import DistributedKey.Cipher.Poly1305

namespace DistributedKey.Aead

/-- tag of the encrypted bytes -/
def tagOf (k : ChaCha20.Key) (nonce body : Bytes) : Bytes :=
  Poly1305.tag (ChaCha20.keystream k nonce 0 32)
    (body ++ Bytes.padding 16 body.length ++ Bytes.ofNat 8 0 ++ Bytes.ofNat 8 body.length)

/-- the encrypted message followed by its tag -/
def encrypt (k : ChaCha20.Key) (nonce msg : Bytes) : Bytes :=
  let body := ChaCha20.apply k nonce 1 msg
  body ++ tagOf k nonce body

/-- the message, if the last 16 bytes are the tag of the ones before -/
def decrypt? (k : ChaCha20.Key) (nonce box : Bytes) : Option Bytes :=
  if box.length < 16 then none
  else
    let body := box.take (box.length - 16)
    if box.drop (box.length - 16) = tagOf k nonce body then some (ChaCha20.apply k nonce 1 body) else none

end DistributedKey.Aead
