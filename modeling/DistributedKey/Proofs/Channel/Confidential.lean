/-
What the key of a box is derived from, by its sender and by those who try to open it.

The sender reaches the shared point as `e • (k • g)` and the receiver as `k • (e • g)`. `senderMaterial` and
`openerMaterial` are the bytes that each of them derives the key of the cipher from, by `keyFrom`.

- `SealedFor`: the body of the box is the message under the key from the sender's bytes, whoever opens it takes the key
  from its own bytes, and only the holder's bytes are the sender's.
- `keyMaterial_inj`: two pairs of points are never derived from alike.
- `openerMaterial_eq_iff`: unless `e` is zero, only the private key reaches the sender's bytes.
- `sealed_in_transit`: what is sealed for a key is opened by it, also after the box was written and read, and for every
  other key the key of the cipher is derived from other bytes.
-/
import DistributedKey.Proofs.Channel
import DistributedKey.Proofs.Residue

namespace DistributedKey

/-- the longest message, in bytes: the keystream starts at block 1 and a block number is a 32-bit word -/
def Aead.capacity : Nat := 64 * (UInt32.size - 1)

namespace Wire

variable {α : Type} [Wire α]

/-- different values are not written alike -/
theorem RoundTrips.eq {a b : α} (ha : RoundTrips a) (hb : RoundTrips b) (h : encode a = encode b) : a = b := by
  have hread := ha.read
  rw [h, hb.read] at hread
  exact (Except.ok.inj hread).symm

end Wire

namespace SealedBox

variable {F G : Type} [Field F] [AddCommGroup G] [Module F G] [Suite F G] [Wire G]

/-- the key of the cipher from the bytes it is derived from -/
def keyFrom (material : Bytes) : ChaCha20.Key :=
  .ofBytes (deriveKey material (Bytes.ofText "avss-share-encryption"))

/-- what the sender derives the key from, for public key `recipient` and exponent `e` -/
def senderMaterial (recipient : G) (e : F) : Bytes := keyMaterial (e • (generator : G)) (e • recipient)

/-- what the key is derived from by who opens the box with `key` -/
def openerMaterial (key : F) (box : SealedBox G) : Bytes := keyMaterial box.ephemeral (key • box.ephemeral)

/-- the key that seals a box is derived from the sender's bytes -/
theorem body_encryptWith (recipient : G) (msg : Bytes) (e : F) (nonce : Vector UInt8 12) :
    (encryptWith recipient msg e nonce).body = Aead.encrypt (keyFrom (senderMaterial recipient e)) nonce.toList msg :=
  rfl

omit [Suite F G] in
/-- and the key that opens it from those of the opener -/
theorem decrypt?_eq (key : F) (box : SealedBox G) :
    box.decrypt? key = Aead.decrypt? (keyFrom (openerMaterial key box)) box.nonce.toList box.body :=
  rfl

/-- both sides derive from the same bytes -/
theorem openerMaterial_encryptWith (key e : F) (msg : Bytes) (nonce : Vector UInt8 12) :
    openerMaterial key (encryptWith (key • (generator : G)) msg e nonce) = senderMaterial (key • (generator : G)) e := by
  have hshared : key • e • (generator : G) = e • key • generator := smul_comm key e generator
  simp only [openerMaterial, senderMaterial, encryptWith, hshared]

variable [LawfulWire G]

omit [AddCommGroup G] in
theorem keyMaterial_inj {ephemeral shared ephemeral' shared' : G} :
    keyMaterial ephemeral shared = keyMaterial ephemeral' shared' ↔ ephemeral = ephemeral' ∧ shared = shared' := by
  have hpair : ∀ p : G × G, Wire.RoundTrips p := fun p =>
    (LawfulWire.roundTrips p.1).prod (LawfulWire.roundTrips p.2)
  refine ⟨fun h => ?_, fun ⟨he, hs⟩ => by rw [he, hs]⟩
  have hencode : Wire.encode (ephemeral, shared) = Wire.encode (ephemeral', shared') := h
  exact Prod.mk.inj ((hpair (ephemeral, shared)).eq (hpair (ephemeral', shared')) hencode)

/-- only the private key reaches the bytes of the sender -/
theorem openerMaterial_eq_iff (hg : (generator : G) ≠ 0) {e : F} (he : e ≠ 0) (key key' : F) (msg : Bytes)
    (nonce : Vector UInt8 12) :
    openerMaterial key' (encryptWith (key • (generator : G)) msg e nonce) = senderMaterial (key • (generator : G)) e ↔
      key' = key := by
  refine ⟨fun h => ?_, fun h => by rw [h, openerMaterial_encryptWith]⟩
  obtain ⟨-, hshared⟩ := keyMaterial_inj.1 h
  have hephemeral : e • (generator : G) ≠ 0 := smul_ne_zero he hg
  rw [smul_comm e key] at hshared
  exact smul_left_injective F hephemeral hshared

/-- A box that carries a message for the holder of `key`, sealed with exponent `e`. The holder reads the message. What the
sender encrypted under is the key from its bytes, and whoever decrypts does so under the key from the bytes of the opener.
For the holder these are the same; for every other key they are not, unless `e` is zero. -/
structure SealedFor (box : SealedBox G) (key e : F) (msg : Bytes) : Prop where
  opens : box.decrypt? key = some msg
  encrypts : box.body = Aead.encrypt (keyFrom (senderMaterial (key • (generator : G)) e)) box.nonce.toList msg
  decrypts : ∀ key' : F, box.decrypt? key' =
    Aead.decrypt? (keyFrom (openerMaterial key' box)) box.nonce.toList box.body
  same : openerMaterial key box = senderMaterial (key • (generator : G)) e
  other : e ≠ 0 → ∀ key' : F, key' ≠ key → openerMaterial key' box ≠ senderMaterial (key • (generator : G)) e

theorem sealedFor_encryptWith (hg : (generator : G) ≠ 0) (key e : F) (msg : Bytes) (nonce : Vector UInt8 12) :
    (encryptWith (key • (generator : G)) msg e nonce).SealedFor key e msg where
  opens := decrypt?_encryptWith key e msg nonce
  encrypts := body_encryptWith (key • generator) msg e nonce
  decrypts key' := decrypt?_eq key' _
  same := openerMaterial_encryptWith key e msg nonce
  other he key' hkey := mt (openerMaterial_eq_iff hg he key key' msg nonce).1 hkey

variable [Sampled F]

/-- a box is read as it was written, if the cipher admits its message -/
theorem read_encode_encrypt (recipient : G) {msg : Bytes} (hmsg : msg.length ≤ Aead.capacity) (rng : Random) :
    Wire.read (Wire.encode (encrypt recipient msg rng).1) = .ok (encrypt recipient msg rng).1 := by
  have hlen : (encrypt recipient msg rng).1.body.length < 2 ^ 64 := by
    rw [length_body_encrypt]
    refine lt_of_le_of_lt (Nat.add_le_add_right hmsg 16) ?_
    decide
  exact (roundTrips_sealedBox hlen (LawfulWire.roundTrips _)).read

/-- **What is sealed for a key is opened by that key, and by no other one from the same bytes.** This holds of the box
with whatever exponent and nonce are drawn, for every message that the cipher admits, and it still holds of the box that
is read back from the bytes of the first. -/
theorem sealed_in_transit (hg : (generator : G) ≠ 0) (key : F) {msg : Bytes} (hmsg : msg.length ≤ Aead.capacity)
    (rng : Random) :
    let e := (Sampled.draw rng : F × Random).1
    let box := (encrypt (key • (generator : G)) msg rng).1
    box.SealedFor key e msg ∧
      ∃ received : SealedBox G, Wire.read (Wire.encode box) = .ok received ∧ received.SealedFor key e msg := by
  intro e box
  have hbox : box.SealedFor key e msg := sealedFor_encryptWith hg key e msg _
  exact ⟨hbox, box, read_encode_encrypt _ hmsg rng, hbox⟩

/-- a box for the key 3 modulo 11, written and read: the key 4 opens with a key from other bytes than it was sealed from -/
theorem sealed_in_transit_three :
    ∃ (received : SealedBox (ZMod 11)) (sent opened : Bytes),
      Wire.read (Wire.encode (encrypt (3 : ZMod 11) [1, 2, 3, 4] (.ofSeed []) : SealedBox (ZMod 11) × Random).1) =
        .ok received ∧
      received.decrypt? (3 : ZMod 11) = some [1, 2, 3, 4] ∧
      received.body = Aead.encrypt (keyFrom sent) received.nonce.toList [1, 2, 3, 4] ∧
      received.decrypt? (4 : ZMod 11) = Aead.decrypt? (keyFrom opened) received.nonce.toList received.body ∧
      opened ≠ sent := by
  have hnonzero : (Sampled.draw (.ofSeed []) : ZMod 11 × Random).1 ≠ 0 := by decide +kernel
  obtain ⟨-, received, hread, hsealed⟩ := sealed_in_transit (F := ZMod 11) (G := ZMod 11) (by decide) 3
    (show ([1, 2, 3, 4] : Bytes).length ≤ Aead.capacity by decide) (.ofSeed [])
  exact ⟨received, _, _, hread, hsealed.opens, hsealed.encrypts, hsealed.decrypts 4,
    hsealed.other hnonzero 4 (by decide)⟩

end SealedBox

end DistributedKey
