/-
What is sealed to a shareholder is opened by it.

- `Aead.decrypt?_encrypt`: the cipher gives back what it was given, under one key and nonce.
- `SealedBox.decrypt?_encrypt`: so does a box, for the holder of the private key, because both sides reach `e • k • g`.
- `sealShares_find?`: the box in a contribution that is addressed to a participant holds that participant's pair.
-/
import DistributedKey.Proofs.Codec
import DistributedKey.Shareholder.Dealing

namespace DistributedKey

/-! ## the cipher -/

theorem Bytes.xor_xor_cancel {as ks : Bytes} (h : as.length ≤ ks.length) : Bytes.xor (Bytes.xor as ks) ks = as := by
  induction as generalizing ks with
  | nil => rfl
  | cons a as ih =>
    cases ks with
    | nil => simp at h
    | cons k ks =>
      have htail : Bytes.xor (Bytes.xor as ks) ks = as := ih (Nat.le_of_succ_le_succ h)
      have hhead : (a ^^^ k) ^^^ k = a := by rw [UInt8.xor_assoc, UInt8.xor_self, UInt8.xor_zero]
      change ((a ^^^ k) ^^^ k) :: Bytes.xor (Bytes.xor as ks) ks = a :: as
      rw [hhead, htail]

namespace ChaCha20

@[simp] theorem length_toBytes (b : Block) : b.toBytes.length = 64 := by
  simp [Block.toBytes, List.length_flatMap]

@[simp] theorem length_keystream (k : Key) (nonce : Bytes) (first len : Nat) :
    (keystream k nonce first len).length = len := by
  simp only [keystream, List.length_take, List.length_flatMap, length_toBytes, List.map_const', List.sum_replicate,
    List.length_range, smul_eq_mul]
  omega

@[simp] theorem length_apply (k : Key) (nonce : Bytes) (first : Nat) (msg : Bytes) :
    (apply k nonce first msg).length = msg.length := by
  simp [apply, Bytes.xor]

theorem apply_apply (k : Key) (nonce : Bytes) (first : Nat) (msg : Bytes) :
    apply k nonce first (apply k nonce first msg) = msg := by
  have hlen := length_apply k nonce first msg
  unfold apply at hlen ⊢
  rw [hlen, Bytes.xor_xor_cancel (by simp)]

end ChaCha20

namespace Aead

variable (k : ChaCha20.Key) (nonce msg : Bytes)

@[simp] theorem length_encrypt : (encrypt k nonce msg).length = msg.length + 16 := by
  simp [encrypt, tagOf]

/-- **The cipher gives back what it was given.** -/
theorem decrypt?_encrypt : decrypt? k nonce (encrypt k nonce msg) = some msg := by
  set body := ChaCha20.apply k nonce 1 msg with hbody
  have hbox : encrypt k nonce msg = body ++ tagOf k nonce body := rfl
  have hlen : (encrypt k nonce msg).length - 16 = body.length := by
    rw [length_encrypt, hbody, ChaCha20.length_apply, Nat.add_sub_cancel]
  have hshort : ¬ (encrypt k nonce msg).length < 16 := by
    rw [length_encrypt]
    omega
  have htake : (encrypt k nonce msg).take body.length = body := by rw [hbox, List.take_left]
  have hdrop : (encrypt k nonce msg).drop body.length = tagOf k nonce body := by rw [hbox, List.drop_left]
  unfold decrypt?
  rw [if_neg hshort, hlen, htake, hdrop]
  dsimp only
  rw [if_pos rfl, hbody, ChaCha20.apply_apply]

end Aead

/-! ## boxes -/

variable {F G : Type} [Field F] [AddCommGroup G] [Module F G] [Suite F G] [Wire G]

namespace SealedBox

theorem decrypt?_encryptWith (key e : F) (msg : Bytes) (nonce : Vector UInt8 12) :
    (encryptWith (key • (generator : G)) msg e nonce).decrypt? key = some msg := by
  have hshared : key • e • (generator : G) = e • key • generator := smul_comm key e generator
  simp only [encryptWith, decrypt?, hshared]
  exact Aead.decrypt?_encrypt _ _ _

variable [Sampled F]

/-- **A box is opened by the holder of the private key.** -/
theorem decrypt?_encrypt (key : F) (msg : Bytes) (rng : Random) :
    (encrypt (key • (generator : G)) msg rng).1.decrypt? key = some msg :=
  decrypt?_encryptWith key _ msg _

theorem length_body_encrypt (recipient : G) (msg : Bytes) (rng : Random) :
    (encrypt recipient msg rng).1.body.length = msg.length + 16 :=
  Aead.length_encrypt _ _ msg

end SealedBox

/-! ## the shares of a contribution -/

namespace Shareholder

variable [Wire F] [Sampled F] {f1 f2 : Poly F} {participants : List (Participant G)} {i : Index}

theorem sealShares_find? (f1 f2 : Poly F) {P : Participant G} (h : participants.find? (·.id = i) = some P)
    (rng : Random) :
    ∃ rng', (sealShares f1 f2 participants rng).1.find? (·.recipient = i) =
      some ⟨i, (SealedBox.encrypt P.key (Wire.encode (pairFor f1 f2 i)) rng').1⟩ := by
  induction participants generalizing rng with
  | nil => cases h
  | cons Q rest ih =>
    simp only [sealShares]
    by_cases hid : Q.id = i
    · rw [List.find?_cons_of_pos (by simpa using hid)] at h ⊢
      obtain rfl := Option.some.inj h
      exact ⟨rng, by rw [hid]⟩
    · rw [List.find?_cons_of_neg (by simpa using hid)] at h ⊢
      exact ih h _

theorem length_sealShares (rng : Random) : (sealShares f1 f2 participants rng).1.length = participants.length := by
  induction participants generalizing rng with
  | nil => rfl
  | cons P rest ih => simp [sealShares, ih]

theorem length_body_of_mem_sealShares {share : EncryptedShare G} {rng : Random}
    (h : share ∈ (sealShares f1 f2 participants rng).1) :
    ∃ P ∈ participants, share.secret.body.length = (Wire.encode (pairFor f1 f2 P.id)).length + 16 := by
  induction participants generalizing rng with
  | nil => cases h
  | cons P rest ih =>
    rcases List.mem_cons.1 h with rfl | h
    · exact ⟨P, List.mem_cons_self, SealedBox.length_body_encrypt _ _ _⟩
    · obtain ⟨Q, hQ, hlen⟩ := ih h
      exact ⟨Q, List.mem_cons_of_mem _ hQ, hlen⟩

end Shareholder

end DistributedKey
