/-
Completeness of the opening proof: what an honest prover reveals, and that its proof is accepted for the commitment that
it opens and for no other.

The challenge is any function of the two revealed values and the two nonces, so nothing here rests on the digest.

- `nonceA_proveWith`, `nonceB_proveWith`: the verifier rebuilds the nonces that the prover has drawn.
- `verifyWith_proveWith_eq`: hence the verdict on an honest proof, for every commitment.
- `prove_complete`: the same of a proof that was written and read.
-/
import Mathlib.Tactic
import Mathlib.Algebra.Module.Basic
import DistributedKey.Opening
import DistributedKey.Proofs.Residue

namespace DistributedKey.Opening

variable {F G : Type} [Field F] [AddCommGroup G] [Module F G] [Suite F G]

section

variable (challenge : Challenge F G) (a b r s : F)

/-- the verifier rebuilds the nonces that the prover has drawn -/
theorem nonceA_proveWith : (proveWith challenge a b r s).nonceA = r • (generator : G) := by
  simp only [proveWith, nonceA, sub_smul, mul_smul]
  abel

theorem nonceB_proveWith : (proveWith challenge a b r s).nonceB = s • (blinding : G) := by
  simp only [proveWith, nonceB, sub_smul, mul_smul]
  abel

variable [DecidableEq F] [DecidableEq G]

theorem verifyWith_proveWith :
    (proveWith challenge a b r s).verifyWith challenge (pedersen a b) = .ok () := by
  have hsum : (proveWith challenge a b r s).publicA + (proveWith challenge a b r s).publicB = pedersen a b := rfl
  have hchallenge : challenge (proveWith challenge a b r s).publicA (proveWith challenge a b r s).publicB
      (proveWith challenge a b r s).nonceA (proveWith challenge a b r s).nonceB =
        (proveWith challenge a b r s).challenge := by
    rw [nonceA_proveWith, nonceB_proveWith]
    rfl
  rw [verifyWith, if_neg (not_not.2 hsum), if_neg (not_not.2 hchallenge)]

/-- the verdict on an honest proof, for any commitment -/
theorem verifyWith_proveWith_eq (c : G) : (proveWith challenge a b r s).verifyWith challenge c =
    if c = pedersen a b then .ok () else .error .commitmentMismatch := by
  split_ifs with hc
  · rw [hc, verifyWith_proveWith]
  · exact if_pos (Ne.symm hc)

end

section

variable [Wire G] [Sampled F] (a b : F) (rng : Random)

theorem publicA_prove : (prove a b rng).1.publicA = a • (generator : G) := rfl

/-- **An honest proof is accepted** for the commitment that it opens. -/
theorem verify_prove [DecidableEq F] [DecidableEq G] :
    (prove a b rng : Opening F G × Random).1.verify (pedersen a b) = .ok () :=
  verifyWith_proveWith _ a b _ _

end

section

variable [Wire G] [DecidableEq F] [DecidableEq G]

/-- a proof that reveals the two parts of the commitment to `a` and `b`, and is accepted for this commitment only -/
structure Establishes (π : Opening F G) (a b : F) : Prop where
  publicA : π.publicA = a • (generator : G)
  publicB : π.publicB = b • (blinding : G)
  verdict : ∀ c : G, π.verify c = if c = pedersen a b then .ok () else .error .commitmentMismatch

variable [Sampled F]

theorem establishes_prove (a b : F) (rng : Random) : (prove a b rng : Opening F G × Random).1.Establishes a b where
  publicA := rfl
  publicB := rfl
  verdict := verifyWith_proveWith_eq _ a b _ _

/-- **The opening proof is complete.** Whatever is drawn, the proof for any `a` and `b` reveals `a • g` and `b • h`; it is
accepted for the commitment to `a` and `b`, and for every other point the mismatch is reported. So it is of the proof that
is read back from its bytes. -/
theorem prove_complete [Wire F] [LawfulWire F] [LawfulWire G] (a b : F) (rng : Random) :
    (prove a b rng : Opening F G × Random).1.Establishes a b ∧
    ∃ π : Opening F G, Wire.read (Wire.encode (prove a b rng : Opening F G × Random).1) = .ok π ∧ π.Establishes a b := by
  have hread := (roundTrips_opening (π := (prove a b rng : Opening F G × Random).1)
    (fun a _ => LawfulWire.roundTrips a) fun c _ => LawfulWire.roundTrips c).read
  exact ⟨establishes_prove a b rng, _, hread, establishes_prove a b rng⟩

/-- a proof for `3` and `0`, read back from its bytes: it is accepted for `3` and not for `4` -/
theorem prove_complete_three : ∃ π : Opening (ZMod 11) (ZMod 11),
    Wire.read (Wire.encode (prove 3 0 (.ofSeed []) : Opening (ZMod 11) (ZMod 11) × Random).1) = .ok π ∧
      π.publicA = 3 ∧ π.publicB = 0 ∧ π.verify 3 = .ok () ∧ π.verify 4 = .error .commitmentMismatch := by
  obtain ⟨-, π, hread, hA, hB, hverdict⟩ := prove_complete (F := ZMod 11) (G := ZMod 11) 3 0 (.ofSeed [])
  exact ⟨π, hread, hA, hB, hverdict 3, hverdict 4⟩

end

end DistributedKey.Opening
