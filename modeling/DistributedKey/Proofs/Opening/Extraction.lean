/-
Special soundness of the opening proof: who can answer two challenges for the same nonces knows the opening.

The two proofs are accepted each under a challenge function of its own, any two functions at all, as when one prover is run
twice and the second time is answered otherwise. So nothing here rests on the digest either.

- `eq_smul_of_nonce_eq`: over one base, two responses to different challenges give the logarithm of what was revealed.
- `response_unique`: over a base that is not the identity, a nonce is rebuilt from one response only.
- `special_soundness`: hence both parts of the commitment, and the commitment itself, are opened by what the two proofs
  give away, and no proof has a second pair of responses for its nonces.
-/
import DistributedKey.Proofs.Opening

namespace DistributedKey.Opening

variable {F G : Type} [Field F] [AddCommGroup G] [Module F G]

/-! ## one base -/

section

variable {base x : G} {c c' s s' : F}

theorem eq_smul_of_nonce_eq (hnonce : s • base + c • x = s' • base + c' • x) (hne : c ≠ c') :
    x = ((s - s') / (c' - c)) • base := by
  have hmoved : (c' - c) • x = (s - s') • base := by
    rw [sub_smul, sub_smul, sub_eq_sub_iff_add_eq_add, add_comm, ← hnonce, add_comm]
  have hunit : c' - c ≠ 0 := sub_ne_zero.2 hne.symm
  rw [div_eq_inv_mul, mul_smul, ← hmoved, inv_smul_smul₀ hunit]

theorem response_unique (hbase : base ≠ 0) (hnonce : s • base + c • x = s' • base + c • x) : s = s' :=
  smul_left_injective F hbase (add_right_cancel hnonce)

end

/-! ## two proofs -/

variable [Suite F G]

/-- the two proofs reveal the same values, and the same nonces are rebuilt from them -/
structure SameTranscript (π π' : Opening F G) : Prop where
  publicA : π.publicA = π'.publicA
  publicB : π.publicB = π'.publicB
  nonceA : π.nonceA = π'.nonceA
  nonceB : π.nonceB = π'.nonceB

/-- the exponent over `g` that two answers give away -/
def extractedA (π π' : Opening F G) : F := (π.responseA - π'.responseA) / (π'.challenge - π.challenge)

/-- the exponent over `h` that two answers give away -/
def extractedB (π π' : Opening F G) : F := (π.responseB - π'.responseB) / (π'.challenge - π.challenge)

section

variable {π π' : Opening F G}

theorem SameTranscript.publicA_eq (h : π.SameTranscript π') (hne : π.challenge ≠ π'.challenge) :
    π.publicA = π.extractedA π' • (generator : G) := by
  refine eq_smul_of_nonce_eq ?_ hne
  have hnonce := h.nonceA
  rwa [Opening.nonceA, Opening.nonceA, ← h.publicA] at hnonce

theorem SameTranscript.publicB_eq (h : π.SameTranscript π') (hne : π.challenge ≠ π'.challenge) :
    π.publicB = π.extractedB π' • (blinding : G) := by
  refine eq_smul_of_nonce_eq ?_ hne
  have hnonce := h.nonceB
  rwa [Opening.nonceB, Opening.nonceB, ← h.publicB] at hnonce

theorem SameTranscript.responses_eq (h : π.SameTranscript π') (hchallenge : π.challenge = π'.challenge)
    (hg : (generator : G) ≠ 0) (hh : (blinding : G) ≠ 0) :
    π.responseA = π'.responseA ∧ π.responseB = π'.responseB := by
  have hA := h.nonceA
  have hB := h.nonceB
  rw [Opening.nonceA, Opening.nonceA, ← h.publicA, ← hchallenge] at hA
  rw [Opening.nonceB, Opening.nonceB, ← h.publicB, ← hchallenge] at hB
  exact ⟨response_unique hg hA, response_unique hh hB⟩

end

variable [DecidableEq F] [DecidableEq G]

/-- an accepted proof splits the commitment into what it reveals -/
theorem sum_of_verifyWith {challenge : Challenge F G} {π : Opening F G} {c : G}
    (h : π.verifyWith challenge c = .ok ()) : π.publicA + π.publicB = c := by
  by_contra hsum
  rw [verifyWith, if_pos hsum] at h
  cases h

/-- **Special soundness.** Two proofs of one transcript that are accepted for a commitment, each under its own challenge
function, and differ in their challenge give away an opening: of what they reveal over `g`, of what they reveal over `h`,
and of the commitment. Conversely the responses of a proof are the only ones that its challenge and its nonces admit. -/
theorem special_soundness (hg : (generator : G) ≠ 0) (hh : (blinding : G) ≠ 0) :
    (∀ (challenge challenge' : Challenge F G) (c : G) (π π' : Opening F G),
      π.verifyWith challenge c = .ok () → π'.verifyWith challenge' c = .ok () →
      π.SameTranscript π' → π.challenge ≠ π'.challenge →
      π.publicA = π.extractedA π' • (generator : G) ∧ π.publicB = π.extractedB π' • (blinding : G) ∧
        c = pedersen (π.extractedA π') (π.extractedB π')) ∧
    ∀ π π' : Opening F G, π.SameTranscript π' → π.challenge = π'.challenge →
      π.responseA = π'.responseA ∧ π.responseB = π'.responseB := by
  refine ⟨fun challenge challenge' c π π' hπ _ hsame hne => ?_, fun π π' hsame hchallenge => ?_⟩
  · have hA := hsame.publicA_eq hne
    have hB := hsame.publicB_eq hne
    refine ⟨hA, hB, ?_⟩
    rw [← sum_of_verifyWith hπ, hA, hB, pedersen]
  · exact hsame.responses_eq hchallenge hg hh

/-- two answers for the opening `(3, 4)` of `0` modulo 11, to the challenges 2 and 5, give it away -/
theorem special_soundness_eleven :
    let π : Opening (ZMod 11) (ZMod 11) := ⟨3, 8, 2, 1, 8⟩
    let π' : Opening (ZMod 11) (ZMod 11) := ⟨3, 8, 5, 3, 7⟩
    π.verifyWith (fun _ _ _ _ => 2) 0 = .ok () ∧ π'.verifyWith (fun _ _ _ _ => 5) 0 = .ok () ∧
      π.SameTranscript π' ∧ π.extractedA π' = 3 ∧ π.extractedB π' = 4 ∧ (0 : ZMod 11) = pedersen 3 4 := by
  intro π π'
  have hπ : π.verifyWith (fun _ _ _ _ => 2) 0 = .ok () := by decide
  have hπ' : π'.verifyWith (fun _ _ _ _ => 5) 0 = .ok () := by decide
  have hsame : π.SameTranscript π' := ⟨rfl, rfl, by decide, by decide⟩
  have hA : π.extractedA π' = 3 := (div_eq_iff (by decide)).2 (by decide)
  have hB : π.extractedB π' = 4 := (div_eq_iff (by decide)).2 (by decide)
  obtain ⟨hextracted, -⟩ := special_soundness (F := ZMod 11) (G := ZMod 11) (by decide) (by decide)
  obtain ⟨-, -, hopening⟩ := hextracted _ _ 0 π π' hπ hπ' hsame (by decide)
  rw [hA, hB] at hopening
  exact ⟨hπ, hπ', hsame, hA, hB, hopening⟩

end DistributedKey.Opening
