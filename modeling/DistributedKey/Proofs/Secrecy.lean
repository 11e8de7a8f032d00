/-
Secrecy of the dealing phase.

- `mask`: a polynomial that is zero at the x-coordinates of few shareholders and takes a given value at zero.
- `exists_second_opening`: so the commitments of a dealer and what it dealt to fewer than `k` shareholders are those of
  another dealer too, whose secret is any other.
- `dealing_secret`: if fewer than `k` shareholders complain, the other dealer hands out the same rebuttals.
-/
import DistributedKey.Proofs.Interpolation
import DistributedKey.Proofs.Rebuttals
import DistributedKey.Proofs.Silent.Uniform

namespace DistributedKey

open Checked

variable {F G : Type}

/-! ## the mask -/

section

variable [Field F]

/-- the lowest `k` coefficients of a polynomial -/
noncomputable def Poly.ofPolynomial (k : Nat) (p : Polynomial F) : Poly F := ⟨(List.range k).map p.coeff⟩

@[simp] theorem Poly.length_ofPolynomial (k : Nat) (p : Polynomial F) : (Poly.ofPolynomial k p).length = k := by
  simp [Poly.ofPolynomial, Poly.length]

theorem Poly.getD_ofPolynomial {k j : Nat} (hj : j < k) (p : Polynomial F) :
    (Poly.ofPolynomial k p).coeffs.getD j 0 = p.coeff j := by
  simp [Poly.ofPolynomial, hj]

theorem Poly.eval_ofPolynomial {k : Nat} {p : Polynomial F} (h : p.natDegree < k) (x : F) :
    (Poly.ofPolynomial k p).eval x = p.eval x := by
  rw [Poly.eval_eq_sum, Poly.length_ofPolynomial, Polynomial.eval_eq_sum_range' h]
  refine Finset.sum_congr rfl fun j hj => ?_
  rw [Poly.getD_ofPolynomial (Finset.mem_range.1 hj), smul_eq_mul, mul_comm]

/-- zero at the x-coordinates of `observed`, and `a` at zero -/
noncomputable def maskPolynomial (observed : Finset Index) (a : F) : Polynomial F :=
  Polynomial.C (a / (Lagrange.nodal observed xCoordinate).eval 0) * Lagrange.nodal observed xCoordinate

/-- it as a polynomial of `k` coefficients -/
noncomputable def mask (k : Nat) (observed : Finset Index) (a : F) : Poly F :=
  Poly.ofPolynomial k (maskPolynomial observed a)

variable {observed : Finset Index} {k : Nat} {a c : F} {i : Index}

theorem natDegree_maskPolynomial_lt (hcard : observed.card < k) : (maskPolynomial observed a).natDegree < k := by
  calc (maskPolynomial observed a).natDegree
      ≤ (Lagrange.nodal observed (xCoordinate (F := F))).natDegree := Polynomial.natDegree_C_mul_le _ _
    _ = observed.card := Lagrange.natDegree_nodal
    _ < k := hcard

theorem eval_mask (hcard : observed.card < k) (x : F) : (mask k observed a).eval x =
    a / (Lagrange.nodal observed xCoordinate).eval 0 * (Lagrange.nodal observed xCoordinate).eval x := by
  rw [mask, Poly.eval_ofPolynomial (natDegree_maskPolynomial_lt hcard), maskPolynomial, Polynomial.eval_mul,
    Polynomial.eval_C]

theorem eval_mask_observed (hcard : observed.card < k) (hi : i ∈ observed) :
    (mask k observed a).eval (xCoordinate i : F) = 0 := by
  rw [eval_mask hcard, Lagrange.eval_nodal_at_node hi, mul_zero]

theorem eval_mask_zero (hcard : observed.card < k) (hx : ∀ i ∈ observed, xCoordinate (F := F) i ≠ 0) :
    (mask k observed a).eval (0 : F) = a := by
  have hne : (Lagrange.nodal observed (xCoordinate (F := F))).eval 0 ≠ 0 :=
    Lagrange.eval_nodal_not_at_node fun i hi => (hx i hi).symm
  rw [eval_mask hcard, div_mul_cancel₀ a hne]

/-- masks are multiples of one another, coefficient by coefficient -/
theorem getD_mask_mul (j : Nat) :
    (mask k observed (c * a)).coeffs.getD j 0 = c * (mask k observed a).coeffs.getD j 0 := by
  by_cases hj : j < k
  · rw [mask, mask, Poly.getD_ofPolynomial hj, Poly.getD_ofPolynomial hj, maskPolynomial, maskPolynomial,
      Polynomial.coeff_C_mul, Polynomial.coeff_C_mul, mul_div_assoc, mul_assoc]
  · have hnone : ∀ b : F, (mask k observed b).coeffs.getD j 0 = 0 := by
      intro b
      simp [mask, Poly.ofPolynomial, hj]
    rw [hnone, hnone, mul_zero]

/-! ## the second opening -/

variable [AddCommGroup G] [Module F G] [Suite F G]

/-- **A second opening**: what is committed to, and what fewer than `k` shareholders are dealt, leave the secret open. -/
theorem exists_second_opening {η : F} (hη : η ≠ 0) (hblinding : (blinding : G) = η • (generator : G)) {f1 f2 : Poly F}
    (h1 : f1.length = k) (h2 : f2.length = k) (hcard : observed.card < k)
    (hx : ∀ i ∈ observed, xCoordinate (F := F) i ≠ 0) (secret : F) :
    ∃ f1' f2' : Poly F, f1'.length = k ∧ f2'.length = k ∧ f1'.eval (0 : F) = secret ∧
      (Poly.pedersenCommit f1' f2' : Poly G) = Poly.pedersenCommit f1 f2 ∧
      ∀ i ∈ observed, Shareholder.pairFor f1' f2' i = Shareholder.pairFor f1 f2 i := by
  set a := secret - f1.eval (0 : F) with ha
  set δ1 := mask k observed a with hδ1
  set δ2 := mask k observed (-η⁻¹ * a) with hδ2
  have hlen1 : (f1 + δ1).length = k := by
    rw [Poly.length_add, h1, hδ1, mask, Poly.length_ofPolynomial, max_self]
  have hlen2 : (f2 + δ2).length = k := by
    rw [Poly.length_add, h2, hδ2, mask, Poly.length_ofPolynomial, max_self]
  refine ⟨f1 + δ1, f2 + δ2, hlen1, hlen2, ?_, ?_, fun i hi => ?_⟩
  · rw [Poly.eval_add, hδ1, eval_mask_zero hcard hx, ha, add_sub_cancel]
  · refine Poly.ext_getD ?_ fun j => ?_
    · rw [Poly.length_pedersenCommit, Poly.length_pedersenCommit, hlen1, hlen2, h1, h2]
    · -- the two masks cancel, because the blinding generator is `η` times the other
      have hcancel : (δ1.coeffs.getD j 0) • (generator : G) + (δ2.coeffs.getD j 0) • (blinding : G) = 0 := by
        rw [hδ2, getD_mask_mul, ← hδ1, hblinding, smul_smul, ← add_smul]
        have hzero : δ1.coeffs.getD j 0 + -η⁻¹ * δ1.coeffs.getD j 0 * η = 0 := by
          field_simp
          ring
        rw [hzero, zero_smul]
      rw [Poly.getD_pedersenCommit, Poly.getD_pedersenCommit, Poly.getD_add, Poly.getD_add, pedersen, pedersen]
      calc (f1.coeffs.getD j 0 + δ1.coeffs.getD j 0) • (generator : G) +
            (f2.coeffs.getD j 0 + δ2.coeffs.getD j 0) • (blinding : G)
          = f1.coeffs.getD j 0 • (generator : G) + f2.coeffs.getD j 0 • (blinding : G) +
            (δ1.coeffs.getD j 0 • (generator : G) + δ2.coeffs.getD j 0 • (blinding : G)) := by
              rw [add_smul, add_smul]
              abel
        _ = f1.coeffs.getD j 0 • (generator : G) + f2.coeffs.getD j 0 • (blinding : G) := by rw [hcancel, add_zero]
  · rw [Shareholder.pairFor, Shareholder.pairFor, Poly.eval_add, Poly.eval_add, hδ1, hδ2,
      eval_mask_observed hcard hi, eval_mask_observed hcard hi, add_zero, add_zero]

/-- above the number of shareholders the characteristic keeps x-coordinates away from zero -/
theorem xCoordinate_ne_zero (r : Nat) [CharP F r] {n : Nat} (hr : n < r) (hi : i.toNat < n) :
    (xCoordinate i : F) ≠ 0 := by
  intro hzero
  have hdvd : r ∣ i.toNat + 1 := (CharP.cast_eq_zero_iff F r _).1 hzero
  have := Nat.le_of_dvd (Nat.succ_pos _) hdvd
  omega

end

/-! ## the dealing phase -/

variable [Field F] [AddCommGroup G] [Module F G] [Suite F G] [Wire F] [Wire G] [Sampled F] [DecidableEq F]
  [DecidableEq G]

/-- **The dealing phase keeps the secret.** Take any entries among which fewer than `k` shareholders complain about a dealer,
and any secret. There are two other polynomials with that secret, under the same commitments and with the same shares for
those who complain, and with them the dealer hands out the same rebuttals, whenever it deals. -/
theorem dealing_secret (r : Nat) [CharP F r] {η : F} (hη : η ≠ 0)
    (hblinding : (blinding : G) = η • (generator : G)) {s₀ : Shareholder F G} (h₀ : s₀.Fresh) (hr : s₀.params.n < r)
    {log : List Envelope} (hfew : (complainants F G s₀.params s₀.index log).card < s₀.params.k) (secret : F) :
    ∃ f1 f2 : Poly F, f1.length = s₀.params.k ∧ f2.length = s₀.params.k ∧ f1.eval (0 : F) = secret ∧
      (Poly.pedersenCommit f1 f2 : Poly G) = Poly.pedersenCommit s₀.f1 s₀.f2 ∧
      (∀ i ∈ complainants F G s₀.params s₀.index log, f1.eval (xCoordinate i : F) = s₀.f1.eval (xCoordinate i : F) ∧
        f2.eval (xCoordinate i : F) = s₀.f2.eval (xCoordinate i : F)) ∧
      (∃ t out', History { s₀ with f1, f2 } log t out') ∧
      ∀ s out t out', History s₀ log s out → History { s₀ with f1, f2 } log t out' → rebuttals out' = rebuttals out := by
  have hx : ∀ i ∈ complainants F G s₀.params s₀.index log, xCoordinate (F := F) i ≠ 0 :=
    fun i hi => xCoordinate_ne_zero r hr (lt_of_mem_complainants hi)
  obtain ⟨f1, f2, h1, h2, hsecret, hcommit, hpairs⟩ :=
    exists_second_opening hη hblinding h₀.f1_length h₀.f2_length hfew hx secret
  have hcopy : ({ s₀ with f1, f2 } : Shareholder F G).Valid := { h₀.valid with f1_length := h1, f2_length := h2 }
  refine ⟨f1, f2, h1, h2, hsecret, hcommit, ?_, History.exists_of_log hcopy log, ?_⟩
  · intro i hi
    have hpair := hpairs i hi
    exact ⟨congrArg SharePair.value hpair, congrArg SharePair.blinding hpair⟩
  · intro s out t out' hs ht
    rw [ht.rebuttals_eq hcopy, hs.rebuttals_eq h₀.valid]
    split_ifs
    · rfl
    · refine List.map_congr_left fun j hj => ?_
      rw [Shareholder.reveal, Shareholder.reveal, hpairs j (View.mem_complainants_of_mem_accusers hj)]

/-- shareholder 3 of five complains about dealer 1 -/
def complaintOfThree : Payload (ZMod 11) (ZMod 11) := .verification [none, some .complaint, none, none, none]

theorem payload_complaintOfThree : (complaintOfThree.toEnvelope 3).payload = .ok complaintOfThree := by
  have hfits : complaintOfThree.Fits := by
    change (5 : Nat) < 2 ^ 64
    norm_num
  exact Payload.payload_toEnvelope hfits 3

/-- dealer 1 of five reveals a share to shareholder 3, and its secret may be `7` as well as `1` -/
theorem dealing_secret_five : (Cast.five.start 1).f1.eval (0 : ZMod 11) = 1 ∧
    ∃ (f1 f2 : Poly (ZMod 11)) (s t : Shareholder (ZMod 11) (ZMod 11)) (out out' : List (Payload (ZMod 11) (ZMod 11))),
      f1.eval (0 : ZMod 11) = 7 ∧ (Poly.pedersenCommit f1 f2 : Poly (ZMod 11)) =
        Poly.pedersenCommit (Cast.five.start 1).f1 (Cast.five.start 1).f2 ∧
      History (Cast.five.start 1) [complaintOfThree.toEnvelope 3] s out ∧
      History { Cast.five.start 1 with f1, f2 } [complaintOfThree.toEnvelope 3] t out' ∧
      rebuttals out = [(Cast.five.start 1).reveal 3] ∧ rebuttals out' = rebuttals out := by
  have hlt : (1 : Index).toNat < Cast.five.params.n := by rw [Cast.params_five]; decide
  have hfresh : (Cast.five.start 1).Fresh := Cast.ready_five.fresh 1 hlt
  have hparams : (Cast.five.start 1).params = ⟨5, 2, 1⟩ := (Cast.ready_five.params_eq hlt).trans Cast.params_five
  have hfew : (complainants (ZMod 11) (ZMod 11) (Cast.five.start 1).params (Cast.five.start 1).index
      [complaintOfThree.toEnvelope 3]).card < (Cast.five.start 1).params.k := by
    rw [hparams]
    refine lt_of_le_of_lt (List.toFinset_card_le _) ?_
    rw [List.length_map]
    exact lt_of_le_of_lt (List.length_filter_le _ _) (by decide)
  obtain ⟨f1, f2, -, -, hsecret, hcommit, -, ⟨t, out', ht⟩, hsame⟩ := dealing_secret (G := ZMod 11) 11 (η := 2) (by decide)
    (by decide) hfresh (by rw [hparams]; decide) hfew 7
  obtain ⟨s, out, hs⟩ := History.exists_of_log hfresh.valid [complaintOfThree.toEnvelope 3]
  refine ⟨by decide, f1, f2, s, t, out, out', hsecret, hcommit, hs, ht, ?_, hsame s out t out' hs ht⟩
  have haccuser : (Cast.five.start 1).view.accuser? (Cast.five.start 1).params (Cast.five.start 1).index
      (complaintOfThree.toEnvelope 3) = some 3 := by
    obtain ⟨v', htake⟩ : ∃ v', View.takeVerification ⟨5, 2, 1⟩ 3 [none, some .complaint, none, none, none]
        (View.initial 5 : View (ZMod 11)) = .ok v' :=
      ⟨_, View.takeVerification_eq_ok.2 ⟨by decide, by decide, rfl, rfl⟩⟩
    refine View.accuser?_eq_some.2 ⟨rfl, ?_, _, (v', []), payload_complaintOfThree, rfl, ?_⟩
    · rw [hparams]
      decide
    · rw [hfresh.view, hparams, View.step]
      change (View.takeVerification _ _ _ _ >>= fun v => pure (v, [])) = _
      rw [show (complaintOfThree.toEnvelope 3).sender = 3 from rfl, htake]
      rfl
  rw [hs.rebuttals_eq hfresh.valid, if_neg (by decide), View.accusers, haccuser]
  rfl

end DistributedKey
